import LetLang.Proofs.Program.Unambiguous

/-!
# Canonical text as a source

A single expression is read back from its canonical text or refused for its depth
(`ofText_render_expr`). A program keeps its statements exactly if none of them runs into the next one
(`ofText_render_iff`), and then, and only then, reading what was read once more changes nothing
(`ofText_render_ofText_iff`).
-/

namespace LetLang

open Parse (State)
open Token (Window)

theorem exists_first_break {α : Type} {R : α → α → Prop} {xs : List α} (h : ¬ xs.IsChain R) :
    ∃ front x y back, xs = front ++ x :: y :: back ∧ (front ++ [x]).IsChain R ∧ ¬ R x y := by
  induction xs with
  | nil => exact absurd .nil h
  | cons x xs ih =>
    cases xs with
    | nil => exact absurd (.singleton x) h
    | cons y ys =>
      by_cases next : R x y
      · obtain ⟨front, a, b, back, same, chain, stops⟩ := ih fun rest => h (.cons_cons next rest)
        refine ⟨x :: front, a, b, back, congrArg (x :: ·) same, ?_, stops⟩
        rw [List.cons_append, List.isChain_cons]
        refine ⟨fun z first => ?_, chain⟩
        have head : (front ++ [a]).head? = some y := by
          cases front <;> simp_all
        rw [head] at first
        obtain rfl := Option.some.inj first
        exact next
      · exact ⟨[], x, y, ys, rfl, .singleton x, next⟩

namespace Program

variable {source : String} {u : State} {x : Stmt} {xs front back : List Stmt} {d : Diagnostic}

/-- No statement runs into the next one. -/
def Parted (p : Program) : Prop := p.statements.IsChain Stmt.Parts

instance (p : Program) : Decidable p.Parted := inferInstanceAs (Decidable (List.IsChain _ _))

theorem toList_render (p : Program) : p.render.toList = Stmt.text p.statements := by
  obtain ⟨xs⟩ := p
  rw [render, String.toList_join, List.flatMap_map]
  rfl

section

variable (same : source.toList = Stmt.text (front ++ back)) (wf : ∀ x ∈ front ++ back, x.WellFormed)
  (parted : (front ++ back.take 1).IsChain Stmt.Parts)

include same wf parted

theorem ofText_rereads (shallow : ∀ x ∈ front, x.value.levels ≤ Parse.maxDepth) :
    ∃ ys zs t u, (ofText source).program.statements = ys ++ zs ∧
      (ofText source).diagnostics = u.diagnostics.reverse ∧ ys.map Stmt.unplaced = front.map Stmt.unplaced ∧
      Run t zs u ∧ t.window.Before (Stmt.text back) ∧ t.depth = 0 ∧ t.diagnostics = [] := by
  obtain ⟨u, run, reported⟩ := run_ofText source
  have here : (State.ofText source).window.Before (Stmt.text (front ++ back)) :=
    same ▸ Window.Before.ofText source
  obtain ⟨ys, zs, t, split, others, rest, there, depth, silent⟩ := run.rereads here wf parted shallow
  exact ⟨ys, zs, t, u, split, reported, others, rest, there, depth, silent⟩

theorem first_too_deep (deep : ∃ x ∈ front, Parse.maxDepth < x.value.levels) :
    ∃ d, (ofText source).diagnostics.head? = some d ∧ d.fault = .nestingTooDeep Parse.maxDepth := by
  obtain ⟨y, member, deep⟩ := deep
  obtain ⟨x, found⟩ : ∃ x, front.find? (fun x => decide (Parse.maxDepth < x.value.levels)) = some x := by
    rw [← Option.isSome_iff_exists, List.find?_isSome]
    exact ⟨y, member, by simpa using deep⟩
  -- The statements in front of the first one that nests too deep are read.
  obtain ⟨deep, before, behind, rfl, shallow⟩ := List.find?_eq_some_iff_append.1 found
  have shallow : ∀ x ∈ before, x.value.levels ≤ Parse.maxDepth := by simpa using shallow
  have parted : (before ++ (x :: behind ++ back.take 1)).IsChain Stmt.Parts := by simpa using parted
  have split : before ++ x :: behind ++ back = before ++ (x :: (behind ++ back)) := by simp
  rw [split] at same wf
  have first : (before ++ [x]).IsChain Stmt.Parts := by
    have longer : (before ++ [x] ++ (behind ++ back.take 1)).IsChain Stmt.Parts := by
      simpa using parted
    exact longer.left_of_append
  obtain ⟨clear, -⟩ := Stmt.parted_cons parted.right_of_append
  obtain ⟨ys, zs, t, u, -, reported, -, rest, there, depth, silent⟩ := ofText_rereads same wf first shallow
  have hx := wf x (by simp)
  have later : ∀ y ∈ behind ++ back, y.WellFormed := fun y member => wf y (by simp [List.mem_append.1 member])
  obtain ⟨more, -, refuses⟩ := hx.reads later there (Stmt.absorbs_text hx later clear)
  obtain ⟨d, r, stmt, fault⟩ := refuses (by rw [depth]; simpa using deep)
  obtain ⟨new, added⟩ := (rest.of_failed more stmt).appends
  have kept : r.diagnostics = t.diagnostics := stmt.keeps.2
  refine ⟨d, ?_, fault⟩
  have all : u.diagnostics = new ++ [d] := by
    rw [added, ← silent, ← kept]
    rfl
  rw [reported, all, List.reverse_append]
  rfl

end

theorem silent_of_parted (same : source.toList = Stmt.text xs) (wf : ∀ x ∈ xs, x.WellFormed)
    (parted : xs.IsChain Stmt.Parts) (shallow : ∀ x ∈ xs, x.value.levels ≤ Parse.maxDepth) :
    (ofText source).diagnostics = [] ∧
      (ofText source).program.statements.map Stmt.unplaced = xs.map Stmt.unplaced := by
  rw [← xs.append_nil] at same wf
  obtain ⟨ys, zs, t, u, split, reported, kept, rest, there, -, silent⟩ :=
    ofText_rereads same wf (by simpa using parted) shallow
  have spent : t.isFinished = true := (State.isFinished_iff t).2 there.ended
  obtain ⟨rfl, rfl⟩ := rest.unique (.finished spent)
  exact ⟨by rw [reported, silent, List.reverse_nil], by rw [split, List.append_nil, kept]⟩

theorem parted_of_reread (same : source.toList = Stmt.text xs) (wf : ∀ x ∈ xs, x.WellFormed)
    (silent : (ofText source).diagnostics = [])
    (kept : (ofText source).program.statements.map Stmt.unplaced = xs.map Stmt.unplaced) :
    xs.IsChain Stmt.Parts := by
  by_contra glued
  obtain ⟨front, x, y, back, rfl, parted, glue⟩ := exists_first_break glued
  have glue : x.runsInto y = true := by simpa [Stmt.Parts] using glue
  have shallow : ∀ x ∈ front, x.value.levels ≤ Parse.maxDepth := by
    intro z member
    by_contra deep
    obtain ⟨d, first, -⟩ := first_too_deep same wf parted ⟨z, member, by omega⟩
    rw [silent] at first
    exact nomatch first
  obtain ⟨ys, zs, t, u, split, reported, others, rest, there, -, -⟩ := ofText_rereads same wf parted shallow
  have quiet : u.diagnostics = [] := by
    rw [silent] at reported
    exact List.reverse_eq_nil_iff.1 reported.symm
  rw [split, List.map_append, List.map_append, others] at kept
  have next := List.append_cancel_left kept
  cases rest with
  | finished => simp at next
  | parsed more stmt rest =>
    obtain ⟨agree, -⟩ := List.cons.inj next
    exact stmt.ne_of_runsInto (wf x (by simp)) (wf y (by simp)) glue there agree
  | failed more stmt rest =>
    obtain ⟨new, added⟩ := rest.appends
    rw [quiet] at added
    simp [State.record] at added

/-- The canonical text of an expression is read back as that expression, or it nests too deep. -/
theorem ofText_render_expr {e : Expr} (wf : e.WellFormed) :
    (e.levels ≤ Parse.maxDepth → (ofText e.render).diagnostics = [] ∧
      ∃ token e', (ofText e.render).program.statements = [.expr token e'] ∧ e'.unplaced = e.unplaced) ∧
    (Parse.maxDepth < e.levels → ∃ d, (ofText e.render).diagnostics.head? = some d ∧
      d.fault = .nestingTooDeep Parse.maxDepth) := by
  have same : e.render.toList = Stmt.text ([.expr default e] ++ []) := by simp [Stmt.text, Stmt.render]
  have shape : ∀ x ∈ [Stmt.expr default e], x.WellFormed := List.forall_mem_singleton.2 (.expr wf)
  refine ⟨fun shallow => ?_, fun deep => ?_⟩
  · obtain ⟨silent, kept⟩ := silent_of_parted same shape (.singleton _) (List.forall_mem_singleton.2 shallow)
    obtain ⟨x, single, agree⟩ := List.map_eq_singleton_iff.1 kept
    obtain ⟨token, e', rfl, restored⟩ := Stmt.expr_of_unplaced agree
    exact ⟨silent, token, e', single, restored⟩
  · exact first_too_deep same shape (.singleton _) ⟨_, List.mem_singleton_self _, deep⟩

theorem ofText_render_expr_sum :
    Expr.WellFormed (.binary ⟨.plus, "+", .null⟩ "+" (.ident ⟨.ident, "a", .null⟩ "a")
      (.unary ⟨.minus, "-", .null⟩ "-" (.int ⟨.int, "1", .null⟩ 1))) ∧
    (ofText "(a + (-1))").diagnostics = [] := by
  have wf : Expr.WellFormed (.binary ⟨.plus, "+", .null⟩ "+" (.ident ⟨.ident, "a", .null⟩ "a")
      (.unary ⟨.minus, "-", .null⟩ "-" (.int ⟨.int, "1", .null⟩ 1))) :=
    .binary rfl rfl (.ident ⟨rfl, by decide, List.all_eq_true.1 rfl, by decide⟩)
      (.unary (.inr rfl) rfl (.int ⟨rfl, by decide, List.all_eq_true.1 rfl, by decide⟩))
  exact ⟨wf, ((ofText_render_expr wf).1 (by decide)).1⟩

/-- A program of which every expression can be read back keeps its statements exactly if no
statement runs into the next one. -/
theorem ofText_render_iff {p : Program} (wf : ∀ x ∈ p.statements, x.WellFormed)
    (shallow : ∀ x ∈ p.statements, x.value.levels ≤ Parse.maxDepth) :
    ((ofText p.render).diagnostics = [] ∧
      (ofText p.render).program.statements.map Stmt.unplaced = p.statements.map Stmt.unplaced) ↔ p.Parted := by
  constructor
  · rintro ⟨silent, kept⟩
    exact parted_of_reread p.toList_render wf silent kept
  · intro parted
    exact silent_of_parted p.toList_render wf parted shallow

theorem ofText_render_iff_names :
    let p := (ofText "let x = -1; x; 2; return !x; y").program
    (∀ x ∈ p.statements, x.WellFormed) ∧ (∀ x ∈ p.statements, x.value.levels ≤ Parse.maxDepth) ∧
      (((ofText p.render).diagnostics = [] ∧
        (ofText p.render).program.statements.map Stmt.unplaced = p.statements.map Stmt.unplaced) ↔ p.Parted) := by
  have shallow : ∀ x ∈ (ofText "let x = -1; x; 2; return !x; y").program.statements,
      x.value.levels ≤ Parse.maxDepth := by decide +kernel
  exact ⟨ofText_wellFormed _, shallow, ofText_render_iff (ofText_wellFormed _) shallow⟩

/-- What was read is read again from its canonical text, as many statements with the same text, exactly
if every expression can be read back and no statement runs into the next one. -/
theorem ofText_render_ofText_iff (source : String) :
    ((ofText (ofText source).program.render).diagnostics = [] ∧
      (ofText (ofText source).program.render).program.size = (ofText source).program.size ∧
      (ofText (ofText source).program.render).program.render = (ofText source).program.render) ↔
    (∀ x ∈ (ofText source).program.statements, x.value.levels ≤ Parse.maxDepth) ∧
      (ofText source).program.Parted := by
  have wf := ofText_wellFormed source
  generalize (ofText source).program = p at wf ⊢
  have wf' := ofText_wellFormed p.render
  constructor
  · rintro ⟨silent, size, same⟩
    have text : p.render.toList = Stmt.text (ofText p.render).program.statements := by
      rw [← toList_render, same]
    -- What was read now parts its statements, so no way to cut the text has fewer of them.
    have parted : p.Parted := by
      have fewest := parted_of_reread text wf' silent rfl
      exact (Stmt.length_le_of_parts wf wf' (p.toList_render.symm.trans text) fewest).2 (Nat.le_of_eq size.symm)
    refine ⟨fun x member => ?_, parted⟩
    by_contra deep
    have whole : p.render.toList = Stmt.text (p.statements ++ []) := by rw [List.append_nil, toList_render]
    have chain : (p.statements ++ List.take 1 []).IsChain Stmt.Parts := by rwa [List.take_nil, List.append_nil]
    obtain ⟨d, first, -⟩ := first_too_deep whole (by simpa using wf) chain ⟨x, member, Nat.lt_of_not_le deep⟩
    rw [silent] at first
    exact nomatch first
  · rintro ⟨shallow, parted⟩
    obtain ⟨silent, kept⟩ := silent_of_parted p.toList_render wf parted shallow
    refine ⟨silent, ?_, ?_⟩
    · have count := congrArg List.length kept
      rwa [List.length_map, List.length_map] at count
    · have texts := congrArg (List.map Stmt.render) kept
      have restored : Stmt.render ∘ Stmt.unplaced = Stmt.render := funext Stmt.render_unplaced
      rw [List.map_map, List.map_map, restored] at texts
      exact congrArg String.join texts

/-- Two names in sequence are one name in the canonical text. -/
theorem ofText_render_ofText_names :
    ¬ ∀ source, (ofText source).diagnostics = [] →
      (ofText (ofText source).program.render).diagnostics = [] ∧
        (ofText (ofText source).program.render).program.size = (ofText source).program.size ∧
        (ofText (ofText source).program.render).program.render = (ofText source).program.render := by
  intro all
  have sizes := (all "a; b" (by decide +kernel)).2.1
  exact absurd sizes (by decide +kernel)

end Program

end LetLang
