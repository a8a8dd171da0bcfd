import LetLang.Proofs.Expr.Core
import LetLang.Proofs.Program.Attempts
import LetLang.Proofs.Program.Hull

/-!
# Slices of a source

The text that the span of an expression cuts out of its source is read on its own. It gives the
expression back, unless the span cuts through parentheses (`ofText_slice`).
-/

namespace LetLang

open Parse (State fault?)
open Token (Balanced Window)

namespace Token

variable {ts us : List Token} {g : Span → Span}

theorem Balanced.append (first : Balanced ts) (second : Balanced us) : Balanced (ts ++ us) := by
  rw [Balanced, List.foldlM_append, first]
  exact second

theorem balanced_map (g : Span → Span) (ts : List Token) : Balanced (ts.map (mapSpan g)) ↔ Balanced ts := by
  rw [Balanced, List.foldlM_map]
  rfl

theorem Balanced.cons {t : Token} (h : t.kind.isParen = false) (rest : Balanced ts) : Balanced (t :: ts) := by
  rw [Balanced, List.foldlM_cons, nest_of_not_isParen h]
  exact rest

end Token

namespace Stmt

variable {x : Stmt} {ts : List Token} {source : String} {i : Nat} {s t u : State} {e : Expr}

theorem Body.balanced (h : Body x ts) : Balanced ts := by
  cases h with
  | binding keyword ident equals value =>
    exact .cons (by rw [keyword]; rfl) (.cons (by rw [ident]; rfl) (.cons (by rw [equals]; rfl) value.balanced))
  | ret keyword value => exact .cons (by rw [keyword]; rfl) value.balanced
  | expr value => exact value.balanced

theorem Fills.balanced (h : Fills x ts) : Balanced ts := by
  cases h with
  | bare body => exact body.balanced
  | ended body semicolon => exact body.balanced.append (.cons (by rw [semicolon]; rfl) rfl)

theorem Value.derives {r : Expr.Outcome} (h : Value s r) (ok : r = .ok e u) (standing : s.window.At source i) :
    ∃ root ts n, ts <:+: Token.body source ∧ Expr.Derives root ts e n ∧ n ≤ Parse.maxDepth := by
  have sound : ∀ {e v}, Expr.Run (.whole .lowest) s (.ok e v) →
      ∃ root ts n, ts <:+: Token.body source ∧ Expr.Derives root ts e n ∧ n ≤ Parse.maxDepth := by
    intro e v run
    obtain ⟨ts, n, moved, ⟨root, -, derived⟩, bound, -⟩ := run.sound standing.numeric
    obtain ⟨-, taken, -⟩ := standing.passes moved.passes
    refine ⟨root, ts, n, ?_, derived, by omega⟩
    rw [← taken]
    exact (List.take_prefix ..).isInfix.trans (List.drop_suffix ..).isInfix
  cases h with
  | ended run | bare run =>
    obtain ⟨rfl, -⟩ := EStateM.Result.ok.inj ok
    exact sound run
  | fails => exact nomatch ok

theorem Run.derives (h : Run s (.ok x t)) (standing : s.window.At source i) (inside : s.current.kind ≠ .eof) :
    ∃ root ts n, ts <:+: Token.body source ∧ Expr.Derives root ts x.value n ∧ n ≤ Parse.maxDepth := by
  cases h with
  | done lead value =>
    obtain ⟨_, passed⟩ := lead.passes inside
    rw [lead.value_eq]
    exact value.derives rfl (standing.passes passed).1

end Stmt

namespace Program

variable {source : String} {i : Nat} {s u : State} {xs : List Stmt} {states : List State} {cuts : List Nat}
  {root : Option Power} {ts : List Token} {e : Expr} {n : Nat}

theorem Blocks.balanced (h : Blocks source i states cuts) (silent : states.filterMap (fault? <| Stmt.parse ·) = []) :
    Balanced ((Token.body source).drop i) := by
  induction h with
  | nil => simp [Token.Balanced]
  | @cons i j s states cuts stands forward takes rest ih =>
    rw [List.filterMap_cons] at silent
    cases result : Stmt.parse s with
    | error d t => simp [result, fault?] at silent
    | ok x t =>
      rw [result] at takes silent
      rw [body_drop (Nat.le_of_lt forward)]
      exact takes.2.balanced.append (ih silent)

theorem balanced_of_silent (silent : (ofText source).diagnostics = []) : Balanced (Token.body source) := by
  obtain ⟨cuts, blocks⟩ := blocks_callsOf source
  rw [(ofText_eq source).2] at silent
  exact blocks.balanced silent

theorem Run.derives (h : Run s xs u) (standing : s.window.At source i) {x : Stmt} (member : x ∈ xs) :
    ∃ root ts n, ts <:+: Token.body source ∧ Expr.Derives root ts x.value n ∧ n ≤ Parse.maxDepth := by
  induction h generalizing i with
  | finished => simp at member
  | parsed more stmt rest ih =>
    have inside := ne_eof_of_isFinished more
    obtain ⟨ts, moved⟩ := stmt.passes inside
    rcases List.mem_cons.1 member with rfl | later
    · exact stmt.derives standing inside
    · exact ih ((standing.passes moved).1.iterate 1) later
  | failed more stmt rest ih =>
    obtain ⟨ts, moved⟩ := stmt.passes (ne_eof_of_isFinished more)
    exact ih ((standing.passes moved).1.iterate 1) member

/-- A source whose tokens are a form of an expression is one statement with it. -/
theorem ofText_of_derives (derived : Expr.Derives root (Token.body source) e n) (bound : n ≤ Parse.maxDepth) :
    (ofText source).diagnostics = [] ∧ ∃ t, (ofText source).program.statements = [.expr t e] := by
  have pos := List.length_pos_iff.2 derived.ne_nil
  have last : (Token.nth source (Token.body source).length).kind = .eof :=
    (Token.nth_eof_iff source _).2 (Nat.le_refl _)
  -- The whole body is the longest form at the first token: only the end token follows.
  have spelled : Expr.SpelledAt source .lowest n 0 ((Token.body source).length - 1) e := by
    refine ⟨Nat.zero_le _, by omega, ⟨n, Nat.le_refl n, root, derived.above_lowest, ?_⟩, ?_⟩
    · rwa [List.drop_zero, Nat.sub_zero, Nat.sub_add_cancel pos, List.take_length]
    · rw [Nat.sub_add_cancel pos, last]
      decide
  have opens : (Token.nth source 0).kind.opening? ≠ none := by
    refine derived.opening _ ?_
    rw [List.head?_eq_getElem?]
    exact Token.getElem?_body source 0 pos
  have plain : (Token.nth source 0).kind.form? = none := by
    revert opens
    cases (Token.nth source 0).kind <;> simp [Token.Kind.form?, Token.Kind.opening?]
  have next : behind source ((Token.body source).length - 1) = (Token.body source).length := by
    rw [behind, Nat.sub_add_cancel pos, last]
    rfl
  have rest : Yields source (Token.body source).length [] [] := yields_nil (Nat.le_refl _)
  rw [← next] at rest
  obtain ⟨statements, silent⟩ := ofText_of_yields (.expr plain pos (Expr.answers_of_spelled spelled) bound rest)
  exact ⟨silent, _, statements⟩

/-- The slice at the span of an expression has the tokens of its core. -/
theorem exists_slice {x : Stmt} (member : x ∈ (ofText source).program.statements) (part : e ∈ x.value.nodes) :
    ∃ text, Text.slice? e.span.start e.span.stop source.toList = some text ∧
      (Balanced (Token.body (String.ofList text)) → ∃ root e' n, n ≤ Parse.maxDepth ∧
        Expr.Derives root (Token.body (String.ofList text)) e' n ∧ e'.mapSpan (Span.shift e.span.start) = e) := by
  obtain ⟨u, run, -⟩ := run_ofText source
  obtain ⟨root, ts, n, inside, derived, bound⟩ := run.derives (Window.at_ofText source) member
  obtain ⟨root, us, k, within, form, less⟩ := derived.part part
  obtain ⟨opens, core, closes, rfl, shape, derives⟩ := form.exists_core
  obtain ⟨front, back, whole⟩ := within.trans inside
  obtain ⟨first, head, start⟩ := e.exists_first
  obtain ⟨last, tail, stop⟩ := e.exists_last
  have split : Token.body source = front ++ opens ++ core ++ (closes ++ back) := by
    rw [← whole]
    simp only [List.append_assoc]
  obtain ⟨before, text, after, cut, place, finish, same⟩ :=
    Token.exists_piece split (shape.head.trans head) (shape.last.trans tail)
  rw [start] at place same
  rw [stop, Text.byteLength_append] at finish
  refine ⟨text, ?_, fun balanced => ?_⟩
  · have slice := Text.slice?_append before text after
    rwa [finish, place, ← cut] at slice
  · rw [← Token.balanced_map, same] at balanced
    obtain ⟨root', n', fewer, core⟩ := derives balanced
    rw [← same] at core
    obtain ⟨e', form', moved⟩ := core.of_map
    exact ⟨root', e', n', by omega, form', moved⟩

/-- The source at the span of an expression, read on its own, gives that expression and nothing else, if
the parentheses in it have their partners there. If not, it has a fault. -/
theorem ofText_slice {x : Stmt} (member : x ∈ (ofText source).program.statements) (part : e ∈ x.value.nodes) :
    ∃ text, Text.slice? e.span.start e.span.stop source.toList = some text ∧
      (Balanced (Token.body (String.ofList text)) → (ofText (String.ofList text)).diagnostics = [] ∧
        ∃ t e', (ofText (String.ofList text)).program.statements = [.expr t e'] ∧
          e'.mapSpan (Span.shift e.span.start) = e) ∧
      (¬ Balanced (Token.body (String.ofList text)) → (ofText (String.ofList text)).diagnostics ≠ []) := by
  obtain ⟨text, slice, derives⟩ := exists_slice member part
  refine ⟨text, slice, fun balanced => ?_, mt balanced_of_silent⟩
  obtain ⟨root, e', n, bound, form, moved⟩ := derives balanced
  obtain ⟨silent, t, statements⟩ := ofText_of_derives form bound
  exact ⟨silent, t, e', statements, moved⟩

/-- The right operand of a product, from between its parentheses. -/
theorem ofText_slice_operand :
    Text.slice? 7 13 "(a) * (b + -c)".toList = some "b + -c".toList ∧ Balanced (Token.body "b + -c") ∧
      ∃ x ∈ (ofText "(a) * (b + -c)").program.statements, ∃ e ∈ x.value.nodes, e.span = ⟨7, 13⟩ ∧
        (ofText "b + -c").diagnostics = [] ∧ ∃ t e', (ofText "b + -c").program.statements = [.expr t e'] ∧
          e'.mapSpan (Span.shift 7) = e := by
  have cut : Text.slice? 7 13 "(a) * (b + -c)".toList = some "b + -c".toList := by decide
  have balanced : Balanced (Token.body "b + -c") := by decide +kernel
  obtain ⟨x, member, e, part, place⟩ : ∃ x ∈ (ofText "(a) * (b + -c)").program.statements,
      ∃ e ∈ x.value.nodes, e.span = ⟨7, 13⟩ := by decide +kernel
  obtain ⟨text, slice, alone, -⟩ := ofText_slice member part
  rw [place] at slice alone
  obtain rfl := Option.some.inj (cut.symm.trans slice)
  rw [String.ofList_toList] at alone
  exact ⟨cut, balanced, x, member, e, part, place, alone balanced⟩

/-- A group in front of an operator leaves its closing parenthesis in the slice of the whole. -/
theorem slice_of_group :
    (ofText "(a) + b").diagnostics = [] ∧
      (ofText "(a) + b").program.statements.map (fun x => (x.value.render, x.value.span)) = [("(a + b)", ⟨1, 7⟩)] ∧
      Text.slice? 1 7 "(a) + b".toList = some "a) + b".toList ∧ (ofText "a) + b").diagnostics ≠ [] := by
  decide +kernel

end Program

end LetLang
