import LetLang.Proofs.Expr.Depth
import LetLang.Proofs.Program.Spelling

/-!
# Reading canonical text

Statements are read back from their canonical text one by one (`Run.rereads`), up to the first one
that nests too deep (`WellFormed.reads`) or runs into the next one (`Run.ne_of_runsInto`).
-/

namespace LetLang

open Parse (State)
open Token (Kind Lexes Lexeme Window)

/-! ### The token behind a statement -/

/-- A token of this kind neither goes on with the statement in front of it nor ends it. -/
def Token.Kind.Apart (k : Kind) : Prop := k.isOperator = false ∧ k ≠ .semicolon

/-- The canonical text of a statement starts with such a character. -/
def Text.Opens (c : Char) : Prop := Lexeme.isLetter c = true ∨ c.isDigit = true ∨ c = '('

variable {c : Char} {cs : List Char} {k : Kind} {s t : State} {w u v : Window} {ts : List Token}

theorem Token.Kind.Apart.power_le (h : k.Apart) : k.power ≤ .lowest := by
  rw [← Power.not_lt, ← k.isOperator_iff, h.1]
  decide

/-- Where a value ends and its statement may end too, with or without a semicolon. -/
def Token.Window.Closes (u v : Window) : Prop :=
  v.current.kind.Apart ∧ (v = u ∨ u.current.kind = .semicolon ∧ v = u.advance)

theorem Token.Window.Closes.power_le (h : u.Closes v) : u.current.kind.power ≤ .lowest := by
  obtain ⟨apart, rfl | ⟨closed, -⟩⟩ := h
  · exact apart.power_le
  · rw [closed]
    decide

theorem Text.Opens.not_gap (h : Text.Opens c) : Text.isGap c = false := by
  rcases h with letter | digit | rfl
  · exact Lexeme.not_gap_of_isLetter letter
  · exact Lexeme.not_gap_of_isDigit digit
  · rfl

theorem Text.Opens.apart (h : Text.Opens c) (shape : Lexeme k (c :: cs)) : k.Apart := by
  cases shape with
  | word =>
    have all : ∀ k ∈ Kind.ident :: Kind.keywords.map Prod.snd, k.isOperator = false ∧ k ≠ .semicolon := by decide
    exact all _ (Kind.ofWord_mem _)
  | number => exact ⟨rfl, nofun⟩
  | equal | notEqual => rcases h with h | h | h <;> contradiction
  | symbol solid letter digit =>
    rcases h with h | h | rfl
    · exact absurd h (by simp [letter])
    · exact absurd h (by simp [digit])
    · exact ⟨rfl, nofun⟩

theorem Expr.Opens.opens {e : Expr} (h : e.Opens c) : Text.Opens c := by
  cases e with
  | ident | bool => exact .inl h
  | int => exact .inr (.inl h)
  | unary | binary => exact .inr (.inr h)

theorem Stmt.Opens.opens {x : Stmt} (h : x.Opens c) : Text.Opens c := by
  cases x with
  | binding | ret =>
    rw [show c = _ from h]
    exact .inl rfl
  | expr => exact Expr.Opens.opens h

theorem Stmt.WellFormed.shows {x : Stmt} {rest : List Char} (h : x.WellFormed)
    (here : w.Before (x.render.toList ++ rest)) : ∃ c cs, x.Opens c ∧ Lexeme w.current.kind (c :: cs) := by
  obtain ⟨c, cs, same, opens⟩ := h.opens
  rw [same] at here
  obtain ⟨front, back, split, shape, -⟩ := here.cut (by simp) (by rintro _ ⟨⟩; exact opens.opens.not_gap)
  obtain ⟨d, front, rfl⟩ := List.exists_cons_of_ne_nil shape.ne_nil
  obtain ⟨rfl, -⟩ := List.cons.inj split
  exact ⟨c, front, opens, shape⟩

theorem Stmt.apart_of_before {ys : List Stmt} (here : w.Before (text ys)) (wf : ∀ y ∈ ys, y.WellFormed) :
    w.current.kind.Apart := by
  cases ys with
  | nil =>
    rw [here.ended]
    exact ⟨rfl, nofun⟩
  | cons y ys =>
    obtain ⟨c, cs, opens, shape⟩ := (wf y List.mem_cons_self).shows here
    exact opens.opens.apart shape

/-! ### One statement -/

namespace Stmt

variable {x : Stmt} {e : Expr} {us : List Token}

/-- The way from the first token of a statement to its value, and from there to its end. -/
theorem WellFormed.lead (h : x.WellFormed) (moved : s.window.Passes ts v)
    (spelled : ts.map Token.lexeme = x.lexemes) (apart : v.current.kind.Apart) :
    ∃ t make us u, Lead s t make ∧ t.window.Passes us u ∧ us.map Token.lexeme = x.value.lexemes ∧ u.Closes v ∧
      ∀ e, e.unplaced = x.value.unplaced → (make e).unplaced = x.unplaced := by
  cases h with
  | @expr k e value =>
    have form : s.current.kind.form?.getD .expr = .expr := by
      obtain ⟨l, ls, same, form⟩ := (WellFormed.expr (t := k) value).head_lexeme
      obtain ⟨t, ts, rfl, rfl, -⟩ := List.map_eq_cons_iff.1 (spelled.trans same)
      obtain ⟨rfl, -⟩ := moved
      exact form
    exact ⟨_, _, ts, v, .expr form, moved, spelled, ⟨apart, .inl rfl⟩,
      fun e same => congrArg (Stmt.expr default) same⟩
  | @ret k e keyword value =>
    obtain ⟨front, back, rfl, first, last⟩ := List.map_eq_append_iff.1 spelled
    obtain ⟨r, us, rfl, opened, inner⟩ := List.map_eq_cons_iff.1 first
    obtain ⟨z, rfl, closed⟩ := List.map_eq_singleton_iff.1 last
    obtain ⟨kind, text⟩ := Prod.mk.inj (opened.trans keyword)
    obtain ⟨shown, inside, further⟩ := moved
    obtain ⟨u, passed, rfl, -, rfl⟩ := Window.passes_append.1 further
    have form : s.current.kind.form? = some .ret := by
      rw [State.current, shown, kind]
      rfl
    refine ⟨_, _, us, u, .ret form, passed, inner, ⟨apart, .inr ⟨(Prod.mk.inj closed).1, rfl⟩⟩,
      fun e same => ?_⟩
    have token := Token.mapSpan_null_eq ((congrArg Token.lexeme shown).trans opened)
    simp only [unplaced, mapSpan, Expr.unplaced, State.current] at same ⊢
    rw [token, same]
    rfl
  | @binding k n e keyword name value =>
    obtain ⟨front, back, rfl, first, last⟩ := List.map_eq_append_iff.1 spelled
    obtain ⟨l, front, rfl, opened, first⟩ := List.map_eq_cons_iff.1 first
    obtain ⟨m, front, rfl, named, first⟩ := List.map_eq_cons_iff.1 first
    obtain ⟨q, us, rfl, signed, inner⟩ := List.map_eq_cons_iff.1 first
    obtain ⟨z, rfl, closed⟩ := List.map_eq_singleton_iff.1 last
    obtain ⟨kind, text⟩ := Prod.mk.inj (opened.trans keyword)
    obtain ⟨shown, -, shown', -, shown'', -, further⟩ := moved
    obtain ⟨u, passed, rfl, -, rfl⟩ := Window.passes_append.1 further
    have form : s.current.kind.form? = some .binding := by
      rw [State.current, shown, kind]
      rfl
    have ident : s.ahead.kind = .ident :=
      (congrArg Token.kind shown').trans ((Prod.mk.inj named).1.trans name.kind)
    have sign : s.advance.ahead.kind = .assign := (congrArg Token.kind shown'').trans (Prod.mk.inj signed).1
    have landed : (s.note (.statement s.current)).advance.advance.advance.window.Passes us u := by
      simp only [State.window_advance]
      exact passed
    refine ⟨_, _, us, u, .binding form ident sign, landed, inner, ⟨apart, .inr ⟨(Prod.mk.inj closed).1, rfl⟩⟩,
      fun e same => ?_⟩
    have token := Token.mapSpan_null_eq ((congrArg Token.lexeme shown).trans opened)
    have token' := Token.mapSpan_null_eq ((congrArg Token.lexeme shown').trans named)
    have text' : s.ahead.text = n.text := (congrArg Token.text shown').trans (Prod.mk.inj named).2
    simp only [unplaced, mapSpan, Expr.unplaced, State.current] at same ⊢
    rw [token, same, text', ← token']
    rfl

theorem Value.reads (value : e.WellFormed) (numeric : s.window.Numeric) (moved : s.window.Passes us u)
    (spelled : us.map Token.lexeme = e.lexemes) (closes : u.Closes v)
    (shallow : e.levels + s.depth ≤ Parse.maxDepth) :
    ∃ e' t, Value s (.ok e' t) ∧ e'.unplaced = e.unplaced ∧ t.window.advance = v := by
  obtain ⟨e', derived, same⟩ := value.derives spelled
  obtain ⟨w, reads, rfl⟩ := moved.exists_reads derived.ne_nil
  have spells : Expr.Spells .lowest us e' e.levels := ⟨none, by simp, derived⟩
  obtain ⟨t, result, rfl⟩ := (Expr.parse_ok_iff numeric).2 ⟨us, _, reads, spells, shallow, closes.power_le⟩
  have run := Expr.run_iff.2 result
  obtain ⟨apart, rfl | ⟨closed, rfl⟩⟩ := closes
  · exact ⟨e', t, .bare run apart.2, same, rfl⟩
  · exact ⟨e', t.advance, .ended run closed, same, rfl⟩

theorem Value.tooDeep (value : e.WellFormed) (numeric : s.window.Numeric) (moved : s.window.Passes us u)
    (spelled : us.map Token.lexeme = e.lexemes) (closes : u.Closes v)
    (deep : Parse.maxDepth < e.levels + s.depth) :
    ∃ d t, Value s (.error d t) ∧ d.fault = .nestingTooDeep Parse.maxDepth := by
  obtain ⟨e', derived, -⟩ := value.derives spelled
  obtain ⟨w, reads, rfl⟩ := moved.exists_reads derived.ne_nil
  have spells : Expr.Spells .lowest us e' e.levels := ⟨none, by simp, derived⟩
  obtain ⟨d, t, run, fault⟩ := spells.tooDeep numeric reads deep closes.power_le
  exact ⟨d, t, .fails run, fault⟩

variable {rest : List Char} {ys : List Stmt}

/-- A statement in front of a text is read or refused for its depth, if its own text ends there. -/
theorem WellFormed.reads (h : x.WellFormed) (wf : ∀ y ∈ ys, y.WellFormed)
    (here : s.window.Before (x.render.toList ++ text ys))
    (clear : ∀ c ∈ (text ys).head?, x.edge.absorbs c = false) :
    s.isFinished = false ∧
      (x.value.levels + s.depth ≤ Parse.maxDepth → ∃ y t, Run s (.ok y t) ∧ y.unplaced = x.unplaced ∧
        t.window.advance.Before (text ys)) ∧
      (Parse.maxDepth < x.value.levels + s.depth → ∃ d t, Run s (.error d t) ∧
        d.fault = .nestingTooDeep Parse.maxDepth) := by
  obtain ⟨v, ts, moved, spelled, there⟩ := h.lexes clear s.window here
  obtain ⟨t, make, us, u, lead, onto, value, closes, made⟩ := h.lead moved spelled (apart_of_before there wf)
  obtain ⟨_, _, _, shape⟩ := h.shows here
  have inside : s.current.kind ≠ .eof := shape.kind_ne_eof
  have wfv : x.value.WellFormed := by cases h <;> assumption
  obtain ⟨front, before⟩ := lead.passes inside
  have numeric := here.numeric.passes before
  rw [← lead.keeps.1]
  refine ⟨beq_eq_false_iff_ne.2 inside, fun shallow => ?_, fun deep => ?_⟩
  · obtain ⟨e, r, read, same, last⟩ := Value.reads wfv numeric onto value closes shallow
    exact ⟨_, r, .done lead read, made e same, last ▸ there⟩
  · obtain ⟨d, r, read, fault⟩ := Value.tooDeep wfv numeric onto value closes deep
    exact ⟨d, r, .fails lead read, fault⟩

end Stmt

/-! ### Statements in sequence -/

namespace Program

variable {u : State} {x : Stmt} {xs front back : List Stmt} {d : Diagnostic}

theorem Run.of_parsed (h : Run s xs u) (more : s.isFinished = false) (stmt : Stmt.Run s (.ok x t)) :
    ∃ ys, xs = x :: ys ∧ Run t.advance ys u := by
  cases h with
  | finished last => exact absurd last (by rw [more]; decide)
  | parsed _ stmt' rest =>
    obtain ⟨rfl, rfl⟩ := EStateM.Result.ok.inj (stmt.parse_eq.symm.trans stmt'.parse_eq)
    exact ⟨_, rfl, rest⟩
  | failed _ stmt' => exact nomatch stmt.parse_eq.symm.trans stmt'.parse_eq

theorem Run.of_failed (h : Run s xs u) (more : s.isFinished = false) (stmt : Stmt.Run s (.error d t)) :
    Run (t.record d).advance xs u := by
  cases h with
  | finished last => exact absurd last (by rw [more]; decide)
  | parsed _ stmt' => exact nomatch stmt.parse_eq.symm.trans stmt'.parse_eq
  | failed _ stmt' rest =>
    obtain ⟨rfl, rfl⟩ := EStateM.Result.error.inj (stmt.parse_eq.symm.trans stmt'.parse_eq)
    exact rest

theorem Run.rereads (h : Run s xs u) (here : s.window.Before (Stmt.text (front ++ back)))
    (wf : ∀ x ∈ front ++ back, x.WellFormed)
    (parted : (front ++ back.take 1).IsChain Stmt.Parts)
    (shallow : ∀ x ∈ front, x.value.levels + s.depth ≤ Parse.maxDepth) :
    ∃ ys zs t, xs = ys ++ zs ∧ ys.map Stmt.unplaced = front.map Stmt.unplaced ∧ Run t zs u ∧
      t.window.Before (Stmt.text back) ∧ t.depth = s.depth ∧ t.diagnostics = s.diagnostics := by
  induction front generalizing s xs with
  | nil => exact ⟨[], xs, s, rfl, rfl, h, here, rfl, rfl⟩
  | cons x front ih =>
    have hx := wf x List.mem_cons_self
    have later : ∀ y ∈ front ++ back, y.WellFormed := fun y member => wf y (List.mem_cons_of_mem _ member)
    obtain ⟨first, parted⟩ := Stmt.parted_cons parted
    obtain ⟨more, reads, -⟩ := hx.reads later here (Stmt.absorbs_text hx later first)
    obtain ⟨y, t, stmt, same, there⟩ := reads (shallow x List.mem_cons_self)
    obtain ⟨xs, rfl, rest⟩ := h.of_parsed more stmt
    have kept : t.depth = s.depth ∧ t.diagnostics = s.diagnostics := stmt.keeps
    obtain ⟨ys, zs, t', rfl, others, rest, last, depth, silent⟩ := ih rest there later parted
      (fun x member => by rw [State.depth_advance, kept.1]; exact shallow x (List.mem_cons_of_mem _ member))
    exact ⟨y :: ys, zs, t', rfl, by rw [List.map_cons, List.map_cons, same, others], rest, last,
      depth.trans kept.1, silent.trans kept.2⟩

/-! ### Where a statement runs into the next one -/

end Program

/-- A name, a truth value or a number without parentheses is the current token. -/
theorem Expr.Run.token_eq {p : Power} {e : Expr} (h : Run (.whole p) s (.ok e t)) (numeric : s.window.Numeric)
    (leaf : e.isWord = true ∨ e.isNumber = true) (bare : s.current.kind ≠ .openParen) : e.token = s.current := by
  obtain ⟨ts, n, moved, ⟨root, -, derived⟩, -, -⟩ := h.sound numeric
  cases derived with
  | ident | int | bool =>
    obtain ⟨-, same⟩ := Window.reads_singleton moved
    exact same.symm
  | unary | binary => rcases leaf with leaf | leaf <;> contradiction
  | group opened closed tighter inner =>
    obtain ⟨same, -⟩ := Window.reads_cons moved (by simp)
    exact absurd ((congrArg Token.kind same).trans opened) bare

namespace Stmt

variable {x y z : Stmt} {ys : List Stmt}

theorem WellFormed.runs_on (hx : x.WellFormed) (hy : y.WellFormed) (glue : x.runsInto y = true)
    (here : w.Before (x.render.toList ++ (y.render.toList ++ cs))) :
    w.current.kind ≠ .openParen ∧ w.current.text ≠ x.render := by
  obtain ⟨c, tail, same, opens⟩ := hy.opens
  rw [same, List.cons_append] at here
  simp only [runsInto, Bool.or_eq_true, Bool.and_eq_true] at glue
  rcases glue with ⟨word, next⟩ | ⟨number, next⟩
  · exact here.word (hx.letters word) (opens.isLetter_eq.trans next)
  · exact here.number (hx.digits number) (opens.isDigit_eq.trans next)

/-- A statement that runs into the next one is not read: the token there is longer. -/
theorem Run.ne_of_runsInto (h : Run s (.ok z t)) (hx : x.WellFormed) (hy : y.WellFormed)
    (glue : x.runsInto y = true) (here : s.window.Before (x.render.toList ++ (y.render.toList ++ cs))) :
    z.unplaced ≠ x.unplaced := by
  intro same
  obtain ⟨bare, other⟩ := hx.runs_on hy glue here
  cases hx with
  | binding | ret => contradiction
  | @expr k v value =>
    simp only [runsInto, isWord, isNumber, Bool.or_eq_true, Bool.and_eq_true] at glue
    have leaf : v.isWord = true ∨ v.isNumber = true := glue.imp And.left And.left
    have literal := value.render_leaf leaf
    cases h with
    | @done _ _ e _ lead value =>
      cases lead with
      | binding | ret => exact Stmt.noConfusion same
      | expr form =>
        have agree : e.unplaced = v.unplaced := (Stmt.expr.inj same).2
        rw [← v.isWord_unplaced, ← v.isNumber_unplaced, ← agree, e.isWord_unplaced, e.isNumber_unplaced] at leaf
        have token : e.token = s.current := by
          cases value with
          | ended run | bare run => exact run.token_eq here.numeric leaf bare
        apply other
        show s.current.text = v.render
        rw [literal, ← token, ← v.literal_unplaced, ← agree, e.literal_unplaced]
        rfl

end Stmt

end LetLang
