import LetLang.Program.Parser
import LetLang.Proofs.Expr.Run

/-!
# Runs of the statement and program readers

`Stmt.Run` and `Program.Run` list what an attempt at a statement and a sequence of attempts can do.
`Program.run_ofText` shows that the reading of a source is such a sequence up to its end token.
-/

namespace LetLang

open Parse (State finalState)
open Token (Kind Window)

namespace Stmt

/-- From a statement's first token to its value: the state there and the statement still without
the value. -/
inductive Lead : State → State → (Expr → Stmt) → Prop where
  | binding {s} (form : s.current.kind.form? = some .binding) (name : s.ahead.kind = .ident)
      (sign : s.advance.ahead.kind = .assign) :
      Lead s (s.note (.statement s.current)).advance.advance.advance
        (.binding s.current ⟨s.ahead, s.ahead.text⟩)
  | ret {s} (form : s.current.kind.form? = some .ret) :
      Lead s (s.note (.statement s.current)).advance (.ret s.current)
  | expr {s} (form : s.current.kind.form?.getD .expr = .expr) :
      Lead s (s.note (.statement s.current)) (.expr s.current)

inductive Value : State → Expr.Outcome → Prop where
  | ended {s e t} (run : Expr.Run (.whole .lowest) s (.ok e t)) (kind : t.ahead.kind = .semicolon) :
      Value s (.ok e t.advance)
  | bare {s e t} (run : Expr.Run (.whole .lowest) s (.ok e t)) (kind : t.ahead.kind ≠ .semicolon) :
      Value s (.ok e t)
  | fails {s d t} (run : Expr.Run (.whole .lowest) s (.error d t)) : Value s (.error d t)

inductive Run : State → EStateM.Result Diagnostic State Stmt → Prop where
  | noName {s} (form : s.current.kind.form? = some .binding) (name : s.ahead.kind ≠ .ident) :
      Run s (.error ⟨.unexpectedToken .ident s.ahead.kind, s.ahead.span⟩
        (s.note (.statement s.current)))
  | noEquals {s} (form : s.current.kind.form? = some .binding) (name : s.ahead.kind = .ident)
      (sign : s.advance.ahead.kind ≠ .assign) :
      Run s (.error ⟨.unexpectedToken .assign s.advance.ahead.kind, s.advance.ahead.span⟩
        (s.note (.statement s.current)).advance)
  | done {s t make e u} (lead : Lead s t make) (value : Value t (.ok e u)) : Run s (.ok (make e) u)
  | fails {s t make d u} (lead : Lead s t make) (value : Value t (.error d u)) : Run s (.error d u)

theorem value_parseValue (s : State) : Value s (parseValue s) := by
  have run := Expr.run_parse .lowest s
  rw [parseValue_apply]
  cases result : Expr.parse .lowest s with
  | error d t => exact .fails (result ▸ run)
  | ok e t =>
    by_cases kind : t.ahead.kind = .semicolon
    · simp only [if_pos kind]
      exact .ended (result ▸ run) kind
    · simp only [if_neg kind]
      exact .bare (result ▸ run) kind

variable {s t u : State} {r : EStateM.Result Diagnostic State Stmt} {o : Expr.Outcome}
  {make : Expr → Stmt}

theorem Value.parseValue_eq (h : Value s o) : parseValue s = o := by
  rw [parseValue_apply]
  cases h with
  | ended run kind => simp only [Expr.run_iff.1 run, if_pos kind]
  | bare run kind => simp only [Expr.run_iff.1 run, if_neg kind]
  | fails run => rw [Expr.run_iff.1 run]

theorem Lead.parse_eq (h : Lead s t make) :
    parse s = match parseValue t with
      | .ok value u => .ok (make value) u
      | .error d u => .error d u := by
  rw [parse_apply]
  cases h with
  | binding form name sign =>
    rw [form]
    show parseBinding (s.note _) = _
    rw [parseBinding_apply]
    exact (if_pos name).trans (if_pos sign)
  | ret form =>
    rw [form]
    exact parseRet_apply _
  | expr form =>
    rw [form]
    exact parseExpr_apply _

theorem Run.parse_eq (h : Run s r) : parse s = r := by
  cases h with
  | noName form name =>
    rw [parse_apply, form]
    show parseBinding (s.note _) = _
    rw [parseBinding_apply]
    exact if_neg name
  | noEquals form name sign =>
    rw [parse_apply, form]
    show parseBinding (s.note _) = _
    rw [parseBinding_apply]
    exact (if_pos name).trans (if_neg sign)
  | done lead value => rw [lead.parse_eq, value.parseValue_eq]
  | fails lead value => rw [lead.parse_eq, value.parseValue_eq]

theorem Run.run_parse (h : Run s r) : Run s (parse s) := by
  rw [h.parse_eq]
  exact h

theorem Lead.run_parse (h : Lead s t make) : Run s (parse s) := by
  have value := value_parseValue t
  cases result : parseValue t with
  | ok e u => exact (Run.done h (result ▸ value)).run_parse
  | error d u => exact (Run.fails h (result ▸ value)).run_parse

theorem run_parse (s : State) : Run s (parse s) := by
  cases form : s.current.kind.form? with
  | none => exact (Lead.expr (by rw [form]; rfl)).run_parse
  | some f =>
    cases f with
    | expr => exact (Lead.expr (by rw [form]; rfl)).run_parse
    | ret => exact (Lead.ret form).run_parse
    | binding =>
      by_cases name : s.ahead.kind = .ident
      · by_cases sign : s.advance.ahead.kind = .assign
        · exact (Lead.binding form name sign).run_parse
        · exact (Run.noEquals form name sign).run_parse
      · exact (Run.noName form name).run_parse

theorem Lead.keeps (h : Lead s t make) : t.depth = s.depth ∧ t.diagnostics = s.diagnostics := by
  cases h <;> exact ⟨rfl, rfl⟩

theorem Lead.value_eq (h : Lead s t make) (e : Expr) : (make e).value = e := by
  cases h <;> rfl

theorem Value.keeps (h : Value s o) :
    (finalState o).depth = s.depth ∧ (finalState o).diagnostics = s.diagnostics := by
  cases h with
  | ended run | bare run | fails run => exact run.keeps

theorem Run.keeps (h : Run s r) :
    (finalState r).depth = s.depth ∧ (finalState r).diagnostics = s.diagnostics := by
  cases h with
  | noName | noEquals => exact ⟨rfl, rfl⟩
  | done lead value | fails lead value =>
    exact ⟨value.keeps.1.trans lead.keeps.1, value.keeps.2.trans lead.keeps.2⟩

/-- Recording the diagnostic of a failure adds that one alone. -/
theorem Run.recorded {d : Diagnostic} (h : Run s (.error d t)) :
    (t.record d).advance.diagnostics = d :: s.diagnostics := congrArg (d :: ·) h.keeps.2

theorem Lead.passes (h : Lead s t make) (inside : s.current.kind ≠ .eof) :
    ∃ ts, s.window.Passes ts t.window := by
  cases h with
  | expr => exact ⟨[], .refl _⟩
  | ret => exact ⟨_, .step inside⟩
  | binding form name sign =>
    have second : s.window.advance.current.kind ≠ .eof := by
      rw [Window.current_advance, ← State.ahead, name]
      decide
    have third : s.window.advance.advance.current.kind ≠ .eof := by
      change s.advance.ahead.kind ≠ .eof
      rw [sign]
      decide
    simp only [State.window_advance]
    exact ⟨_, ((Window.Passes.step inside).trans (.step second)).trans (.step third)⟩

theorem Value.passes (h : Value s o) : ∃ ts, s.window.Passes ts (finalState o).window := by
  cases h with
  | fails run => exact run.reached trivial
  | bare run =>
    obtain ⟨-, ts, -, -, moved⟩ := run.reached trivial
    exact ⟨ts, moved⟩
  | ended run =>
    obtain ⟨ts, moved⟩ := run.reached trivial
    exact ⟨ts, moved.passes⟩

theorem Run.passes (h : Run s r) (inside : s.current.kind ≠ .eof) :
    ∃ ts, s.window.Passes ts (finalState r).window := by
  cases h with
  | noName => exact ⟨[], .refl _⟩
  | noEquals => exact ⟨_, .step inside⟩
  | done lead value | fails lead value =>
    obtain ⟨ts, first⟩ := lead.passes inside
    obtain ⟨us, second⟩ := value.passes
    exact ⟨ts ++ us, first.trans second⟩

end Stmt

namespace Program

inductive Run : State → List Stmt → State → Prop where
  | finished {s} (last : s.isFinished = true) : Run s [] s
  | parsed {s x t xs u} (more : s.isFinished = false) (stmt : Stmt.Run s (.ok x t))
      (rest : Run t.advance xs u) : Run s (x :: xs) u
  | failed {s d t xs u} (more : s.isFinished = false) (stmt : Stmt.Run s (.error d t))
      (rest : Run (t.record d).advance xs u) : Run s xs u

variable {s u : State} {xs : List Stmt} {source : String} {i : Nat}

theorem ne_eof_of_isFinished (more : s.isFinished = false) : s.current.kind ≠ .eof := by
  rw [ne_eq, ← s.isFinished_iff, more]
  decide

theorem Run.finishes (h : Run s xs u) : u.current.kind = .eof := by
  induction h with
  | finished last => exact (State.isFinished_iff _).1 last
  | parsed _ _ _ ih => exact ih
  | failed _ _ _ ih => exact ih

theorem Run.depth_eq (h : Run s xs u) : u.depth = s.depth := by
  induction h with
  | finished => rfl
  | parsed more stmt rest ih | failed more stmt rest ih => exact ih.trans stmt.keeps.1

theorem Run.appends (h : Run s xs u) : ∃ new, u.diagnostics = new ++ s.diagnostics := by
  induction h with
  | finished => exact ⟨[], rfl⟩
  | parsed more stmt rest ih =>
    obtain ⟨new, same⟩ := ih
    exact ⟨new, same.trans (congrArg _ stmt.keeps.2)⟩
  | @failed s d t xs u more stmt rest ih =>
    obtain ⟨new, same⟩ := ih
    exact ⟨new ++ [d], by rw [same, stmt.recorded, List.append_assoc, List.singleton_append]⟩

theorem Run.unique {xs' : List Stmt} {u' : State} (h : Run s xs u) (h' : Run s xs' u') :
    xs = xs' ∧ u = u' := by
  induction h generalizing xs' u' with
  | finished last =>
    cases h' with
    | finished => exact ⟨rfl, rfl⟩
    | parsed more | failed more => exact absurd last (by rw [more]; decide)
  | parsed more stmt rest ih =>
    cases h' with
    | finished last => exact absurd last (by rw [more]; decide)
    | parsed _ stmt' rest' =>
      obtain ⟨rfl, rfl⟩ := EStateM.Result.ok.inj (stmt.parse_eq.symm.trans stmt'.parse_eq)
      obtain ⟨rfl, rfl⟩ := ih rest'
      exact ⟨rfl, rfl⟩
    | failed _ stmt' => exact nomatch stmt.parse_eq.symm.trans stmt'.parse_eq
  | failed more stmt rest ih =>
    cases h' with
    | finished last => exact absurd last (by rw [more]; decide)
    | parsed _ stmt' => exact nomatch stmt.parse_eq.symm.trans stmt'.parse_eq
    | failed _ stmt' rest' =>
      obtain ⟨rfl, rfl⟩ := EStateM.Result.error.inj (stmt.parse_eq.symm.trans stmt'.parse_eq)
      exact ih rest'

/-! ### The reader runs -/

/-- Each token but the first two took a byte that the cursor had in front of it. -/
theorem length_body_le_moves {w : Window} (standing : w.At source i) :
    (Token.body source).length ≤ i + w.moves := by
  have general : ∀ m, i + 2 + m = (Token.body source).length → m ≤ w.cursor.remaining := by
    intro m
    induction m generalizing w i with
    | zero => intro _; exact Nat.zero_le _
    | succ m ih =>
      intro count
      have further := ih (standing.iterate 1) (by omega)
      have more : w.advance.ahead.kind ≠ .eof := by
        rw [show w.advance.ahead = Token.nth source (i + 2) from standing 2, ne_eq, Token.nth_eof_iff]
        omega
      have used : w.advance.cursor.remaining < w.cursor.remaining := Token.Cursor.remaining_next_lt more
      exact Nat.lt_of_le_of_lt further used
  change _ ≤ i + (w.cursor.remaining + 2)
  by_cases long : i + 2 ≤ (Token.body source).length
  · have := general ((Token.body source).length - (i + 2)) (by omega)
    omega
  · omega

theorem run_attempts {moves : Nat} (standing : s.window.At source i)
    (enough : (Token.body source).length ≤ i + moves) :
    Run s (attempts moves s).1 (attempts moves s).2 := by
  induction moves generalizing s i with
  | zero =>
    refine .finished ((State.isFinished_iff _).2 ?_)
    rw [State.current, standing.current, Token.nth_eof_iff]
    exact enough
  | succ moves ih =>
    rw [attempts]
    by_cases last : s.isFinished = true
    · rw [if_pos last]
      exact .finished last
    · rw [if_neg last]
      have more : s.isFinished = false := by simpa using last
      have run := Stmt.run_parse s
      obtain ⟨ts, moved⟩ := run.passes (ne_eof_of_isFinished more)
      have there := (standing.passes moved).1.iterate 1
      cases result : Stmt.parse s with
      | ok x t =>
        rw [result] at run there
        have rest := ih (s := t.advance) there (by omega)
        simpa [attempt, result] using Run.parsed more run rest
      | error d t =>
        rw [result] at run there
        have rest := ih (s := (t.record d).advance) there (by omega)
        simpa [attempt, result] using Run.failed more run rest

/-- A source is read by attempts up to its end token, and the outcome shows what they leave. -/
theorem ofText_eq_run (source : String) :
    ∃ xs u, Run (.ofText source) xs u ∧ ofText source =
      { program := ⟨xs⟩
        diagnostics := u.diagnostics.reverse
        log := .parsing (Text.byteLength source.toList) :: u.log.reverse ++
          [.parsed xs.length u.diagnostics.reverse.length] } := by
  have standing : (State.ofText source).window.At source 0 := Window.at_ofText source
  have run := run_attempts standing (length_body_le_moves standing)
  unfold ofText parse
  generalize State.ofText source = s at run ⊢
  exact ⟨_, _, run, rfl⟩

theorem run_ofText (source : String) :
    ∃ u, Run (.ofText source) (ofText source).program.statements u ∧
      (ofText source).diagnostics = u.diagnostics.reverse := by
  obtain ⟨xs, u, run, same⟩ := ofText_eq_run source
  rw [same]
  exact ⟨u, run, rfl⟩

end Program

end LetLang
