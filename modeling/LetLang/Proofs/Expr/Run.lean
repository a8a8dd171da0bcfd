import LetLang.Expr.Parser
import LetLang.Proofs.Token.Stream

/-!
# Runs of the expression reader

`Run` lists every way in which reading an expression can go, without a bound on the recursion.
`run_iff` shows that these are the ways of `Expr.parse`, so a fact about all expressions that are
read follows by induction on `Run`.
-/

namespace LetLang

/-- The state in which a reader ends. -/
def Parse.finalState {α : Type} : EStateM.Result Diagnostic State α → State
  | .ok _ s | .error _ s => s

namespace Expr

open Parse (Reader State finalState)
open Token (Cursor Kind Window)

abbrev Outcome := EStateM.Result Diagnostic State Expr

def Outcome.leave : Outcome → Outcome
  | .ok e s => .ok e s.leave
  | .error d s => .error d s.leave

/-- What is being read: an expression with its level of nesting, the same inside that level, an
operand, or the operators behind a left operand. -/
inductive Task where
  | whole (power : Power)
  | body (power : Power)
  | opening
  | climb (power : Power) (left : Expr)

inductive Run : Task → State → Outcome → Prop where
  | tooDeep {s p} (full : ¬ s.depth < Parse.maxDepth) :
      Run (.whole p) s (.error ⟨.nestingTooDeep Parse.maxDepth, s.current.span⟩ s)
  | whole {s p r} (room : s.depth < Parse.maxDepth) (body : Run (.body p) s.enter r) :
      Run (.whole p) s (Outcome.leave r)
  | noOpening {s p} (none : s.current.kind.opening? = none) :
      Run (.body p) s (.error ⟨.noOpening s.current.kind, s.current.span⟩ s)
  | openingFails {s p d t} (opening : Run .opening s (.error d t)) : Run (.body p) s (.error d t)
  | opened {s p left t r} (opening : Run .opening s (.ok left t)) (rest : Run (.climb p left) t r) :
      Run (.body p) s r
  | ident {s} (kind : s.current.kind.opening? = some .ident) :
      Run .opening s (.ok (.ident s.current s.current.text) s)
  | int {s n} (kind : s.current.kind.opening? = some .int)
      (value : Decimal.read? s.current.text = some n) : Run .opening s (.ok (.int s.current n) s)
  | badInt {s} (kind : s.current.kind.opening? = some .int)
      (value : Decimal.read? s.current.text = none) :
      Run .opening s (.error ⟨.badNumber s.current.text, s.current.span⟩ s)
  | bool {s} (kind : s.current.kind.opening? = some .bool) :
      Run .opening s (.ok (.bool s.current (s.current.kind = .kwTrue)) s)
  | unary {s e t} (kind : s.current.kind.opening? = some .unary)
      (operand : Run (.whole .unary) s.advance (.ok e t)) :
      Run .opening s (.ok (.unary s.current s.current.text e) t)
  | unaryFails {s d t} (kind : s.current.kind.opening? = some .unary)
      (operand : Run (.whole .unary) s.advance (.error d t)) : Run .opening s (.error d t)
  | group {s e t} (kind : s.current.kind.opening? = some .group)
      (inner : Run (.whole .lowest) s.advance (.ok e t)) (closed : t.ahead.kind = .closeParen) :
      Run .opening s (.ok e t.advance)
  | groupFails {s d t} (kind : s.current.kind.opening? = some .group)
      (inner : Run (.whole .lowest) s.advance (.error d t)) : Run .opening s (.error d t)
  | unclosed {s e t} (kind : s.current.kind.opening? = some .group)
      (inner : Run (.whole .lowest) s.advance (.ok e t)) (unclosed : t.ahead.kind ≠ .closeParen) :
      Run .opening s (.error ⟨.unexpectedToken .closeParen t.ahead.kind, t.ahead.span⟩ t)
  | stop {s p left} (weak : ¬ p < s.ahead.kind.power) : Run (.climb p left) s (.ok left s)
  | step {s p left right t r} (tight : p < s.ahead.kind.power)
      (operand : Run (.whole s.ahead.kind.power) s.advance.advance (.ok right t))
      (rest : Run (.climb p (.binary s.ahead s.ahead.text left right))
        (t.note (.operator s.ahead.text s.ahead.kind.power)) r) : Run (.climb p left) s r
  | stepFails {s p left d t} (tight : p < s.ahead.kind.power)
      (operand : Run (.whole s.ahead.kind.power) s.advance.advance (.error d t)) :
      Run (.climb p left) s (.error d t)

variable {task : Task} {s t : State} {r r' : Outcome} {p : Power} {e left : Expr} {d : Diagnostic}
  {operand : Power → Reader Expr}

/-! ### The kinds that open an expression -/

theorem opening?_eq_ident {k : Kind} : k.opening? = some .ident ↔ k = .ident := by
  cases k <;> simp [Kind.opening?]

theorem opening?_eq_int {k : Kind} : k.opening? = some .int ↔ k = .int := by
  cases k <;> simp [Kind.opening?]

theorem opening?_eq_bool {k : Kind} : k.opening? = some .bool ↔ k = .kwTrue ∨ k = .kwFalse := by
  cases k <;> simp [Kind.opening?]

theorem opening?_eq_unary {k : Kind} : k.opening? = some .unary ↔ k = .bang ∨ k = .minus := by
  cases k <;> simp [Kind.opening?]

theorem opening?_eq_group {k : Kind} : k.opening? = some .group ↔ k = .openParen := by
  cases k <;> simp [Kind.opening?]

theorem ne_eof_of_opening? {k : Kind} {o : Opening} (h : k.opening? = some o) : k ≠ .eof := by
  rintro rfl
  simp [Kind.opening?] at h

theorem ne_eof_of_power_lt {k : Kind} (h : p < k.power) : k ≠ .eof := by
  rintro rfl
  exact absurd h (Nat.not_lt_zero p.rank)

/-! ### What every run keeps -/

theorem finalState_leave (r : Outcome) : finalState (Outcome.leave r) = (finalState r).leave := by
  cases r <;> rfl

/-- Reading opens and closes expressions in pairs and records nothing. -/
theorem Run.keeps (h : Run task s r) :
    (finalState r).depth = s.depth ∧ (finalState r).diagnostics = s.diagnostics := by
  induction h with
  | whole room body ih =>
    rw [finalState_leave]
    refine ⟨?_, ih.2⟩
    rw [State.leave, ih.1]
    rfl
  | opened opening rest first second => exact ⟨second.1.trans first.1, second.2.trans first.2⟩
  | unary kind operand ih => exact ih
  | unaryFails kind operand ih => exact ih
  | group kind inner closed ih => exact ih
  | groupFails kind inner ih => exact ih
  | unclosed kind inner unclosed ih => exact ih
  | openingFails opening ih => exact ih
  | step tight operand rest first second => exact ⟨second.1.trans first.1, second.2.trans first.2⟩
  | stepFails tight operand ih => exact ih
  | _ => exact ⟨rfl, rfl⟩

theorem Run.depth_eq (h : Run task s (.ok e t)) : t.depth = s.depth := h.keeps.1

def Task.Started : Task → State → Prop
  | .climb .., s => s.current.kind ≠ .eof
  | _, _ => True

/-- The window after the outcome is reached by a move, and not beyond the last token of a success. -/
def Outcome.Reached (w : Window) : Outcome → Prop
  | .ok _ t => ∃ ts, w.Reads ts t.window
  | .error _ t => ∃ ts, w.Passes ts t.window

theorem Outcome.Reached.of_passes {w v : Window} {ts : List Token} (first : w.Passes ts v)
    (h : Outcome.Reached v r) : Outcome.Reached w r := by
  cases r with
  | ok e t =>
    obtain ⟨us, second⟩ := h
    exact ⟨ts ++ us, first.reads second⟩
  | error d t =>
    obtain ⟨us, second⟩ := h
    exact ⟨ts ++ us, first.trans second⟩

theorem Outcome.Reached.of_reads {w v : Window} {ts : List Token} (first : w.Reads ts v)
    (h : Outcome.Reached v r) : Outcome.Reached w r := by
  obtain ⟨before, -, -, moved⟩ := first
  exact h.of_passes moved

/-- Reading never moves beyond the end token and stops in front of it where it succeeds. -/
theorem Run.reached (h : Run task s r) (started : task.Started s) : Outcome.Reached s.window r := by
  induction h with
  | tooDeep full => exact ⟨[], .refl _⟩
  | @whole s p r room body ih =>
    have inside := ih trivial
    cases r <;> exact inside
  | noOpening none => exact ⟨[], .refl _⟩
  | openingFails opening ih => exact ih trivial
  | opened opening rest first second =>
    obtain ⟨ts, moved⟩ := first trivial
    exact (second moved.last_ne_eof).of_reads moved
  | ident kind => exact ⟨_, Window.reads_single (ne_eof_of_opening? kind)⟩
  | int kind value => exact ⟨_, Window.reads_single (ne_eof_of_opening? kind)⟩
  | badInt kind value => exact ⟨[], .refl _⟩
  | bool kind => exact ⟨_, Window.reads_single (ne_eof_of_opening? kind)⟩
  | unary kind operand ih => exact (ih trivial).of_passes (.step (ne_eof_of_opening? kind))
  | unaryFails kind operand ih => exact (ih trivial).of_passes (.step (ne_eof_of_opening? kind))
  | group kind inner closed ih =>
    obtain ⟨ts, moved⟩ := ih trivial
    exact ⟨_, (moved.cons (ne_eof_of_opening? kind)).concat (by rw [← State.ahead, closed]; decide)⟩
  | groupFails kind inner ih => exact (ih trivial).of_passes (.step (ne_eof_of_opening? kind))
  | unclosed kind inner unclosed ih =>
    obtain ⟨-, ts, -, -, moved⟩ := ih trivial
    exact ⟨_, .cons (ne_eof_of_opening? kind) moved⟩
  | stop weak => exact ⟨_, Window.reads_single started⟩
  | @step s p left right t r tight operand rest first second =>
    obtain ⟨ts, moved⟩ := first trivial
    have onto := (Window.Passes.step started).trans (.step (ne_eof_of_power_lt tight))
    exact ((second moved.last_ne_eof).of_reads moved).of_passes onto
  | stepFails tight operand ih =>
    have onto := (Window.Passes.step started).trans (.step (ne_eof_of_power_lt tight))
    exact (ih trivial).of_passes onto

/-! ### The reader runs -/

/-- `operand` reads whole expressions at the given depth. -/
def Serves (operand : Power → Reader Expr) (depth : Nat) : Prop :=
  ∀ p s, s.depth = depth → Run (.whole p) s (operand p s)

theorem run_parseOpening (serves : Serves operand s.depth) {o : Opening}
    (kind : s.current.kind.opening? = some o) : Run .opening s (parseOpening operand o s) := by
  cases o with
  | ident => exact .ident kind
  | bool => exact .bool kind
  | int =>
    rw [parseOpening, parseInt_apply]
    cases value : Decimal.read? s.current.text with
    | none => exact .badInt kind value
    | some n => exact .int kind value
  | unary =>
    have run := serves .unary s.advance rfl
    rw [parseOpening, parseUnary_apply]
    cases result : operand .unary s.advance with
    | ok e t => exact .unary kind (result ▸ run)
    | error d t => exact .unaryFails kind (result ▸ run)
  | group =>
    have run := serves .lowest s.advance rfl
    rw [parseOpening, parseGroup_apply]
    cases result : operand .lowest s.advance with
    | ok e t =>
      by_cases closed : t.ahead.kind = .closeParen
      · simp only [if_pos closed]
        exact .group kind (result ▸ run) closed
      · simp only [if_neg closed]
        exact .unclosed kind (result ▸ run) closed
    | error d t => exact .groupFails kind (result ▸ run)

theorem run_climb {moves : Nat} (serves : Serves operand s.depth)
    (enough : s.window.cursor.remaining < moves) :
    Run (.climb p left) s (climb operand p moves left s) := by
  induction moves generalizing left s with
  | zero => exact absurd enough (Nat.not_lt_zero _)
  | succ moves ih =>
    rw [climb_succ_apply]
    by_cases tight : p < s.ahead.kind.power
    · have run := serves s.ahead.kind.power s.advance.advance rfl
      rw [if_pos tight, parseBinary_apply, State.current_advance]
      cases result : operand s.ahead.kind.power s.advance.advance with
      | error d t => exact .stepFails tight (result ▸ run)
      | ok right t =>
        rw [result] at run
        have same : t.depth = s.depth := run.depth_eq
        refine .step tight run (ih (by rw [← same] at serves; exact serves) ?_)
        -- The right operand has a first token, and showing that one took bytes.
        obtain ⟨ts, moved⟩ := run.reached trivial
        have used : s.window.advance.cursor.remaining < s.window.cursor.remaining :=
          Cursor.remaining_next_lt moved.first_ne_eof
        have later : s.window.advance.advance.cursor.remaining ≤ s.window.advance.cursor.remaining :=
          Cursor.remaining_next_le _
        have last : t.window.cursor.remaining ≤ s.window.advance.advance.cursor.remaining :=
          moved.remaining_le
        change t.window.cursor.remaining < moves
        omega
    · rw [if_neg tight]
      exact .stop tight

theorem run_parseWith (serves : Serves operand s.depth) : Run (.body p) s (parseWith operand p s) := by
  rw [parseWith_apply]
  cases kind : s.current.kind.opening? with
  | none => exact .noOpening kind
  | some o =>
    have run := run_parseOpening serves kind
    simp only
    cases result : parseOpening operand o s with
    | error d t => exact .openingFails (result ▸ run)
    | ok left t =>
      rw [result] at run
      have same := run.depth_eq
      exact .opened run (run_climb (by rw [same]; exact serves) (Nat.lt_add_of_pos_right (by decide)))

theorem run_parseWithin {levels : Nat} (enough : Parse.maxDepth ≤ levels + s.depth) :
    Run (.whole p) s (parseWithin levels p s) := by
  induction levels generalizing p s with
  | zero => exact .tooDeep (by omega)
  | succ levels ih =>
    rw [parseWithin_succ_apply]
    by_cases room : s.depth < Parse.maxDepth
    · rw [if_pos room]
      have serves : Serves (parseWithin levels) s.enter.depth := by
        intro p t same
        have inside : t.depth = s.depth + 1 := same
        exact ih (by omega)
      have run := run_parseWith (p := p) serves
      cases result : parseWith (parseWithin levels) p s.enter with
      | ok e t => exact .whole room (result ▸ run)
      | error d t => exact .whole room (result ▸ run)
    · rw [if_neg room]
      exact .tooDeep room

/-! ### Runs are unique -/

theorem Run.opening?_ne_none (h : Run .opening s r) : s.current.kind.opening? ≠ none := by
  cases h <;> simp_all

theorem Run.unique (h : Run task s r) (h' : Run task s r') : r = r' := by
  induction h generalizing r' with
  | tooDeep full =>
    cases h' with
    | tooDeep _ => rfl
    | whole room _ => exact absurd room full
  | whole room body ih =>
    cases h' with
    | tooDeep full => exact absurd room full
    | whole _ body' => rw [ih body']
  | noOpening none =>
    cases h' with
    | noOpening _ => rfl
    | openingFails opening' | opened opening' _ => exact absurd none opening'.opening?_ne_none
  | openingFails opening ih =>
    cases h' with
    | noOpening none => exact absurd none opening.opening?_ne_none
    | openingFails opening' => exact ih opening'
    | opened opening' _ => exact nomatch ih opening'
  | opened opening rest first second =>
    cases h' with
    | noOpening none => exact absurd none opening.opening?_ne_none
    | openingFails opening' => exact nomatch first opening'
    | opened opening' rest' =>
      obtain ⟨rfl, rfl⟩ := EStateM.Result.ok.inj (first opening')
      exact second rest'
  | ident kind => cases h' <;> simp_all
  | int kind value => cases h' <;> simp_all
  | badInt kind value => cases h' <;> simp_all
  | bool kind => cases h' <;> simp_all
  | unary kind operand ih =>
    cases h' with
    | unary _ operand' =>
      obtain ⟨rfl, rfl⟩ := EStateM.Result.ok.inj (ih operand')
      rfl
    | unaryFails _ operand' => exact nomatch ih operand'
    | _ => simp_all
  | unaryFails kind operand ih =>
    cases h' with
    | unary _ operand' => exact nomatch ih operand'
    | unaryFails _ operand' => exact ih operand'
    | _ => simp_all
  | group kind inner closed ih =>
    cases h' with
    | group _ inner' _ =>
      obtain ⟨rfl, rfl⟩ := EStateM.Result.ok.inj (ih inner')
      rfl
    | groupFails _ inner' => exact nomatch ih inner'
    | unclosed _ inner' unclosed =>
      obtain ⟨rfl, rfl⟩ := EStateM.Result.ok.inj (ih inner')
      exact absurd closed unclosed
    | _ => simp_all
  | groupFails kind inner ih =>
    cases h' with
    | group _ inner' _ | unclosed _ inner' _ => exact nomatch ih inner'
    | groupFails _ inner' => exact ih inner'
    | _ => simp_all
  | unclosed kind inner unclosed ih =>
    cases h' with
    | group _ inner' closed =>
      obtain ⟨rfl, rfl⟩ := EStateM.Result.ok.inj (ih inner')
      exact absurd closed unclosed
    | groupFails _ inner' => exact nomatch ih inner'
    | unclosed _ inner' _ =>
      obtain ⟨rfl, rfl⟩ := EStateM.Result.ok.inj (ih inner')
      rfl
    | _ => simp_all
  | stop weak =>
    cases h' with
    | stop _ => rfl
    | step tight _ _ | stepFails tight _ => exact absurd tight weak
  | step tight operand rest first second =>
    cases h' with
    | stop weak => exact absurd tight weak
    | step _ operand' rest' =>
      obtain ⟨rfl, rfl⟩ := EStateM.Result.ok.inj (first operand')
      exact second rest'
    | stepFails _ operand' => exact nomatch first operand'
  | stepFails tight operand ih =>
    cases h' with
    | stop weak => exact absurd tight weak
    | step _ operand' _ => exact nomatch ih operand'
    | stepFails _ operand' => exact ih operand'

theorem run_parse (p : Power) (s : State) : Run (.whole p) s (parse p s) :=
  run_parseWithin (Nat.le_add_right ..)

theorem run_iff : Run (.whole p) s r ↔ parse p s = r :=
  ⟨fun h => (run_parse p s).unique h, fun h => h ▸ run_parse p s⟩

end Expr

end LetLang
