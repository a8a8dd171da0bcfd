import LetLang.Parse.Action
import LetLang.Proofs.Expr.Local

/-!
# Statement and program readers are local

Statements and programs are read here over any reader of expressions. If that one is local, so are
they (`Stmt.closed_parseWith`, `Program.local_parseWith`).
-/

namespace LetLang

open Parse (State Reader finalState onto)
open Parse.Reader (Moves Local Forward Closed closed_local)
open Token (Kind Window)

namespace Stmt

variable {expr : Reader Expr}

/-- The value of a statement and the semicolon that may follow, with another reader of expressions. -/
def parseValueWith (expr : Reader Expr) : Reader Expr := do
  let value ← expr
  Reader.skip .semicolon
  return value

/-- The part of a form in front of its value, and the statement that the value makes of it. -/
def Form.lead : Form → Reader (Expr → Stmt)
  | .binding => do
    let token ← Reader.current
    Reader.expect .ident
    let name ← Reader.current
    Reader.expect .assign
    discard Reader.advance
    return .binding token ⟨name, name.text⟩
  | .ret => return .ret (← Reader.advance)
  | .expr => return .expr (← Reader.current)

/-- A statement of a form, with another reader of expressions. -/
def parseFormWith (expr : Reader Expr) (f : Form) : Reader Stmt := do
  let make ← f.lead
  let value ← parseValueWith expr
  return make value

/-- The statement at the current token, with another reader of expressions. -/
def parseWith (expr : Reader Expr) : Reader Stmt := do
  let token ← Reader.current
  Reader.note (.statement token)
  parseFormWith expr (token.kind.form?.getD .expr)

theorem lead_binding_apply (s : State) :
    Form.binding.lead s =
      if s.ahead.kind = .ident then
        if s.advance.ahead.kind = .assign then
          .ok (.binding s.current ⟨s.ahead, s.ahead.text⟩) s.advance.advance.advance
        else .error ⟨.unexpectedToken .assign s.advance.ahead.kind, s.advance.ahead.span⟩ s.advance
      else .error ⟨.unexpectedToken .ident s.ahead.kind, s.ahead.span⟩ s := by
  simp only [Form.lead, Reader.bind_apply, Reader.current_apply, Reader.expect_apply]
  by_cases name : s.ahead.kind = .ident
  · by_cases sign : s.advance.ahead.kind = .assign
    · simp only [if_pos name, if_pos sign]
      rfl
    · simp only [if_pos name, if_neg sign]
  · simp only [if_neg name]

theorem parseFormWith_apply (expr : Reader Expr) (f : Form) (s : State) :
    parseFormWith expr f s = match f.lead s with
      | .ok make t =>
        match parseValueWith expr t with
        | .ok value u => .ok (make value) u
        | .error d u => .error d u
      | .error d t => .error d t := by
  rw [parseFormWith, Reader.bind_apply]
  cases f.lead s with
  | error d t => rfl
  | ok make t =>
    simp only [Reader.bind_apply]
    cases parseValueWith expr t <;> rfl

theorem parseFormWith_parse (f : Form) : parseFormWith (Expr.parse .lowest) f = parseForm f := by
  have value : parseValueWith (Expr.parse .lowest) = parseValue := rfl
  funext s
  rw [parseFormWith_apply, value]
  cases f with
  | binding =>
    rw [lead_binding_apply, parseForm, parseBinding_apply]
    by_cases name : s.ahead.kind = .ident
    · by_cases sign : s.advance.ahead.kind = .assign
      · cases result : parseValue s.advance.advance.advance <;> simp only [if_pos name, if_pos sign, result]
      · simp only [if_pos name, if_neg sign]
    · simp only [if_neg name]
  | ret =>
    rw [parseForm, parseRet_apply]
    rfl
  | expr =>
    rw [parseForm, parseExpr_apply]
    rfl

theorem parseWith_parse : parseWith (Expr.parse .lowest) = parse := by
  simp only [parseWith, parseFormWith_parse]
  rfl

section

variable {P : {α : Type} → Reader α → Prop} (closed : Closed P)
include closed

theorem closed_lead (f : Form) : P f.lead := by
  cases f with
  | binding =>
    refine closed.bind closed.current fun token => closed.bind (closed.expect _) fun _ => ?_
    refine closed.bind closed.current fun name => closed.bind (closed.expect _) fun _ => ?_
    exact closed.bind closed.discard_advance fun _ => closed.pure _
  | ret => exact closed.bind closed.advance fun _ => closed.pure _
  | expr => exact closed.bind closed.current fun _ => closed.pure _

theorem closed_parseFormWith (h : P expr) (f : Form) : P (parseFormWith expr f) := by
  have value : P (parseValueWith expr) := closed.bind h fun _ => closed.bind (closed.skip _) fun _ => closed.pure _
  exact closed.bind (closed_lead closed f) fun _ => closed.bind value fun _ => closed.pure _

theorem closed_parseWith (h : P expr) : P (parseWith expr) :=
  closed.bind closed.current fun _ => closed.bind (closed.note _) fun _ => closed_parseFormWith closed h _

end

end Stmt

/-- A step that cannot fail, as a reader. -/
def Parse.Reader.total {α : Type} (f : State → α × State) : Reader α := fun s => .ok (f s).1 (f s).2

namespace Program

open Parse.Reader (total)

variable {stmt : Reader Stmt} {s : State} {k m n : Nat}

/-- One attempt at a statement, with another reader of statements. -/
def attemptWith (stmt : Reader Stmt) (s : State) : Option Stmt × State :=
  match stmt s with
  | .ok x s => (some x, s.advance)
  | .error d s => (none, (s.record d).advance)

/-- Attempts up to the end of the source, with another reader of statements. -/
def attemptsWith (stmt : Reader Stmt) : (moves : Nat) → State → List Stmt × State
  | 0, s => ([], s)
  | moves + 1, s =>
    if s.isFinished then ([], s)
    else
      let (stmt?, s) := attemptWith stmt s
      let (stmts, s) := attemptsWith stmt moves s
      (stmt?.toList ++ stmts, s)

def parseWith (stmt : Reader Stmt) (s : State) : Program × State :=
  let (stmts, s) := attemptsWith stmt s.window.moves s
  (⟨stmts⟩, s)

theorem attemptsWith_parse (moves : Nat) (s : State) : attemptsWith Stmt.parse moves s = attempts moves s := by
  induction moves generalizing s with
  | zero => rfl
  | succ moves ih =>
    simp only [attemptsWith, attempts, ih]
    rfl

theorem parseWith_parse : parseWith Stmt.parse = parse := by
  funext s
  simp only [parseWith, attemptsWith_parse]
  rfl

theorem window_attemptWith (stmt : Reader Stmt) (s : State) :
    (attemptWith stmt s).2.window = (finalState (stmt s)).window.advance := by
  unfold attemptWith
  cases stmt s <;> rfl

theorem Moves.attempt (h : Moves stmt s k) : Moves (total (attemptWith stmt)) s (k + 1) where
  window := by
    rw [Function.iterate_succ_apply', ← h.window]
    exact window_attemptWith stmt s
  sees {v} same := by
    have there := h.sees (same.mono (Nat.le_succ _))
    have behind : (finalState (stmt s)).window.Agree 2 (Window.advance^[k] v) := by
      rw [h.window]
      exact Window.Agree.iterate same
    rw [Function.iterate_succ_apply']
    unfold total attemptWith
    rw [there]
    cases result : stmt s with
    | ok x t =>
      rw [result] at behind
      exact congrArg (EStateM.Result.ok (some x)) (Reader.advance_onto behind)
    | error d t =>
      rw [result] at behind
      have noted : (t.record d).window.Agree 2 (Window.advance^[k] v) := behind
      exact congrArg (EStateM.Result.ok none) (Reader.advance_onto noted)

theorem local_attempt (h : Local stmt) : Local (total (attemptWith stmt)) := by
  intro s
  obtain ⟨k, moved⟩ := h s
  exact ⟨k + 1, Moves.attempt moved⟩

/-- An attempt takes at least one move to the end. -/
theorem pending_attempt_lt (h : Forward stmt) (more : s.isFinished = false) :
    (attemptWith stmt s).2.window.pending < s.window.pending := by
  obtain ⟨k, landed⟩ := h s
  rw [window_attemptWith, landed, ← Function.iterate_succ_apply' Window.advance, Function.iterate_succ_apply]
  refine Nat.lt_of_le_of_lt (Window.pending_iterate_le _ k) (Window.pending_advance_lt fun last => ?_)
  rw [(State.isFinished_iff s).2 last] at more
  contradiction

theorem isFinished_of_pending (h : s.window.pending = 0) : s.isFinished = true :=
  (State.isFinished_iff s).2 (Window.eof_of_pending h).1

theorem attemptsWith_of_finished (last : s.isFinished = true) (moves : Nat) : attemptsWith stmt moves s = ([], s) := by
  cases moves with
  | zero => rfl
  | succ moves => rw [attemptsWith, if_pos last]

theorem attemptsWith_succ (more : s.isFinished = false) (moves : Nat) :
    attemptsWith stmt (moves + 1) s =
      ((attemptWith stmt s).1.toList ++ (attemptsWith stmt moves (attemptWith stmt s).2).1,
        (attemptsWith stmt moves (attemptWith stmt s).2).2) := by
  rw [attemptsWith, if_neg (by rw [more]; decide)]

/-- The bound on the attempts does not matter as long as it is great enough. -/
theorem attemptsWith_bound (h : Forward stmt) (first : s.window.pending ≤ m) (second : s.window.pending ≤ n) :
    attemptsWith stmt m s = attemptsWith stmt n s := by
  induction m generalizing n s with
  | zero =>
    have last := isFinished_of_pending (Nat.le_zero.1 first)
    rw [attemptsWith_of_finished last, attemptsWith_of_finished last]
  | succ m ih =>
    cases more : s.isFinished with
    | true => rw [attemptsWith_of_finished more, attemptsWith_of_finished more]
    | false =>
      have less := pending_attempt_lt h more
      cases n with
      | zero => omega
      | succ n =>
        have rest := ih (n := n) (s := (attemptWith stmt s).2) (by omega) (by omega)
        rw [attemptsWith_succ more, attemptsWith_succ more, rest]

/-- Attempts go on up to the end token. -/
theorem attemptsWith_finishes (h : Forward stmt) (enough : s.window.pending ≤ m) :
    (attemptsWith stmt m s).2.isFinished = true := by
  induction m generalizing s with
  | zero => exact isFinished_of_pending (Nat.le_zero.1 enough)
  | succ m ih =>
    cases more : s.isFinished with
    | true => rw [attemptsWith_of_finished more]; exact more
    | false =>
      have less := pending_attempt_lt h more
      rw [attemptsWith_succ more]
      exact ih (by omega)

/-- Attempts with the bound that reading a program sets. -/
def attemptsAll (stmt : Reader Stmt) (s : State) : List Stmt × State := attemptsWith stmt s.window.moves s

/-- What `attemptsAll` does in front of the end token. -/
def attemptsOn (stmt : Reader Stmt) : Reader (List Stmt) :=
  total (attemptWith stmt) >>= fun x => total (attemptsAll stmt) >>= fun xs => pure (x.toList ++ xs)

theorem attemptsAll_eq (h : Forward stmt) (s : State) :
    total (attemptsAll stmt) s = if s.isFinished = true then .ok [] s else attemptsOn stmt s := by
  unfold total attemptsAll
  cases more : s.isFinished with
  | true => rw [attemptsWith_of_finished more, if_pos rfl]
  | false =>
    have less := pending_attempt_lt h more
    have enough := s.window.pending_le_moves
    have rest : attemptsWith stmt (s.window.cursor.remaining + 1) (attemptWith stmt s).2 =
        attemptsWith stmt (attemptWith stmt s).2.window.moves (attemptWith stmt s).2 :=
      attemptsWith_bound h (by rw [Window.moves] at enough; omega) (Window.pending_le_moves _)
    rw [Window.moves, attemptsWith_succ more, rest]
    rfl

theorem local_attemptsAll (h : Local stmt) : Local (total (attemptsAll stmt)) := by
  have onward := h.forward
  intro s
  induction bound : s.window.pending using Nat.strongRecOn generalizing s with
  | ind n ih =>
    subst bound
    cases more : s.isFinished with
    | true =>
      refine ⟨0, (Reader.moves_pure [] s).congr (by rw [attemptsAll_eq onward, if_pos more]; rfl) fun v same => ?_⟩
      have shown : s.current = (s.onto v).current := same.current
      have last : (s.onto v).isFinished = true := by rwa [State.isFinished, ← shown]
      rw [attemptsAll_eq onward, if_pos last]
      rfl
    | false =>
      have on : ∃ k, Moves (attemptsOn stmt) s k := by
        obtain ⟨k, moved⟩ := local_attempt h s
        obtain ⟨l, rest⟩ := ih _ (pending_attempt_lt onward more) (attemptWith stmt s).2 rfl
        exact ⟨_, moved.bind_ok rfl (rest.bind_ok rfl (Reader.moves_pure _ _))⟩
      obtain ⟨k, moved⟩ := on
      refine ⟨k, moved.congr (by rw [attemptsAll_eq onward, if_neg (by rw [more]; decide)]) fun v same => ?_⟩
      have shown : s.current = (s.onto v).current := same.current
      have more' : ¬ (s.onto v).isFinished = true := by
        rw [State.isFinished, ← shown, ← State.isFinished, more]
        decide
      rw [attemptsAll_eq onward, if_neg more']

theorem local_parseWith (h : Local stmt) : Local (total (parseWith stmt)) :=
  (local_attemptsAll h).bind fun xs => closed_local.pure (⟨xs⟩ : Program)

end Program

end LetLang
