import LetLang.Proofs.Program.Local
import LetLang.Proofs.Program.Run

/-!
# The attempts of a program

Reading a program calls `Stmt.parse` again and again (`calls`). Each call gives a statement or a
diagnostic, and nothing else does (`attempts_eq`).
-/

namespace LetLang

open Parse (State)

/-- What a reader gives, if it succeeds. -/
def Parse.value? {α : Type} : EStateM.Result Diagnostic State α → Option α
  | .ok a _ => some a
  | .error .. => none

/-- What a reader throws, if it fails. -/
def Parse.fault? {α : Type} : EStateM.Result Diagnostic State α → Option Diagnostic
  | .ok .. => none
  | .error d _ => some d

namespace Program

open Parse (value? fault?)

/-- The states in which reading calls `Stmt.parse`, in order. -/
def calls : (moves : Nat) → State → List State
  | 0, _ => []
  | moves + 1, s => if s.isFinished then [] else s :: calls moves (attempt s).2

/-- The calls of a whole source. -/
def callsOf (source : String) : List State := calls (State.ofText source).window.moves (.ofText source)

variable {source : String} {s : State}

theorem calls_of_finished (last : s.isFinished = true) (moves : Nat) : calls moves s = [] := by
  cases moves with
  | zero => rfl
  | succ moves => rw [calls, if_pos last]

theorem calls_succ (more : s.isFinished = false) (moves : Nat) :
    calls (moves + 1) s = s :: calls moves (attempt s).2 := by
  rw [calls, if_neg (by rw [more]; decide)]

theorem attemptWith_parse : attemptWith Stmt.parse = attempt := rfl

theorem attempt_fst (s : State) : (attempt s).1 = value? (Stmt.parse s) := by
  unfold attempt
  cases Stmt.parse s <;> rfl

theorem diagnostics_attempt (s : State) :
    (attempt s).2.diagnostics = (fault? (Stmt.parse s)).toList ++ s.diagnostics := by
  have kept := (Stmt.run_parse s).keeps.2
  unfold attempt
  cases result : Stmt.parse s with
  | ok x t =>
    rw [result] at kept
    exact kept
  | error d t =>
    rw [result] at kept
    exact congrArg (d :: ·) kept

theorem attempts_eq (moves : Nat) (s : State) :
    (attempts moves s).1 = (calls moves s).filterMap (value? <| Stmt.parse ·) ∧
    (attempts moves s).2.diagnostics =
      ((calls moves s).filterMap (fault? <| Stmt.parse ·)).reverse ++ s.diagnostics := by
  rw [← attemptsWith_parse]
  induction moves generalizing s with
  | zero => exact ⟨rfl, rfl⟩
  | succ moves ih =>
    cases more : s.isFinished with
    | true =>
      rw [attemptsWith_of_finished more, calls_of_finished more]
      exact ⟨rfl, rfl⟩
    | false =>
      obtain ⟨first, second⟩ := ih (attempt s).2
      rw [attemptsWith_succ more, calls_succ more, attemptWith_parse, first, second, attempt_fst,
        diagnostics_attempt, List.filterMap_cons, List.filterMap_cons]
      cases Stmt.parse s <;> exact ⟨rfl, by simp [fault?]⟩

theorem depth_attempt (s : State) : (attempt s).2.depth = s.depth := by
  have kept := (Stmt.run_parse s).keeps.1
  unfold attempt
  cases result : Stmt.parse s <;> rw [result] at kept <;> exact kept

theorem depth_attempts (moves : Nat) (s : State) : (attempts moves s).2.depth = s.depth := by
  rw [← attemptsWith_parse]
  induction moves generalizing s with
  | zero => rfl
  | succ moves ih =>
    cases more : s.isFinished with
    | true => rw [attemptsWith_of_finished more]
    | false =>
      rw [attemptsWith_succ more]
      exact (ih _).trans (depth_attempt s)

theorem ofText_attempts (source : String) :
    (ofText source).program.statements = (attempts (State.ofText source).window.moves (.ofText source)).1 ∧
    (ofText source).diagnostics =
      (attempts (State.ofText source).window.moves (.ofText source)).2.diagnostics.reverse := by
  unfold ofText parse
  generalize State.ofText source = s
  exact ⟨rfl, rfl⟩

theorem ofText_eq (source : String) :
    (ofText source).program.statements = (callsOf source).filterMap (value? <| Stmt.parse ·) ∧
    (ofText source).diagnostics = (callsOf source).filterMap (fault? <| Stmt.parse ·) := by
  have empty : (State.ofText source).diagnostics = [] := rfl
  obtain ⟨first, second⟩ := attempts_eq (State.ofText source).window.moves (.ofText source)
  obtain ⟨statements, diagnostics⟩ := ofText_attempts source
  rw [statements, diagnostics, first, second, empty, List.append_nil, List.reverse_reverse, callsOf]
  exact ⟨rfl, rfl⟩

/-- Each call counts once. -/
theorem length_add_length (states : List State) :
    (states.filterMap (value? <| Stmt.parse ·)).length + (states.filterMap (fault? <| Stmt.parse ·)).length =
      states.length := by
  induction states with
  | nil => rfl
  | cons s states ih =>
    rw [List.filterMap_cons, List.filterMap_cons, List.length_cons, ← ih]
    cases Stmt.parse s <;> simp [value?, fault?] <;> omega

end Program

end LetLang
