import LetLang.Log
import LetLang.Token.Window

/-!
The state of a parse and the steps that every reader is made of. A reader either answers or throws
one diagnostic; what it moved over stays moved over.
-/

namespace LetLang.Parse

open Token (Kind Window)

/-- The most expressions that may be open at once. -/
def maxDepth : Nat := 256

structure State where
  window : Window
  /-- Expressions that are open now. -/
  depth : Nat := 0
  /-- Recorded diagnostics, newest first. -/
  diagnostics : List Diagnostic := []
  /-- Log records, newest first. -/
  log : List Log.Record := []

namespace State

def current (s : State) : Token := s.window.current

def ahead (s : State) : Token := s.window.ahead

def isFinished (s : State) : Bool := s.current.kind == .eof

def note (s : State) (r : Log.Record) : State := { s with log := r :: s.log }

/-- Moves the window and notes the token that comes into view. -/
def advance (s : State) : State :=
  let window := s.window.advance
  { s with window, log := .token window.ahead :: s.log }

def enter (s : State) : State := { s with depth := s.depth + 1 }

/-- Closes one expression; at depth zero nothing is open. -/
def leave (s : State) : State := { s with depth := s.depth - 1 }

def record (s : State) (d : Diagnostic) : State :=
  { s.note (.fault d) with diagnostics := d :: s.diagnostics }

/-- The first two tokens of the source are in view and noted. -/
def ofText (source : String) : State :=
  let window := Window.ofText source
  { window, log := [.token window.ahead, .token window.current] }

@[simp] theorem current_advance (s : State) : s.advance.current = s.ahead := rfl

@[simp] theorem window_advance (s : State) : s.advance.window = s.window.advance := rfl

@[simp] theorem depth_advance (s : State) : s.advance.depth = s.depth := rfl

@[simp] theorem diagnostics_advance (s : State) : s.advance.diagnostics = s.diagnostics := rfl

theorem isFinished_iff (s : State) : s.isFinished = true ↔ s.current.kind = .eof := by
  simp [isFinished]

end State

abbrev Reader := EStateM Diagnostic State

namespace Reader

def current : Reader Token := return (← get).current

def ahead : Reader Token := return (← get).ahead

def note (r : Log.Record) : Reader Unit := modify (·.note r)

/-- Moves one token forward and answers the token left behind. -/
def advance : Reader Token := do
  let left ← current
  modify (·.advance)
  return left

/-- Moves forward if the token ahead has the kind; otherwise that token is to blame. -/
def expect (kind : Kind) : Reader Unit := do
  let next ← ahead
  if next.kind = kind then
    discard advance
  else
    throw ⟨.unexpectedToken kind next.kind, next.span⟩

def skip (kind : Kind) : Reader Unit := do
  if (← ahead).kind = kind then
    discard advance

def tooDeep {α : Type} : Reader α := do
  throw ⟨.nestingTooDeep maxDepth, (← current).span⟩

def enter : Reader Unit := do
  if (← get).depth < maxDepth then
    modify (·.enter)
  else
    tooDeep

/-- Runs a reader inside one open expression and closes it, whatever the outcome. -/
def nested {α : Type} (body : Reader α) : Reader α := fun s =>
  match enter s with
  | .error d s => .error d s
  | .ok () s =>
    match body s with
    | .ok a s => .ok a s.leave
    | .error d s => .error d s.leave

/-! ### What each step does to a state -/

theorem current_apply (s : State) : current s = .ok s.current s := rfl

theorem ahead_apply (s : State) : ahead s = .ok s.ahead s := rfl

theorem note_apply (r : Log.Record) (s : State) : note r s = .ok () (s.note r) := rfl

theorem advance_apply (s : State) : advance s = .ok s.current s.advance := rfl

theorem tooDeep_apply {α : Type} (s : State) :
    (tooDeep : Reader α) s = .error ⟨.nestingTooDeep maxDepth, s.current.span⟩ s := rfl

theorem bind_apply {α β : Type} (m : Reader α) (f : α → Reader β) (s : State) :
    (m >>= f) s = match m s with
      | .ok a s => f a s
      | .error d s => .error d s := by
  change EStateM.bind m f s = _
  unfold EStateM.bind
  cases m s <;> rfl

theorem expect_apply (kind : Kind) (s : State) :
    expect kind s =
      if s.ahead.kind = kind then .ok () s.advance
      else .error ⟨.unexpectedToken kind s.ahead.kind, s.ahead.span⟩ s := by
  rw [expect, bind_apply, ahead_apply]
  by_cases h : s.ahead.kind = kind
  · simp only [if_pos h]
    rfl
  · simp only [if_neg h]
    rfl

theorem skip_apply (kind : Kind) (s : State) :
    skip kind s = .ok () (if s.ahead.kind = kind then s.advance else s) := by
  rw [skip, bind_apply, ahead_apply]
  by_cases h : s.ahead.kind = kind
  · simp only [if_pos h]
    rfl
  · simp only [if_neg h]
    rfl

theorem enter_apply (s : State) :
    enter s =
      if s.depth < maxDepth then .ok () s.enter
      else .error ⟨.nestingTooDeep maxDepth, s.current.span⟩ s := by
  have h : enter s = (if s.depth < maxDepth then modify (·.enter) else tooDeep : Reader Unit) s := rfl
  rw [h]
  by_cases hd : s.depth < maxDepth
  · simp only [if_pos hd]
    rfl
  · simp only [if_neg hd]
    rfl

theorem nested_apply {α : Type} (body : Reader α) (s : State) :
    nested body s =
      if s.depth < maxDepth then
        match body s.enter with
        | .ok a s => .ok a s.leave
        | .error d s => .error d s.leave
      else .error ⟨.nestingTooDeep maxDepth, s.current.span⟩ s := by
  rw [nested, enter_apply]
  by_cases hd : s.depth < maxDepth
  · simp only [if_pos hd]
  · simp only [if_neg hd]

end Reader

end LetLang.Parse
