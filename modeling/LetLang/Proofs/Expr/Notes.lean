import LetLang.Proofs.Expr.Run

/-!
# What the expression reader notes

Reading an expression notes each token when it comes into view (`Run.tracked`) and each binary operator
when its right operand has been read (`Run.operators_eq`), and nothing else (`Run.traces`). So the notes go
through the tokens in source order and through the operators of the tree in post-order.
-/

namespace LetLang

open Parse (State finalState)
open Token (nth)

/-! ### What a record is of -/

namespace Log.Record

def token? : Record → Option Token
  | token t => some t
  | _ => none

def fault? : Record → Option Diagnostic
  | fault d => some d
  | _ => none

def operator? : Record → Option (String × Power)
  | operator text power => some (text, power)
  | _ => none

def isStatement : Record → Bool
  | statement _ => true
  | _ => false

variable {r : Record}

theorem fault?_eq_none (h : r.level = .trace) : r.fault? = none := by cases r <;> first | rfl | contradiction

theorem isStatement_eq_false (h : r.level = .trace) : r.isStatement = false := by
  cases r <;> first | rfl | contradiction

end Log.Record

/-! ### Notes in a state -/

namespace Parse.State

open Log (Record)

/-- The tokens that are noted, in order. -/
def viewed (s : State) : List Token := s.log.reverse.filterMap Record.token?

/-- The operators that are noted, in order. -/
def operators (s : State) : List (String × Power) := s.log.reverse.filterMap Record.operator?

/-- What was noted on the way from one state to another is of the least urgent level. -/
def Traces (s t : State) : Prop := ∃ notes, t.log = notes ++ s.log ∧ ∀ x ∈ notes, x.level = .trace

/-- The `k`-th token of a source is current, and each token up to the one ahead is noted once, in order. -/
structure Tracks (source : String) (k : Nat) (s : State) : Prop where
  stands : s.window.At source k
  noted : s.viewed = (List.range (k + 2)).map (nth source)

variable {s t u : State} {source : String} {k : Nat} {r : Record}

theorem viewed_advance (s : State) : s.advance.viewed = s.viewed ++ [s.advance.ahead] := by
  simp [viewed, advance, ahead, Record.token?]

theorem viewed_note (other : r.token? = none) : (s.note r).viewed = s.viewed := by simp [viewed, note, other]

@[simp] theorem operators_advance (s : State) : s.advance.operators = s.operators := by
  simp [operators, advance, Record.operator?]

theorem operators_note (s : State) (text : String) (p : Power) :
    (s.note (.operator text p)).operators = s.operators ++ [(text, p)] := by
  simp [operators, note, Record.operator?]

theorem operators_note_of_none (other : r.operator? = none) : (s.note r).operators = s.operators := by
  simp [operators, note, other]

theorem Traces.refl (s : State) : s.Traces s := ⟨[], rfl, by simp⟩

theorem Traces.advance (s : State) : s.Traces s.advance := ⟨[_], rfl, by simp [Record.level]⟩

theorem Traces.note (lowest : r.level = .trace) : s.Traces (s.note r) := ⟨[r], rfl, by simpa using lowest⟩

theorem Traces.trans (first : s.Traces t) (second : t.Traces u) : s.Traces u := by
  obtain ⟨earlier, before, low⟩ := first
  obtain ⟨later, after, lower⟩ := second
  exact ⟨later ++ earlier, by rw [after, before, List.append_assoc], List.forall_mem_append.2 ⟨lower, low⟩⟩

theorem Traces.of_advance (h : s.advance.Traces t) : s.Traces t := (Traces.advance s).trans h

theorem Tracks.advance (h : s.Tracks source k) : s.advance.Tracks source (k + 1) := by
  have next : s.advance.window.At source (k + 1) := h.stands.iterate 1
  have longer : List.range (k + 1 + 2) = List.range (k + 2) ++ [k + 2] := List.range_succ
  exact ⟨next, by rw [viewed_advance, h.noted, ahead, next.ahead, longer, List.map_append, List.map_singleton]⟩

theorem Tracks.note (h : s.Tracks source k) (other : r.token? = none) : (s.note r).Tracks source k :=
  ⟨h.stands, (viewed_note other).trans h.noted⟩

theorem Tracks.record (h : s.Tracks source k) (d : Diagnostic) : (s.record d).Tracks source k :=
  ⟨h.stands, (viewed_note rfl).trans h.noted⟩

theorem Tracks.inside (h : s.Tracks source k) (more : s.current.kind ≠ .eof) : k < (Token.body source).length :=
  h.stands.ne_eof_iff.1 more

theorem Tracks.inside_ahead (h : s.Tracks source k) (more : s.ahead.kind ≠ .eof) :
    k + 1 < (Token.body source).length := h.advance.inside more

end Parse.State

/-- A reader stops where its source is tracked: with a success before the end, with a failure at the end
token at the latest. -/
def Parse.Tracked {α : Type} (source : String) : EStateM.Result Diagnostic State α → Prop
  | .ok _ t => ∃ j < (Token.body source).length, t.Tracks source j
  | .error _ t => ∃ j ≤ (Token.body source).length, t.Tracks source j

namespace Expr

variable {task : Task} {s t : State} {r : Outcome} {e : Expr} {p : Power} {source : String} {k : Nat}

/-- The binary operators with their powers: those of the operands from left to right, then the node's. -/
def operators : Expr → List (String × Power)
  | unary _ _ operand => operand.operators
  | binary t operator left right => left.operators ++ right.operators ++ [(operator, t.kind.power)]
  | _ => []

/-! ### Nothing but details -/

theorem Run.traces (h : Run task s r) : s.Traces (finalState r) := by
  induction h with
  | whole room body ih =>
    rw [finalState_leave]
    exact ih
  | openingFails opening ih => exact ih
  | opened opening rest first second => exact first.trans second
  | unary kind operand ih | unaryFails kind operand ih => exact ih.of_advance
  | group kind inner closed ih => exact ih.of_advance.trans (.advance _)
  | groupFails kind inner ih => exact ih.of_advance
  | unclosed kind inner unclosed ih => exact ih.of_advance
  | step tight operand rest first second => exact (first.of_advance.of_advance.trans (.note rfl)).trans second
  | stepFails tight operand ih => exact ih.of_advance.of_advance
  | _ => exact .refl _

/-! ### Tokens -/

theorem Run.tracked (h : Run task s r) (start : s.Tracks source k) (within : k ≤ (Token.body source).length)
    (started : task.Started s) : Parse.Tracked source r := by
  induction h generalizing k with
  | tooDeep | noOpening | badInt => exact ⟨k, within, start⟩
  | @whole s p r room body ih =>
    have inner := ih (k := k) ⟨start.stands, start.noted⟩ within trivial
    cases r with
    | ok | error =>
      obtain ⟨j, before, there⟩ := inner
      exact ⟨j, before, there.stands, there.noted⟩
  | openingFails opening ih => exact ih start within trivial
  | opened opening rest first second =>
    obtain ⟨j, before, there⟩ := first start within trivial
    exact second there (Nat.le_of_lt before) (there.stands.ne_eof_iff.2 before)
  | ident kind | bool kind => exact ⟨k, start.inside (ne_eof_of_opening? kind), start⟩
  | int kind value => exact ⟨k, start.inside (ne_eof_of_opening? kind), start⟩
  | unary kind operand ih | unaryFails kind operand ih =>
    exact ih start.advance (start.inside (ne_eof_of_opening? kind)) trivial
  | group kind inner closed ih =>
    obtain ⟨j, before, there⟩ := ih start.advance (start.inside (ne_eof_of_opening? kind)) trivial
    exact ⟨j + 1, there.inside_ahead (by rw [closed]; decide), there.advance⟩
  | groupFails kind inner ih => exact ih start.advance (start.inside (ne_eof_of_opening? kind)) trivial
  | unclosed kind inner unclosed ih =>
    obtain ⟨j, before, there⟩ := ih start.advance (start.inside (ne_eof_of_opening? kind)) trivial
    exact ⟨j, Nat.le_of_lt before, there⟩
  | stop weak => exact ⟨k, start.inside started, start⟩
  | step tight operand rest first second =>
    have more := start.inside_ahead (ne_eof_of_power_lt tight)
    obtain ⟨j, before, there⟩ := first start.advance.advance more trivial
    exact second (there.note rfl) (Nat.le_of_lt before) (there.stands.ne_eof_iff.2 before)
  | stepFails tight operand ih =>
    exact ih start.advance.advance (start.inside_ahead (ne_eof_of_power_lt tight)) trivial

/-! ### Operators -/

/-- The operators of the left operand that is there already. -/
def Task.operators : Task → List (String × Power)
  | climb _ left => left.operators
  | _ => []

/-- A success has the operators that were there before and those that were noted since. -/
def Outcome.Adds (before : List (String × Power)) (s : State) : Outcome → Prop
  | .ok e t => ∃ new, e.operators = before ++ new ∧ t.operators = s.operators ++ new
  | .error .. => True

theorem Run.adds (h : Run task s r) : r.Adds task.operators s := by
  induction h with
  | @whole s p r room body ih => cases r <;> exact ih
  | @opened s p left t r opening rest first second =>
    cases r with
    | error => trivial
    | ok e u =>
      obtain ⟨new, shape, noted⟩ := first
      obtain ⟨more, further, later⟩ := second
      refine ⟨new ++ more, ?_, by rw [later, noted, List.append_assoc]⟩
      rw [further, Task.operators, shape]
      rfl
  | ident | int | bool => exact ⟨[], rfl, (List.append_nil _).symm⟩
  | unary kind operand ih =>
    obtain ⟨new, shape, noted⟩ := ih
    exact ⟨new, shape, by rw [noted, State.operators_advance]⟩
  | group kind inner closed ih =>
    obtain ⟨new, shape, noted⟩ := ih
    exact ⟨new, shape, by rw [State.operators_advance, noted, State.operators_advance]⟩
  | stop weak => exact ⟨[], (List.append_nil _).symm, (List.append_nil _).symm⟩
  | @step s p left right t r tight operand rest first second =>
    cases r with
    | error => trivial
    | ok e u =>
      obtain ⟨new, shape, noted⟩ := first
      obtain ⟨more, further, later⟩ := second
      -- The operator is noted behind those of its right operand.
      refine ⟨new ++ [(s.ahead.text, s.ahead.kind.power)] ++ more, ?_, ?_⟩
      · rw [further, Task.operators, operators, shape]
        simp [Task.operators]
      · rw [later, State.operators_note, noted]
        simp
  | _ => trivial

/-- Where an expression is read, exactly its operators are noted, in post-order. -/
theorem Run.operators_eq (h : Run (.whole p) s (.ok e t)) : t.operators = s.operators ++ e.operators := by
  obtain ⟨new, shape, noted⟩ := h.adds
  rw [shape, noted]
  rfl

end Expr

end LetLang
