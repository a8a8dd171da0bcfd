import LetLang.Parse.Action
import LetLang.Proofs.Parse.Steps
import LetLang.Proofs.Program.Calls

/-!
# What a reader does on its way

`Visits` lists the states that a reader goes through. Reading moves the window on and takes notes; it
closes every expression that it opens, and no more are ever open than may be (`after_orderly`).
-/

namespace LetLang.Parse

open Token (Kind Window)

/-- Run in the state `s`, the reader `m` goes through the states `us`, step by step. -/
inductive Reader.Visits : {α : Type} → (m : Reader α) → (s : State) → (us : List State) → Prop where
  | pure {α : Type} {s} (a : α) : Visits (Pure.pure a) s []
  | throw {α : Type} {s} (d : Diagnostic) : Visits (MonadExcept.throw d : Reader α) s []
  | get {s} : Visits get s []
  | note {s} (r : Log.Record) : Visits (note r) s [s.note r]
  | advance {s} : Visits advance s [s.advance]
  | bind_ok {α β : Type} {m : Reader α} {f : α → Reader β} {s a t us vs} (result : m s = .ok a t)
      (first : Visits m s us) (second : Visits (f a) t vs) : Visits (m >>= f) s (us ++ vs)
  | bind_error {α β : Type} {m : Reader α} {f : α → Reader β} {s d t us} (result : m s = .error d t)
      (first : Visits m s us) : Visits (m >>= f) s us
  | nested {α : Type} {body : Reader α} {s us} (room : s.depth < maxDepth) (inside : Visits body s.enter us) :
      Visits (nested body) s (s.enter :: us ++ [(finalState (body s.enter)).leave])
  | full {α : Type} {body : Reader α} {s} (full : ¬ s.depth < maxDepth) : Visits (nested body) s []

/-- The window has moved on and notes were taken, and `n` expressions more are open. -/
def State.Onward (s : State) (n : Nat) (u : State) : Prop :=
  ∃ k notes, u = { s with
    window := Window.advance^[k] s.window
    depth := s.depth + n
    log := notes ++ s.log }

variable {α : Type} {s t u : State} {n k : Nat} {m : Reader α} {us : List State}

namespace State.Onward

theorem refl (s : State) : s.Onward 0 s := ⟨0, [], rfl⟩

theorem note (s : State) (r : Log.Record) : s.Onward 0 (s.note r) := ⟨0, [r], rfl⟩

theorem advance (s : State) : s.Onward 0 s.advance := ⟨1, [_], rfl⟩

theorem enter (s : State) : s.Onward 1 s.enter := ⟨0, [], rfl⟩

theorem leave (h : s.Onward (n + 1) u) : s.Onward n u.leave := by
  obtain ⟨k, notes, rfl⟩ := h
  exact ⟨k, notes, rfl⟩

theorem trans (first : s.Onward n t) (second : t.Onward k u) : s.Onward (n + k) u := by
  obtain ⟨i, notes, rfl⟩ := first
  obtain ⟨j, more, rfl⟩ := second
  refine ⟨j + i, more ++ notes, ?_⟩
  rw [Function.iterate_add_apply, List.append_assoc, ← Nat.add_assoc]

theorem depth_eq (h : s.Onward n u) : u.depth = s.depth + n := by
  obtain ⟨k, notes, rfl⟩ := h
  rfl

theorem diagnostics_eq (h : s.Onward n u) : u.diagnostics = s.diagnostics := by
  obtain ⟨k, notes, rfl⟩ := h
  rfl

end State.Onward

namespace Reader

theorem finalState_nested (body : Reader α) (room : s.depth < maxDepth) :
    finalState (nested body s) = (finalState (body s.enter)).leave := by
  rw [nested_apply, if_pos room]
  cases body s.enter <;> rfl

theorem nested_of_full (body : Reader α) (full : ¬ s.depth < maxDepth) : finalState (nested body s) = s := by
  rw [nested_apply, if_neg full]
  rfl

/-- Every reader ends with as many open expressions as it started with. -/
theorem Visits.final_onward (h : Visits m s us) : s.Onward 0 (finalState (m s)) := by
  induction h with
  | pure | throw | get => exact .refl _
  | note r => exact .note _ r
  | advance => exact .advance _
  | bind_ok result first second before after =>
    rw [result] at before
    rw [bind_apply, result]
    exact before.trans after
  | bind_error result first ih =>
    rw [result] at ih
    rw [bind_apply, result]
    exact ih
  | nested room inside ih =>
    rw [finalState_nested _ room]
    exact .leave ((State.Onward.enter _).trans ih)
  | full full =>
    rw [nested_of_full _ full]
    exact .refl _

/-- On the way no fewer expressions are open than at the start, and not too many. -/
theorem Visits.onward (h : Visits m s us) :
    ∀ u ∈ us, ∃ n, s.Onward n u ∧ (n = 0 ∨ s.depth + n ≤ maxDepth) := by
  induction h with
  | pure | throw | get | full => simp
  | note r => exact List.forall_mem_singleton.2 ⟨0, .note _ r, .inl rfl⟩
  | advance => exact List.forall_mem_singleton.2 ⟨0, .advance _, .inl rfl⟩
  | @bind_ok α β m f s a t us vs result first second before after =>
    have there : s.Onward 0 t := by
      have whole := first.final_onward
      rwa [result] at whole
    refine List.forall_mem_append.2 ⟨before, fun u member => ?_⟩
    obtain ⟨n, onward, bound⟩ := after u member
    rw [there.depth_eq] at bound
    exact ⟨0 + n, there.trans onward, by omega⟩
  | bind_error result first ih => exact ih
  | nested room inside ih =>
    -- The body is as deep as its own start or deeper, and the start of the body is within the limit.
    refine List.forall_mem_append.2 ⟨List.forall_mem_cons.2 ⟨?_, fun u member => ?_⟩, ?_⟩
    · exact ⟨1, .enter _, .inr room⟩
    · obtain ⟨n, onward, bound⟩ := ih u member
      refine ⟨1 + n, (State.Onward.enter _).trans onward, .inr ?_⟩
      rw [(State.Onward.enter _).depth_eq] at bound
      omega
    · exact List.forall_mem_singleton.2
        ⟨0, .leave ((State.Onward.enter _).trans inside.final_onward), .inl rfl⟩

/-- The way ends where the reader does. -/
theorem Visits.getLast?_eq (h : Visits m s us) : us.getLast?.getD s = finalState (m s) := by
  induction h with
  | pure | throw | get | note | advance => rfl
  | @bind_ok α β m f s a t us vs result first second before after =>
    rw [result] at before
    rw [bind_apply, result, List.getLast?_append]
    simp only
    rw [← after]
    cases vs.getLast? with
    | none => exact before
    | some v => rfl
  | bind_error result first ih =>
    rw [result] at ih
    rw [bind_apply, result]
    exact ih
  | nested room inside ih => rw [finalState_nested _ room, List.getLast?_concat]; rfl
  | full full => rw [nested_of_full _ full]; rfl

/-- From every state there is a way. -/
def Traced (m : Reader α) : Prop := ∀ s, ∃ us, Visits m s us

theorem Traced.bind {β : Type} {f : α → Reader β} (first : Traced m) (second : ∀ a, Traced (f a)) :
    Traced (m >>= f) := by
  intro s
  obtain ⟨us, before⟩ := first s
  cases result : m s with
  | error d t => exact ⟨us, .bind_error result before⟩
  | ok a t =>
    obtain ⟨vs, after⟩ := second a t
    exact ⟨us ++ vs, .bind_ok result before after⟩

theorem Traced.get : Traced get := fun _ => ⟨[], .get⟩

theorem Traced.pure (a : α) : Traced (Pure.pure a : Reader α) := fun _ => ⟨[], .pure a⟩

theorem Traced.nested {body : Reader α} (inside : Traced body) : Traced (nested body) := by
  intro s
  by_cases room : s.depth < maxDepth
  · obtain ⟨us, way⟩ := inside s.enter
    exact ⟨_, .nested room way⟩
  · exact ⟨[], .full room⟩

theorem closed_traced : Closed Traced where
  pure := Traced.pure
  throw d _ := ⟨[], .throw d⟩
  current := Traced.get.bind fun _ => Traced.pure _
  ahead := Traced.get.bind fun _ => Traced.pure _
  note r _ := ⟨_, .note r⟩
  advance _ := ⟨_, .advance⟩
  bind := Traced.bind
  nested := Traced.nested

theorem traced_parseWith {operand : Power → Reader Expr} (h : ∀ q, Traced (operand q)) (p : Power) :
    Traced (Expr.parseWith operand p) := by
  refine closed_traced.current.bind fun token => ?_
  cases token.kind.opening? with
  | none => exact closed_traced.throw _
  | some opening =>
    refine (closed_traced.parseOpening h opening).bind fun left => ?_
    exact Traced.get.bind fun s => closed_traced.climb h p s.window.moves left

theorem traced_parse (p : Power) : Traced (Expr.parse p) :=
  closed_traced.parseWithin traced_parseWith maxDepth p

theorem traced_parseForm (f : Stmt.Form) : Traced (Stmt.parseForm f) := by
  rw [← Stmt.parseFormWith_parse]
  exact Stmt.closed_parseFormWith closed_traced (traced_parse _) f

theorem traced_stmt : Traced Stmt.parse := by
  rw [← Stmt.parseWith_parse]
  exact Stmt.closed_parseWith closed_traced (traced_parse _)

/-- Whatever its outcome, the reader leaves the state as it was but for the window, which moves on, and
the notes. On its way it opens no more expressions than may be open. -/
structure Keeps (m : Reader α) (s : State) : Prop where
  moves : ∃ k notes, finalState (m s) = { s with
    window := Window.advance^[k] s.window
    log := notes ++ s.log }
  way : ∃ us, Visits m s us
  ends {us : List State} (way : Visits m s us) : us.getLast?.getD s = finalState (m s)
  bounded {us : List State} (way : Visits m s us) : ∀ u ∈ us, s.depth ≤ u.depth ∧ u.depth ≤ maxDepth

theorem Traced.keeps (h : Traced m) (inside : s.depth ≤ maxDepth) : Keeps m s where
  moves := by
    obtain ⟨us, way⟩ := h s
    obtain ⟨k, notes, same⟩ := way.final_onward
    exact ⟨k, notes, same⟩
  way := h s
  ends := Visits.getLast?_eq
  bounded way u member := by
    obtain ⟨n, onward, bound⟩ := way.onward u member
    rw [onward.depth_eq]
    omega

end Reader

/-! ### Any steps in any order -/

open Reader (Keeps Traced closed_traced)

theorem run_reader (h : Traced m) (tell : α → Answer) (inside : s.depth ≤ maxDepth) :
    (answer tell m s).2.depth ≤ maxDepth ∧ (answer tell m s).2.diagnostics = s.diagnostics := by
  obtain ⟨us, way⟩ := h s
  have onward := way.final_onward
  have same : (answer tell m s).2 = finalState (m s) := by
    unfold answer
    cases m s <;> rfl
  rw [same, onward.depth_eq]
  exact ⟨inside, onward.diagnostics_eq⟩

theorem run_enter (times opened : Nat) (inside : s.depth ≤ maxDepth) :
    (enterTimes times opened s).2.depth ≤ maxDepth ∧
      (enterTimes times opened s).2.diagnostics = s.diagnostics := by
  induction times generalizing opened s with
  | zero => exact ⟨inside, rfl⟩
  | succ times ih =>
    rw [enterTimes, Reader.enter_apply]
    by_cases room : s.depth < maxDepth
    · rw [if_pos room]
      exact ih (s := s.enter) (opened + 1) room
    · rw [if_neg room]
      exact ⟨inside, rfl⟩

theorem run_program (inside : s.depth ≤ maxDepth) :
    (Program.parse s).2.depth ≤ maxDepth ∧
      ∃ new, (Program.parse s).2.diagnostics = new ++ s.diagnostics := by
  have depth : (Program.parse s).2.depth = s.depth := Program.depth_attempts s.window.moves s
  rw [depth]
  exact ⟨inside, _, (Program.attempts_eq s.window.moves s).2⟩

/-- The diagnostics that a step records: reading a program may record any, recording one records that one,
and the other steps record none. -/
def Action.Records : Action → List Diagnostic → Prop
  | .program, _ => True
  | .record d, new => new = [d]
  | _, new => new = []

theorem run_records (inside : s.depth ≤ maxDepth) (a : Action) :
    (a.run s).2.depth ≤ maxDepth ∧
      ∃ new, (a.run s).2.diagnostics = new ++ s.diagnostics ∧ a.Records new := by
  have quiet : ∀ t : State, t.depth ≤ maxDepth ∧ t.diagnostics = s.diagnostics →
      t.depth ≤ maxDepth ∧ ∃ new, t.diagnostics = new ++ s.diagnostics ∧ new = [] :=
    fun t ⟨depth, same⟩ => ⟨depth, [], same, rfl⟩
  cases a with
  | advance => exact quiet _ (run_reader closed_traced.advance _ inside)
  | expect kind => exact quiet _ (run_reader (closed_traced.expect kind) _ inside)
  | enter times => exact quiet _ (run_enter times 0 inside)
  | leave times => exact quiet _ ⟨Nat.le_trans (Nat.sub_le ..) inside, rfl⟩
  | record d => exact ⟨inside, [d], rfl, rfl⟩
  | program =>
    obtain ⟨depth, new, same⟩ := run_program inside
    exact ⟨depth, new, same, trivial⟩
  | stmt => exact quiet _ (run_reader Reader.traced_stmt _ inside)
  | form f => exact quiet _ (run_reader (Reader.traced_parseForm f) _ inside)
  | expr p => exact quiet _ (run_reader (Reader.traced_parse p) _ inside)
  | opening o => exact quiet _ (run_reader (closed_traced.parseOpening Reader.traced_parse o) _ inside)
  | binary left => exact quiet _ (run_reader (closed_traced.parseBinary Reader.traced_parse left) _ inside)

theorem depth_after_le (inside : s.depth ≤ maxDepth) (actions : List Action) :
    (s.after actions).depth ≤ maxDepth := by
  induction actions generalizing s with
  | nil => exact inside
  | cons a actions ih => exact ih (run_records inside a).1

/-- What may be relied on in a state of a parse: the limit on open expressions holds, whatever reader is
run next keeps the state but for the window, a refused step leaves it alone, and what is recorded stands
in front of the older diagnostics. -/
structure State.Orderly (s : State) : Prop where
  depth : s.depth ≤ 256
  expr (p : Power) : Keeps (Expr.parse p) s
  opening (o : Expr.Opening) : Keeps (Expr.parseOpening Expr.parse o) s
  binary (left : Expr) : Keeps (Expr.parseBinary Expr.parse left) s
  form (f : Stmt.Form) : Keeps (Stmt.parseForm f) s
  stmt : Keeps Stmt.parse s
  expect (kind : Kind) : Reader.expect kind s = .ok () s.advance ∨ ∃ d, Reader.expect kind s = .error d s
  enter : Reader.enter s = .ok () s.enter ∨ ∃ d, Reader.enter s = .error d s
  records (a : Action) : ∃ new, (a.run s).2.diagnostics = new ++ s.diagnostics ∧ a.Records new

/-- After any steps in any order a parse is in such a state. -/
theorem after_orderly (source : String) (actions : List Action) :
    ((State.ofText source).after actions).Orderly := by
  have start : (State.ofText source).depth ≤ maxDepth := Nat.zero_le _
  have inside := depth_after_le start actions
  generalize (State.ofText source).after actions = s at inside
  refine ⟨inside, fun p => (Reader.traced_parse p).keeps inside,
    fun o => (closed_traced.parseOpening Reader.traced_parse o).keeps inside,
    fun left => (closed_traced.parseBinary Reader.traced_parse left).keeps inside,
    fun f => (Reader.traced_parseForm f).keeps inside, Reader.traced_stmt.keeps inside,
    fun kind => ?_, ?_, fun a => (run_records inside a).2⟩
  · rw [Reader.expect_apply]
    split
    · exact .inl rfl
    · exact .inr ⟨_, rfl⟩
  · rw [Reader.enter_apply]
    split
    · exact .inl rfl
    · exact .inr ⟨_, rfl⟩

example : ((State.ofText "((1").after [.enter 300, .leave 1, .expr .lowest]).depth = 255 := by
  decide +kernel

end LetLang.Parse
