import LetLang.Proofs.Expr.Run
import LetLang.Proofs.Parse.Steps

/-!
# Local readers

A reader is local if it only moves the window on and sees no token but those that it moves over and
the two in view at its end. The steps of a parse are local, and readers put together from local ones
are (`Reader.closed_local`).
-/

namespace LetLang

open Token (Kind Window)

namespace Token.Window

variable {w v : Window} {k m n : Nat}

/-- The current token and the `n` tokens behind it are the same. -/
def Agree (n : Nat) (w v : Window) : Prop := ∀ k ≤ n, (advance^[k] w).current = (advance^[k] v).current

theorem Agree.mono (h : w.Agree n v) (le : m ≤ n) : w.Agree m v := fun k bound => h k (Nat.le_trans bound le)

theorem Agree.iterate (h : w.Agree (k + n) v) : (advance^[k] w).Agree n (advance^[k] v) := by
  intro j bound
  rw [← Function.iterate_add_apply, ← Function.iterate_add_apply, Nat.add_comm j k]
  exact h _ (Nat.add_le_add_left bound k)

theorem Agree.current (h : w.Agree n v) : w.current = v.current := h 0 (Nat.zero_le n)

theorem Agree.ahead (h : w.Agree (n + 1) v) : w.ahead = v.ahead := h 1 (Nat.le_add_left 1 n)

/-- A bound on the moves until the end token is current. -/
def pending (w : Window) : Nat :=
  (if w.current.kind = .eof then 0 else 1) + (if w.ahead.kind = .eof then 0 else 1) + w.cursor.remaining

theorem pending_advance (w : Window) :
    w.advance.pending + (if w.current.kind = .eof then 0 else 1) ≤ w.pending := by
  have least := Cursor.remaining_next_le w.cursor
  have shown : w.advance.current = w.ahead := rfl
  have same : w.advance.cursor.remaining = w.cursor.next.2.remaining := rfl
  by_cases last : w.advance.ahead.kind = .eof
  · simp only [pending, shown, same, if_pos last]
    omega
  · have less : w.cursor.next.2.remaining < w.cursor.remaining := Cursor.remaining_next_lt last
    simp only [pending, shown, same, if_neg last]
    omega

theorem pending_advance_le (w : Window) : w.advance.pending ≤ w.pending :=
  Nat.le_trans (Nat.le_add_right ..) w.pending_advance

theorem pending_advance_lt (more : w.current.kind ≠ .eof) : w.advance.pending < w.pending := by
  have step := w.pending_advance
  rw [if_neg more] at step
  exact step

theorem pending_iterate_le (w : Window) (k : Nat) : (advance^[k] w).pending ≤ w.pending := by
  induction k with
  | zero => exact Nat.le_refl _
  | succ k ih =>
    rw [Function.iterate_succ_apply']
    exact Nat.le_trans (pending_advance_le _) ih

theorem pending_le_moves (w : Window) : w.pending ≤ w.moves := by
  simp only [pending, moves]
  split <;> split <;> omega

theorem eof_of_pending (h : w.pending = 0) : w.current.kind = .eof ∧ w.ahead.kind = .eof := by
  unfold pending at h
  constructor <;> by_contra more <;> simp [more] at h

end Token.Window

namespace Parse

/-- The state with another window. -/
def State.onto (s : State) (v : Window) : State := { s with window := v }

/-- The outcome with another window. -/
def onto {α : Type} : EStateM.Result Diagnostic State α → Window → EStateM.Result Diagnostic State α
  | .ok a s, v => .ok a (s.onto v)
  | .error d s, v => .error d (s.onto v)

namespace Reader

variable {α β : Type} {m : Reader α} {f : α → Reader β} {s t : State} {a : α} {d : Diagnostic} {k l : Nat}

/-- In the state the reader moves `k` tokens on, and it sees no token but those and the two in view at
its end. -/
structure Moves (m : Reader α) (s : State) (k : Nat) : Prop where
  window : (finalState (m s)).window = Window.advance^[k] s.window
  sees {v : Window} : s.window.Agree (k + 1) v → m (s.onto v) = onto (m s) (Window.advance^[k] v)

def Local (m : Reader α) : Prop := ∀ s, ∃ k, Moves m s k

/-- The reader moves the window on, whatever it sees. -/
def Forward (m : Reader α) : Prop := ∀ s, ∃ k, (finalState (m s)).window = Window.advance^[k] s.window

theorem Local.forward (h : Local m) : Forward m := by
  intro s
  obtain ⟨k, moved⟩ := h s
  exact ⟨k, moved.window⟩

theorem Moves.congr {n : Reader α} (h : Moves m s k) (here : n s = m s)
    (there : ∀ v, s.window.Agree (k + 1) v → n (s.onto v) = m (s.onto v)) : Moves n s k where
  window := by
    rw [here]
    exact h.window
  sees {v} same := by
    rw [there v same, here]
    exact h.sees same

/-! ### Steps -/

theorem moves_pure (a : α) (s : State) : Moves (pure a) s 0 := ⟨rfl, fun _ => rfl⟩

theorem moves_throw (d : Diagnostic) (s : State) : Moves (throw d : Reader α) s 0 := ⟨rfl, fun _ => rfl⟩

theorem moves_note (r : Log.Record) (s : State) : Moves (note r) s 0 := ⟨rfl, fun _ => rfl⟩

theorem moves_current (s : State) : Moves current s 0 where
  window := rfl
  sees {v} same := by
    have shown : s.current = v.current := same.current
    rw [current_apply, current_apply, shown]
    rfl

theorem moves_ahead (s : State) : Moves ahead s 0 where
  window := rfl
  sees {v} same := by
    have shown : s.ahead = v.ahead := same.ahead
    rw [ahead_apply, ahead_apply, shown]
    rfl

theorem advance_onto {v : Window} (same : s.window.Agree 2 v) :
    (s.onto v).advance = s.advance.onto v.advance := by
  have next : s.window.advance.ahead = v.advance.ahead := same 2 (Nat.le_refl 2)
  simp only [State.advance, State.onto, next]

theorem moves_advance (s : State) : Moves advance s 1 where
  window := rfl
  sees {v} same := by
    have shown : s.current = v.current := same.current
    rw [advance_apply, advance_apply, advance_onto same, shown]
    rfl

theorem moves_discard_advance (s : State) : Moves (discard advance) s 1 where
  window := rfl
  sees same := congrArg (EStateM.Result.ok ()) (advance_onto same)

/-! ### Readers in sequence -/

theorem Moves.bind_ok (first : Moves m s k) (result : m s = .ok a t) (second : Moves (f a) t l) :
    Moves (m >>= f) s (k + l) where
  window := by
    have there : t.window = Window.advance^[k] s.window := by
      have landed := first.window
      rwa [result] at landed
    rw [bind_apply, result]
    simp only
    rw [second.window, there, ← Function.iterate_add_apply, Nat.add_comm k l]
  sees {v} same := by
    have there : t.window = Window.advance^[k] s.window := by
      have landed := first.window
      rwa [result] at landed
    have inside := first.sees (same.mono (by omega))
    have behind : t.window.Agree (l + 1) (Window.advance^[k] v) := by
      rw [there]
      exact Window.Agree.iterate same
    rw [bind_apply, bind_apply, inside, result]
    show f a (t.onto (Window.advance^[k] v)) = onto (f a t) (Window.advance^[k + l] v)
    rw [second.sees behind, ← Function.iterate_add_apply, Nat.add_comm k l]

theorem Moves.bind_error (first : Moves m s k) (result : m s = .error d t) : Moves (m >>= f) s k where
  window := by
    have landed := first.window
    rw [bind_apply, result] at *
    exact landed
  sees {v} same := by
    rw [bind_apply, bind_apply, first.sees same, result]
    rfl

theorem Local.bind (first : Local m) (second : ∀ a, Local (f a)) : Local (m >>= f) := by
  intro s
  obtain ⟨k, moved⟩ := first s
  cases result : m s with
  | error d t => exact ⟨k, moved.bind_error result⟩
  | ok a t =>
    obtain ⟨l, further⟩ := second a t
    exact ⟨k + l, moved.bind_ok result further⟩

theorem Forward.bind (first : Forward m) (second : ∀ a, Forward (f a)) : Forward (m >>= f) := by
  intro s
  obtain ⟨k, landed⟩ := first s
  rw [bind_apply]
  cases result : m s with
  | error d t =>
    rw [result] at landed
    exact ⟨k, landed⟩
  | ok a t =>
    rw [result] at landed
    obtain ⟨l, further⟩ := second a t
    refine ⟨l + k, ?_⟩
    rw [Function.iterate_add_apply, ← landed]
    exact further

theorem Moves.nested {body : Reader α} (inside : Moves body s.enter k) (room : s.depth < maxDepth) :
    Moves (nested body) s k where
  window := by
    have landed := inside.window
    rw [nested_apply, if_pos room]
    cases result : body s.enter <;> rw [result] at landed <;> exact landed
  sees {v} same := by
    have there : body ((s.onto v).enter) = onto (body s.enter) (Window.advance^[k] v) := inside.sees same
    have room' : (s.onto v).depth < maxDepth := room
    rw [nested_apply, nested_apply, if_pos room, if_pos room', there]
    cases body s.enter <;> rfl

theorem Local.nested {body : Reader α} (h : Local body) : Local (nested body) := by
  intro s
  by_cases room : s.depth < maxDepth
  · obtain ⟨k, inside⟩ := h s.enter
    exact ⟨k, inside.nested room⟩
  · refine ⟨0, ?_, fun {v} same => ?_⟩
    · rw [nested_apply, if_neg room]
      rfl
    · have full : ¬ (s.onto v).depth < maxDepth := room
      have shown : s.current = v.current := same.current
      rw [nested_apply, nested_apply, if_neg room, if_neg full, shown]
      rfl

theorem closed_local : Closed Local where
  pure a s := ⟨0, moves_pure a s⟩
  throw d s := ⟨0, moves_throw d s⟩
  current s := ⟨0, moves_current s⟩
  ahead s := ⟨0, moves_ahead s⟩
  note r s := ⟨0, moves_note r s⟩
  advance s := ⟨1, moves_advance s⟩
  bind := Local.bind
  nested := Local.nested

theorem Forward.nested {body : Reader α} (h : Forward body) : Forward (nested body) := by
  intro s
  rw [nested_apply]
  by_cases room : s.depth < maxDepth
  · obtain ⟨k, landed⟩ := h s.enter
    refine ⟨k, ?_⟩
    rw [if_pos room]
    cases result : body s.enter <;> rw [result] at landed <;> exact landed
  · exact ⟨0, by rw [if_neg room]; rfl⟩

theorem closed_forward : Closed Forward where
  pure a := (closed_local.pure a).forward
  throw d := (closed_local.throw d).forward
  current := closed_local.current.forward
  ahead := closed_local.ahead.forward
  note r := (closed_local.note r).forward
  advance := closed_local.advance.forward
  bind := Forward.bind
  nested := Forward.nested

end Reader

end Parse

end LetLang
