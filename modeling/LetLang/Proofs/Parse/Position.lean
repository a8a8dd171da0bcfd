import LetLang.Proofs.Program.Local
import Mathlib.Order.Monotone.Basic

/-!
# Where a parse stands

After any steps in any order, a parse stands at a token of its source. It never goes back, and what
it has answered rests on the tokens up to the one that is in view (`after_stands`).
-/

namespace LetLang.Parse

open Reader (Moves Local total closed_local)
open Token (Cursor Window)

variable {source other : String} {i k n : Nat} {s : State} {w v : Window}

/-- The `i`-th token of the source is current, the next one is in view, and the cursor gives the
following ones. -/
structure State.Stands (source : String) (i : Nat) (s : State) : Prop where
  current : s.current = Token.nth source i
  ahead : s.ahead = Token.nth source (i + 1)
  later (k : Nat) : ((fun c : Cursor => c.next.2)^[k] s.window.cursor).next.1 = Token.nth source (i + 2 + k)

/-- The answers of some actions. -/
def State.answers (s : State) : List Action → List Answer
  | [] => []
  | a :: actions => (a.run s).1 :: (a.run s).2.answers actions

theorem cursor_iterate (w : Window) (k : Nat) :
    (Window.advance^[k] w).cursor = (fun c : Cursor => c.next.2)^[k] w.cursor := by
  induction k with
  | zero => rfl
  | succ k ih =>
    rw [Function.iterate_succ_apply', Function.iterate_succ_apply', ← ih]
    rfl

theorem State.stands_of_at (h : s.window.At source i) : s.Stands source i where
  current := h.current
  ahead := h.ahead
  later k := by
    have shown := h (k + 2)
    rw [Function.iterate_succ_apply', Function.iterate_succ_apply'] at shown
    rw [← cursor_iterate, Nat.add_assoc, Nat.add_comm 2 k]
    exact shown

theorem isFinished_iff_of_at (h : s.window.At source i) :
    s.isFinished = true ↔ (Token.body source).length ≤ i := by
  rw [State.isFinished_iff, State.current, h.current, Token.nth_eof_iff]

theorem unfinished_of_at (h : s.window.At source i) (inside : i < (Token.body source).length) :
    s.isFinished = false := by
  rw [← Bool.not_eq_true, isFinished_iff_of_at h]
  exact Nat.not_le.2 inside

theorem agree_of_at (first : w.At source i) (second : v.At other i)
    (same : ∀ j ≤ i + n, Token.nth other j = Token.nth source j) : w.Agree n v := by
  intro k bound
  rw [first k, second k]
  exact (same (i + k) (Nat.add_le_add_left bound i)).symm

/-! ### One step -/

theorem Moves.answer {α : Type} {m : Reader α} (h : Moves m s k) (tell : α → Answer) :
    Moves (total (answer tell m)) s k where
  window := by
    rw [← h.window]
    unfold total Parse.answer
    cases m s <;> rfl
  sees {v} same := by
    have there := h.sees same
    unfold total Parse.answer
    rw [there]
    cases m s <;> rfl

theorem local_answer {α : Type} {m : Reader α} (h : Local m) (tell : α → Answer) :
    Local (total (answer tell m)) := by
  intro s
  obtain ⟨k, moved⟩ := h s
  exact ⟨k, Moves.answer moved tell⟩

theorem moves_enterTimes (times opened : Nat) (s : State) : Moves (total (enterTimes times opened)) s 0 := by
  induction times generalizing opened s with
  | zero => exact ⟨rfl, fun _ => rfl⟩
  | succ times ih =>
    by_cases room : s.depth < maxDepth
    · have deeper : ∀ t : State, t.depth < maxDepth →
          total (enterTimes (times + 1) opened) t = total (enterTimes times (opened + 1)) t.enter := by
        intro t room
        unfold total
        rw [enterTimes, Reader.enter_apply, if_pos room]
      have inside := ih (opened + 1) s.enter
      refine ⟨?_, fun {v} same => ?_⟩
      · rw [deeper s room]
        exact inside.window
      · rw [deeper s room, deeper (s.onto v) room]
        exact inside.sees same
    · have refused : ∀ t : State, ¬ t.depth < maxDepth → total (enterTimes (times + 1) opened) t =
          .ok (.refused ⟨.nestingTooDeep maxDepth, t.current.span⟩ opened) t := by
        intro t full
        unfold total
        rw [enterTimes, Reader.enter_apply, if_neg full]
      refine ⟨by rw [refused s room]; rfl, fun {v} same => ?_⟩
      have shown : s.current = (s.onto v).current := same.current
      rw [refused s room, refused (s.onto v) room, ← shown]
      rfl

theorem local_program : Local (total Action.program.run) := by
  have whole := Program.local_parseWith (Stmt.closed_parseWith closed_local (Expr.local_parse .lowest))
  rw [Stmt.parseWith_parse, Program.parseWith_parse] at whole
  exact whole.bind fun p => closed_local.pure (Answer.program p)

/-- Every step moves the window on, and it sees no token but those it moves over and the two in view
behind them. -/
theorem local_run (a : Action) : Local (total a.run) := by
  have operands := Expr.local_parse
  have forms : ∀ f, Local (Stmt.parseForm f) := by
    intro f
    rw [← Stmt.parseFormWith_parse]
    exact Stmt.closed_parseFormWith closed_local (operands _) f
  cases a with
  | advance => exact local_answer closed_local.advance _
  | expect kind => exact local_answer (closed_local.expect kind) _
  | enter times => exact fun s => ⟨0, moves_enterTimes times 0 s⟩
  | leave times => exact fun s => ⟨0, rfl, fun _ => rfl⟩
  | record d => exact fun s => ⟨0, rfl, fun _ => rfl⟩
  | program => exact local_program
  | stmt =>
    refine local_answer ?_ _
    rw [← Stmt.parseWith_parse]
    exact Stmt.closed_parseWith closed_local (operands _)
  | form f => exact local_answer (forms f) _
  | expr p => exact local_answer (operands p) _
  | opening o => exact local_answer (closed_local.parseOpening operands o) _
  | binary left => exact local_answer (closed_local.parseBinary operands left) _

/-! ### Any number of steps -/

theorem after_at (standing : s.window.At source i) (actions : List Action) :
    ∃ index : Nat → Nat, index 0 = i ∧ Monotone index ∧ ∀ k ≤ actions.length,
      (s.after (actions.take k)).window.At source (index k) ∧
      ∀ other v, v.At other i → (∀ j ≤ index k + 1, Token.nth other j = Token.nth source j) →
        (s.onto v).answers (actions.take k) = s.answers (actions.take k) ∧
          ∃ u, u.At other (index k) ∧
            (s.onto v).after (actions.take k) = (s.after (actions.take k)).onto u := by
  induction actions generalizing s i with
  | nil =>
    refine ⟨fun _ => i, rfl, monotone_const, fun k bound => ?_⟩
    obtain rfl : k = 0 := Nat.le_zero.1 bound
    exact ⟨standing, fun other v there _ => ⟨rfl, v, there, rfl⟩⟩
  | cons a actions ih =>
    obtain ⟨m, moved⟩ := local_run a s
    have landed : (a.run s).2.window = Window.advance^[m] s.window := moved.window
    have next : (a.run s).2.window.At source (i + m) := by
      rw [landed]
      exact standing.iterate m
    obtain ⟨later, start, rising, holds⟩ := ih next
    refine ⟨fun | 0 => i | k + 1 => later k, rfl, monotone_nat_of_le_succ ?_, ?_⟩
    · intro k
      cases k with
      | zero =>
        show i ≤ later 0
        rw [start]
        exact Nat.le_add_right i m
      | succ k => exact rising (Nat.le_succ k)
    · intro k bound
      cases k with
      | zero => exact ⟨standing, fun other v there _ => ⟨rfl, v, there, rfl⟩⟩
      | succ k =>
        obtain ⟨here, sees⟩ := holds k (Nat.le_of_succ_le_succ bound)
        refine ⟨here, fun other v there same => ?_⟩
        replace same : ∀ j ≤ later k + 1, Token.nth other j = Token.nth source j := same
        have least : i + m ≤ later k := start ▸ rising (Nat.zero_le k)
        have agree : s.window.Agree (m + 1) v := agree_of_at standing there fun j le => same j (by omega)
        have step : a.run (s.onto v) = ((a.run s).1, (a.run s).2.onto (Window.advance^[m] v)) := by
          have whole := moved.sees agree
          obtain ⟨first, second⟩ := EStateM.Result.ok.inj whole
          exact Prod.ext first second
        obtain ⟨answers, u, there', rest⟩ := sees other _ (there.iterate m) same
        refine ⟨?_, u, there', ?_⟩
        · rw [List.take_succ_cons, State.answers, State.answers, step, answers]
        · show ((a.run (s.onto v)).2).after (actions.take k) = ((a.run s).2.after (actions.take k)).onto u
          rw [step]
          exact rest

theorem ofText_onto (same : ∀ j ≤ 1, Token.nth other j = Token.nth source j) :
    State.ofText other = (State.ofText source).onto (Window.ofText other) := by
  have here := Window.at_ofText source
  have there := Window.at_ofText other
  have first : (Window.ofText other).current = (Window.ofText source).current := by
    rw [here.current, there.current]
    exact same 0 (Nat.zero_le 1)
  have second : (Window.ofText other).ahead = (Window.ofText source).ahead := by
    rw [here.ahead, there.ahead]
    exact same 1 (Nat.le_refl 1)
  simp only [State.ofText, State.onto, first, second]

/-- After any steps a parse stands at a token of its source, never in front of an earlier one, and is
finished from the end token on. Another source with the same tokens up to the one in view gives the
same answers and diagnostics. -/
theorem after_stands (source : String) (actions : List Action) :
    ∃ index : Nat → Nat, index 0 = 0 ∧ Monotone index ∧ ∀ k ≤ actions.length,
      ((State.ofText source).after (actions.take k)).Stands source (index k) ∧
      (((State.ofText source).after (actions.take k)).isFinished = true ↔
        (Token.body source).length ≤ index k) ∧
      ∀ other, (∀ j ≤ index k + 1, Token.nth other j = Token.nth source j) →
        (State.ofText other).answers (actions.take k) = (State.ofText source).answers (actions.take k) ∧
          ((State.ofText other).after (actions.take k)).diagnostics =
            ((State.ofText source).after (actions.take k)).diagnostics ∧
          ((State.ofText other).after (actions.take k)).Stands other (index k) := by
  have start : (State.ofText source).window.At source 0 := Window.at_ofText source
  obtain ⟨index, zero, rising, holds⟩ := after_at start actions
  refine ⟨index, zero, rising, fun k bound => ?_⟩
  obtain ⟨here, sees⟩ := holds k bound
  refine ⟨State.stands_of_at here, isFinished_iff_of_at here, fun other same => ?_⟩
  rw [ofText_onto fun j le => same j (by omega)]
  obtain ⟨answers, u, there, rest⟩ := sees other _ (Window.at_ofText other) same
  rw [rest]
  exact ⟨answers, rfl, State.stands_of_at there⟩

end LetLang.Parse
