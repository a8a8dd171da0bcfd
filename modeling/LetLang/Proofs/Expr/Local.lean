import LetLang.Proofs.Parse.Local

/-!
# Expression readers are local

Reading an expression is local (`local_parse`), whatever token it starts at. The bound on the operators
that `climb` takes is never met (`climbAll_apply`).
-/

namespace LetLang.Expr

open Parse (Reader State finalState onto)
open Parse.Reader (Moves Local Forward closed_local)
open Token (Kind Window)

variable {operand : Power → Reader Expr} {p : Power} {left : Expr} {s t : State} {d : Diagnostic} {k : Nat}

/-- Takes operators with the bound that reading an expression sets. -/
def climbAll (operand : Power → Reader Expr) (power : Power) (left : Expr) : Reader Expr := fun s =>
  climb operand power s.window.moves left s

/-! ### Operators -/

theorem ahead_ne_eof (tight : p < s.ahead.kind.power) : s.window.ahead.kind ≠ .eof := ne_eof_of_power_lt tight

/-- An operator and its right operand take at least one move more to the end. -/
theorem pending_lt_of_binary (h : ∀ q, Forward (operand q)) (tight : p < s.ahead.kind.power)
    (result : parseBinary operand left s.advance = .ok e t) : t.window.pending < s.window.pending := by
  rw [parseBinary_apply] at result
  have used : s.advance.window.advance.pending < s.window.advance.pending :=
    Window.pending_advance_lt (ahead_ne_eof tight)
  have first := s.window.pending_advance_le
  obtain ⟨k, landed⟩ := h s.advance.current.kind.power s.advance.advance
  cases inner : operand s.advance.current.kind.power s.advance.advance with
  | error d u => rw [inner] at result; contradiction
  | ok right u =>
    rw [inner] at result landed
    obtain ⟨-, rfl⟩ := EStateM.Result.ok.inj result
    have rest := Window.pending_iterate_le s.advance.advance.window k
    rw [← landed] at rest
    exact Nat.lt_of_le_of_lt rest (Nat.lt_of_lt_of_le used first)

theorem climb_stop (weak : ¬ p < s.ahead.kind.power) (moves : Nat) : climb operand p moves left s = .ok left s := by
  cases moves with
  | zero => rfl
  | succ moves => rw [climb_succ_apply, if_neg weak]

/-- The bound on the operators does not matter as long as it is great enough. -/
theorem climb_bound (h : ∀ q, Forward (operand q)) {m n : Nat} (first : s.window.pending ≤ m)
    (second : s.window.pending ≤ n) : climb operand p m left s = climb operand p n left s := by
  induction m generalizing n left s with
  | zero =>
    have weak : ¬ p < s.ahead.kind.power := fun tight =>
      ahead_ne_eof tight (Window.eof_of_pending (Nat.le_zero.1 first)).2
    rw [climb_stop weak, climb_stop weak]
  | succ m ih =>
    by_cases tight : p < s.ahead.kind.power
    · cases n with
      | zero => exact absurd (Window.eof_of_pending (Nat.le_zero.1 second)).2 (ahead_ne_eof tight)
      | succ n =>
        rw [climb_succ_apply, climb_succ_apply]
        cases result : parseBinary operand left s.advance with
        | error d t => rfl
        | ok both t =>
          have less := pending_lt_of_binary h tight result
          have rest : climb operand p m both t = climb operand p n both t := ih (by omega) (by omega)
          simp only [rest]
    · rw [climb_stop tight, climb_stop tight]

theorem climbAll_apply (h : ∀ q, Forward (operand q)) (p : Power) (left : Expr) (s : State) :
    climbAll operand p left s =
      if p < s.ahead.kind.power then
        match parseBinary operand left s.advance with
        | .ok both t => climbAll operand p both t
        | .error d t => .error d t
      else .ok left s := by
  by_cases tight : p < s.ahead.kind.power
  · have enough := s.window.pending_le_moves
    rw [climbAll, Window.moves, climb_succ_apply]
    simp only [if_pos tight]
    cases result : parseBinary operand left s.advance with
    | error d t => rfl
    | ok both t =>
      have less := pending_lt_of_binary h tight result
      exact climb_bound h (by rw [Window.moves] at enough; omega) t.window.pending_le_moves
  · rw [if_neg tight, climbAll, climb_stop tight]

/-! ### Whole expressions -/

/-- What `climbAll` does in front of an operator. -/
def climbOn (operand : Power → Reader Expr) (power : Power) (left : Expr) : Reader Expr :=
  discard Reader.advance >>= fun _ => parseBinary operand left >>= climbAll operand power

theorem climbAll_eq (h : ∀ q, Forward (operand q)) (p : Power) (left : Expr) (s : State) :
    climbAll operand p left s =
      if p < s.ahead.kind.power then climbOn operand p left s else .ok left s := by
  rw [climbAll_apply h]
  have on : climbOn operand p left s = (parseBinary operand left >>= climbAll operand p) s.advance := rfl
  rw [on, Reader.bind_apply]
  cases parseBinary operand left s.advance <;> rfl

theorem local_climbAll (h : ∀ q, Local (operand q)) (p : Power) (left : Expr) :
    Local (climbAll operand p left) := by
  have onward := fun q => (h q).forward
  intro s
  induction bound : s.window.pending using Nat.strongRecOn generalizing s left with
  | ind n ih =>
    subst bound
    by_cases tight : p < s.ahead.kind.power
    · have on : ∃ k, Moves (climbOn operand p left) s k := by
        obtain ⟨k, moved⟩ := closed_local.parseBinary h left s.advance
        cases result : parseBinary operand left s.advance with
        | error d t => exact ⟨_, (Reader.moves_discard_advance s).bind_ok rfl (moved.bind_error result)⟩
        | ok both t =>
          obtain ⟨l, rest⟩ := ih _ (pending_lt_of_binary onward tight result) both t rfl
          exact ⟨_, (Reader.moves_discard_advance s).bind_ok rfl (moved.bind_ok result rest)⟩
      obtain ⟨k, moved⟩ := on
      refine ⟨k, moved.congr (by rw [climbAll_eq onward, if_pos tight]) fun v same => ?_⟩
      have shown : s.ahead = (s.onto v).ahead := same.ahead
      rw [climbAll_eq onward, ← shown, if_pos tight]
    · refine ⟨0, (Reader.moves_pure left s).congr (by rw [climbAll_eq onward, if_neg tight]; rfl) fun v same => ?_⟩
      have shown : s.ahead = (s.onto v).ahead := same.ahead
      rw [climbAll_eq onward, ← shown, if_neg tight]
      rfl

theorem parseWith_eq (operand : Power → Reader Expr) (p : Power) :
    parseWith operand p = Reader.current >>= fun token =>
      match token.kind.opening? with
      | none => throw ⟨.noOpening token.kind, token.span⟩
      | some opening => parseOpening operand opening >>= climbAll operand p := by
  funext s
  rw [parseWith_apply, Reader.bind_apply, Reader.current_apply]
  cases kind : s.current.kind.opening? with
  | none =>
    simp only [kind]
    rfl
  | some opening =>
    simp only [kind, Reader.bind_apply]
    cases parseOpening operand opening s <;> rfl

theorem local_parseWith (h : ∀ q, Local (operand q)) (p : Power) : Local (parseWith operand p) := by
  rw [parseWith_eq]
  refine closed_local.current.bind fun token => ?_
  cases token.kind.opening? with
  | none => exact closed_local.throw _
  | some opening => exact (closed_local.parseOpening h opening).bind fun left => local_climbAll h p left

theorem local_parse (p : Power) : Local (parse p) := closed_local.parseWithin local_parseWith Parse.maxDepth p

end LetLang.Expr
