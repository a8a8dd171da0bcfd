import LetLang.Proofs.Expr.Grammar

/-!
# Forms that nest too deep

A form that nests deeper than the levels left is not read, and the diagnostic says so
(`Spells.tooDeep`). With `parse_ok_iff` this tells how every form is read.
-/

namespace LetLang.Expr

open Parse (State)
open Token (Kind Window)

variable {s t : State} {p : Power} {e : Expr} {root : Option Power} {ts : List Token} {n : Nat} {v : Window}

/-- The task ends in the diagnostic about nesting. -/
def TooDeep (task : Task) (s : State) : Prop :=
  ∃ d t, Run task s (.error d t) ∧ d.fault = .nestingTooDeep Parse.maxDepth

theorem TooDeep.here (full : ¬ s.depth < Parse.maxDepth) : TooDeep (.whole p) s := ⟨_, _, .tooDeep full, rfl⟩

theorem TooDeep.whole (inside : s.depth < Parse.maxDepth → TooDeep (.body p) s.enter) :
    TooDeep (.whole p) s := by
  by_cases room : s.depth < Parse.maxDepth
  · obtain ⟨d, t, run, fault⟩ := inside room
    exact ⟨d, t.leave, .whole room run, fault⟩
  · exact .here room

theorem TooDeep.unary (kind : s.current.kind = .bang ∨ s.current.kind = .minus)
    (operand : TooDeep (.whole .unary) s.advance) : TooDeep (.body p) s := by
  obtain ⟨d, t, run, fault⟩ := operand
  exact ⟨d, t, .openingFails (.unaryFails (opening?_eq_unary.2 kind) run), fault⟩

theorem TooDeep.group (kind : s.current.kind = .openParen) (inner : TooDeep (.whole .lowest) s.advance) :
    TooDeep (.body p) s := by
  obtain ⟨d, t, run, fault⟩ := inner
  exact ⟨d, t, .openingFails (.groupFails (opening?_eq_group.2 kind) run), fault⟩

/-- Reading a form that needs more levels than are left fails for that reason. -/
theorem Derives.tooDeep (h : Derives root ts e n) (numeric : s.window.Numeric) (moved : s.window.Reads ts v)
    (room : s.depth ≤ Parse.maxDepth) (deep : Parse.maxDepth + 1 < n + s.depth)
    (tighter : ∀ q ∈ root, p < q) (weak : ∀ q ∈ root, v.ahead.kind.power ≤ q) : TooDeep (.body p) s := by
  induction h generalizing s v p with
  | ident | int | bool => omega
  | @unary x ts e n kind operand ih =>
    have first := moved.first_ne_eof
    obtain ⟨rfl, further⟩ := Window.reads_cons moved operand.ne_nil
    refine .unary kind (.whole fun inside => ?_)
    have deeper : s.advance.enter.depth = s.depth + 1 := rfl
    exact ih (numeric.passes (.step first)) further inside (by omega) (by simp) (by simp)
  | @group a b root ts e n opened closed above inner ih =>
    have first := moved.first_ne_eof
    obtain ⟨rfl, further⟩ := Window.reads_cons moved (by simp)
    obtain ⟨u, within, rfl, rfl⟩ := Window.reads_concat further inner.ne_nil
    refine .group opened (.whole fun inside => ?_)
    have deeper : s.advance.enter.depth = s.depth + 1 := rfl
    have low : u.ahead.kind.power = .lowest := by rw [closed]; rfl
    exact ih (numeric.passes (.step first)) within inside (by omega) above
      (by rw [low]; exact fun q _ => Nat.zero_le q.rank)
  | @binary o lroot ls l m rroot rs r n operator atLeast left above right first second =>
    obtain ⟨u, before, rfl, after⟩ := Window.reads_binary moved left.ne_nil right.ne_nil
    have tight : p < u.ahead.kind.power := tighter _ rfl
    have tighter' : ∀ q ∈ lroot, p < q := fun q member => Nat.lt_of_lt_of_le tight (atLeast q member)
    by_cases fits : m + s.depth ≤ Parse.maxDepth + 1
    · -- The left operand is read, so the right one is what nests too deep.
      obtain ⟨t, rfl, same, inside⟩ := left.run numeric before fits tighter' atLeast
      have onto := (Window.Passes.step before.last_ne_eof).trans (.step (ne_eof_of_power_lt tight))
      obtain ⟨front, -, -, passed⟩ := id before
      have right : TooDeep (.whole t.ahead.kind.power) t.advance.advance := by
        refine .whole fun room => ?_
        have deeper : t.advance.advance.enter.depth = s.depth + 1 := by rw [← same]; rfl
        exact second ((numeric.passes passed).passes onto) after room (by omega) above
          (fun q member => Nat.le_trans (weak _ rfl) (Nat.le_of_lt (above q member)))
      obtain ⟨d, t', run, fault⟩ := right
      exact ⟨d, t', inside _ (.stepFails tight run), fault⟩
    · exact first numeric before room (by omega) tighter' atLeast

/-- With `parse_ok_iff`: where an expression is spelled, only its nesting can keep it from being read. -/
theorem Spells.tooDeep (h : Spells p ts e n) (numeric : s.window.Numeric) (moved : s.window.Reads ts v)
    (deep : Parse.maxDepth < n + s.depth) (weak : v.ahead.kind.power ≤ p) : TooDeep (.whole p) s := by
  obtain ⟨root, tighter, derived⟩ := h
  refine .whole fun room => ?_
  have deeper : s.enter.depth = s.depth + 1 := rfl
  exact derived.tooDeep numeric moved room (by omega) tighter
    (fun q member => Nat.le_trans weak (Nat.le_of_lt (tighter q member)))

end LetLang.Expr
