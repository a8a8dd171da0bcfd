import LetLang.Proofs.Scope.History

/-!
# Where a write shows

A write shows exactly in the scopes whose search for the name gets as far as the scope written to
(`get?_after_set`). So it does not show in the scopes around that one, and a clone and its source never
see each other's writes.
-/

namespace LetLang.Scopes

variable {α : Type} {w w' : Scopes α} {i j o c source : Nat} {is : List Nat} {name other : String} {value : α}

/-- Scope `i` is on the chain of scope `j`, and no nearer scope owns the name. -/
def Shows (w : Scopes α) (i : Nat) (name : String) (j : Nat) : Prop :=
  ∃ near far, Chain w.outer? j (near ++ i :: far) ∧ ∀ k ∈ near, w.own? k name = none

theorem shows_iff : w.Shows i name j ↔
    j = i ∨ w.own? j name = none ∧ ∃ o, w.outer? j = some o ∧ w.Shows i name o := by
  constructor
  · rintro ⟨near, far, chain, bare⟩
    generalize listed : near ++ i :: far = is at chain
    cases near with
    | nil =>
      left
      cases chain with
      | outermost | inside => exact (List.cons.inj listed).1.symm
    | cons k near =>
      right
      cases chain with
      | outermost => cases near <;> cases listed
      | inside outer rest =>
        obtain ⟨rfl, rfl⟩ := List.cons.inj listed
        obtain ⟨first, bare⟩ := List.forall_mem_cons.1 bare
        exact ⟨first, _, outer, near, far, rest, bare⟩
  · rintro (rfl | ⟨first, o, outer, near, far, chain, bare⟩)
    · obtain ⟨is, chain⟩ := w.exists_chain j
      cases chain with
      | outermost last => exact ⟨[], [], .outermost last, nofun⟩
      | inside outer rest => exact ⟨[], _, .inside outer rest, nofun⟩
    · exact ⟨j :: near, far, .inside outer chain, List.forall_mem_cons.2 ⟨first, bare⟩⟩

/-! ### The meaning of a name after a write -/

theorem Shows.get?_set (shown : w.Shows i name j) (inside : i < w.size) :
    (w.set i name value).get? j name = some value := by
  induction j using Nat.strongRecOn with
  | _ j ih =>
    rw [get?_eq_or, own?_set inside, outer?_set]
    by_cases here : j = i
    · rw [if_pos ⟨here, rfl⟩, Option.some_or]
    · obtain ⟨bare, o, outer, further⟩ := (shows_iff.1 shown).resolve_left here
      rw [if_neg (fun both => here both.1), bare, outer, Option.none_or, Option.bind_some]
      exact ih o (lt_of_outer? outer) further

theorem get?_set_of_not_shows (inside : i < w.size) (hidden : ¬ (other = name ∧ w.Shows i name j)) :
    (w.set i name value).get? j other = w.get? j other := by
  induction j using Nat.strongRecOn with
  | _ j ih =>
    have elsewhere : ¬ (j = i ∧ other = name) := fun both => hidden ⟨both.2, shows_iff.2 (.inl both.1)⟩
    rw [get?_eq_or, get?_eq_or w, own?_set inside, outer?_set, if_neg elsewhere]
    cases own : w.own? j other with
    | some found => rfl
    | none =>
      cases outer : w.outer? j with
      | none => rfl
      | some o =>
        refine ih o (lt_of_outer? outer) fun both => hidden ⟨both.1, ?_⟩
        rw [both.1] at own
        exact shows_iff.2 (.inr ⟨own, o, outer, both.2⟩)

/-! ### Where it cannot show -/

theorem not_shows_outer (chain : Chain w.outer? i is) (member : o ∈ is) (distinct : o ≠ i) :
    ¬ w.Shows i name o := by
  rintro ⟨near, far, chain', -⟩
  have older := chain.le member
  have newer := chain'.le (j := i) (by simp)
  omega

/-- Scopes that lie in the same scope do not see each other. -/
theorem not_shows_beside (beside : w.outer? i = w.outer? j) (distinct : i ≠ j) : ¬ w.Shows i name j := by
  rintro ⟨near, far, chain, -⟩
  rcases chain.le_outer (j := i) (by simp) with same | ⟨o, outer, newer⟩
  · exact distinct same
  · have older := lt_of_outer? (beside.trans outer)
    omega

/-- What shows in a scope from outside of it shows in a scope beside it, too. -/
theorem Shows.beside (shown : w.Shows i name j) (outside : j ≠ i) (beside : w.outer? c = w.outer? j)
    (bare : w.own? c name = none) : w.Shows i name c := by
  obtain ⟨-, o, outer, further⟩ := (shows_iff.1 shown).resolve_left outside
  exact shows_iff.2 (.inr ⟨bare, o, beside.trans outer, further⟩)

/-! ### Clones -/

namespace History

/-- The scope that scope `i` is a clone of. -/
def source? : History α → Nat → Option Nat
  | [], _ => none
  | .create :: h, i | .enclosed _ :: h, i => if i = size h then none else source? h i
  | .clone source :: h, i => if i = size h then some source else source? h i
  | .set .. :: h, i | .get .. :: h, i => source? h i

theorem Proper.outer?_source {h : History α} (proper : Proper h) (clone : source? h c = some source) :
    source < c ∧ c < size h ∧ outer? h c = outer? h source := by
  induction h with
  | nil => cases clone
  | cons command h ih =>
    obtain ⟨inside, proper⟩ := proper
    cases command with
    | create | enclosed =>
      obtain ⟨old, clone⟩ := Option.ite_none_left_eq_some.1 clone
      obtain ⟨older, known, shared⟩ := ih proper clone
      refine ⟨older, Nat.lt_succ_of_lt known, ?_⟩
      have old' : source ≠ size h := by omega
      simp only [outer?, old, old', if_false, shared]
    | clone j =>
      have known' := inside j rfl
      unfold source? at clone
      split at clone
      · next new =>
        cases clone
        have old : source ≠ size h := by omega
        refine ⟨by omega, by rw [new]; exact Nat.lt_succ_self _, ?_⟩
        simp only [outer?, new, old, if_true, if_false]
      · next old =>
        obtain ⟨older, known, shared⟩ := ih proper clone
        have old' : source ≠ size h := by omega
        refine ⟨older, Nat.lt_succ_of_lt known, ?_⟩
        simp only [outer?, old, old', if_false, shared]
    | set | get => exact ih proper clone

end History

variable {cs : List (Command α)} {reply : Reply α} {replies : List (Reply α)}

/-- After a write in scope `i`, the scopes where it shows mean the value by the name, and nothing else has
changed. So a clone and its source do not see each other's writes and a scope around `i` sees none of
its writes, while what shows in a scope within `i` shows in its clones, unless they own the name. -/
theorem get?_after_set (reached : (empty : Scopes α).run? cs = some (replies, w))
    (stored : w.step? (.set i name value) = some (reply, w')) :
    (∀ j, w.Shows i name j → w'.get? j name = some value) ∧
      (∀ j other, ¬ (other = name ∧ w.Shows i name j) → w'.get? j other = w.get? j other) ∧
      (∀ c source, History.source? cs.reverse c = some source →
        (i = c → ∀ other, w'.get? source other = w.get? source other) ∧
        (i = source → ∀ other, w'.get? c other = w.get? c other)) ∧
      (∀ is, Chain w.outer? i is → ∀ o ∈ is, o ≠ i → ∀ other, w'.get? o other = w.get? o other) ∧
      (∀ j c, w.Shows i name j → j ≠ i → History.source? cs.reverse c = some j → w.own? c name = none →
        w'.get? c name = some value) := by
  have follows := follows_empty.run reached
  have proper := (follows_empty.run_iff trivial).1 ⟨replies, w, reached⟩
  rw [List.append_nil] at follows proper
  have beside : ∀ {c source}, History.source? cs.reverse c = some source →
      c ≠ source ∧ w.outer? c = w.outer? source := by
    intro c source clone
    obtain ⟨older, -, shared⟩ := proper.outer?_source clone
    rw [follows.outer?]
    exact ⟨Nat.ne_of_gt older, shared⟩
  cases step_iff.1 stored with
  | set inside =>
    refine ⟨fun j shown => shown.get?_set inside, fun j other => get?_set_of_not_shows inside, ?_, ?_, ?_⟩
    · intro c source clone
      obtain ⟨distinct, shared⟩ := beside clone
      constructor
      · rintro rfl other
        exact get?_set_of_not_shows inside fun both => not_shows_beside shared distinct both.2
      · rintro rfl other
        exact get?_set_of_not_shows inside fun both => not_shows_beside shared.symm distinct.symm both.2
    · intro is chain o member distinct other
      exact get?_set_of_not_shows inside fun both => not_shows_outer chain member distinct both.2
    · intro j c shown outside clone bare
      exact (shown.beside outside (beside clone).2 bare).get?_set inside

/-- The write shows in a scope within and in its clone, but not where the name has a nearer binding. -/
theorem get?_after_set_clone : ∃ replies w w',
    (empty : Scopes Nat).run? [.create, .set 0 "a" 1, .enclosed 0, .clone 1, .enclosed 1, .set 3 "a" 2] =
      some (replies, w) ∧
    w.step? (.set 0 "a" 3) = some (.stored 3, w') ∧ w'.get? 1 "a" = some 3 ∧ w'.get? 2 "a" = some 3 ∧
    w'.get? 3 "a" = w.get? 3 "a" := by
  obtain ⟨replies, w, reached⟩ : ∃ replies w, (empty : Scopes Nat).run? [.create, .set 0 "a" 1, .enclosed 0,
      .clone 1, .enclosed 1, .set 3 "a" 2] = some (replies, w) := ⟨_, _, rfl⟩
  have follows := follows_empty.run reached
  have inside : 0 < w.size := by
    rw [follows.size]
    decide
  have stored : w.step? (.set 0 "a" 3) = some (.stored 3, w.set 0 "a" 3) := step_iff.2 (.set inside)
  obtain ⟨seen, kept, -, -, cloned⟩ := get?_after_set reached stored
  have shown : w.Shows 0 "a" 1 := by
    rw [Shows, follows.outer?, follows.own?]
    exact ⟨[1], [], .inside rfl (.outermost rfl), by decide⟩
  have bare : w.own? 2 "a" = none := by
    rw [follows.own?]
    rfl
  have owned : w.own? 3 "a" = some 2 := by
    rw [follows.own?]
    rfl
  refine ⟨replies, w, _, reached, stored, seen 1 shown, cloned 1 2 shown (by decide) rfl bare, kept 3 "a" ?_⟩
  rintro ⟨-, hidden⟩
  rcases shows_iff.1 hidden with same | ⟨free, -⟩
  · cases same
  · cases owned.symm.trans free

end LetLang.Scopes
