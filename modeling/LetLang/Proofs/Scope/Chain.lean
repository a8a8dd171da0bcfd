import LetLang.Scope

/-!
# From a scope outwards

The scopes around a scope are older and older ones and come to an end (`exists_chain`). A name means its
binding in the nearest of them that owns one (`Chain.get?_eq_some_iff`).
-/

namespace LetLang.Scopes

variable {α : Type} {w : Scopes α} {i j o : Nat} {is js : List Nat} {name : String} {value : α}

/-- The binding of a name that scope `i` itself owns. -/
def own? (w : Scopes α) (i : Nat) (name : String) : Option α := w.list[i]?.bind (·.own? name)

/-- The scope that scope `i` lies in. -/
def outer? (w : Scopes α) (i : Nat) : Option Nat := w.list[i]?.bind (·.outer?)

/-- Scope `i`, the scope around it, the one around that and so on, up to the outermost. -/
inductive Chain (outer? : Nat → Option Nat) : Nat → List Nat → Prop where
  | outermost {i : Nat} (last : outer? i = none) : Chain outer? i [i]
  | inside {i o : Nat} {is : List Nat} (outer : outer? i = some o) (rest : Chain outer? o is) :
      Chain outer? i (i :: is)

/-! ### Outer scopes are older -/

theorem lt_of_outer? (h : w.outer? i = some o) : o < i := by
  obtain ⟨s, found, outer⟩ := Option.bind_eq_some_iff.1 h
  exact w.outer_lt i s o found outer

theorem exists_chain (w : Scopes α) (i : Nat) : ∃ is, Chain w.outer? i is := by
  induction i using Nat.strongRecOn with
  | _ i ih =>
    cases outer : w.outer? i with
    | none => exact ⟨[i], .outermost outer⟩
    | some o =>
      obtain ⟨is, chain⟩ := ih o (lt_of_outer? outer)
      exact ⟨i :: is, .inside outer chain⟩

theorem lt_of_transGen (h : Relation.TransGen (fun i o => w.outer? i = some o) i o) : o < i := by
  induction h with
  | single outer => exact lt_of_outer? outer
  | tail _ outer ih => exact Nat.lt_trans (lt_of_outer? outer) ih

theorem not_transGen_self (w : Scopes α) (i : Nat) :
    ¬ Relation.TransGen (fun i o => w.outer? i = some o) i i :=
  fun h => Nat.lt_irrefl i (lt_of_transGen h)

namespace Chain

theorem unique {outer? : Nat → Option Nat} (h : Chain outer? i is) (h' : Chain outer? i js) : is = js := by
  induction h generalizing js with
  | outermost last =>
    cases h' with
    | outermost => rfl
    | inside outer => cases last.symm.trans outer
  | inside outer _ ih =>
    cases h' with
    | outermost last => cases last.symm.trans outer
    | inside outer' rest =>
      cases outer.symm.trans outer'
      rw [ih rest]

/-- Behind the scope itself there are only scopes as old as the one around it. -/
theorem le_outer (h : Chain w.outer? i is) (member : j ∈ is) :
    j = i ∨ ∃ o, w.outer? i = some o ∧ j ≤ o := by
  induction h with
  | outermost last =>
    left
    exact List.mem_singleton.1 member
  | @inside i o is outer rest ih =>
    rcases List.mem_cons.1 member with rfl | further
    · exact .inl rfl
    · right
      refine ⟨o, outer, ?_⟩
      rcases ih further with rfl | ⟨p, outer', bound⟩
      · exact Nat.le_refl _
      · exact Nat.le_trans bound (Nat.le_of_lt (lt_of_outer? outer'))

theorem le (h : Chain w.outer? i is) (member : j ∈ is) : j ≤ i := by
  rcases h.le_outer member with rfl | ⟨o, outer, bound⟩
  · exact Nat.le_refl _
  · exact Nat.le_trans bound (Nat.le_of_lt (lt_of_outer? outer))

end Chain

/-! ### Looking a name up -/

theorem get?_eq_or (w : Scopes α) (i : Nat) (name : String) :
    w.get? i name = (w.own? i name).or ((w.outer? i).bind fun o => w.get? o name) := by
  rw [get?_eq, own?, outer?]
  cases w.list[i]? <;> rfl

theorem Chain.get?_eq (h : Chain w.outer? i is) : w.get? i name = is.findSome? (w.own? · name) := by
  induction h with
  | outermost last => rw [get?_eq_or, last, Option.bind_none, Option.or_none, List.findSome?_singleton]
  | @inside i o is outer rest ih =>
    rw [get?_eq_or, outer, Option.bind_some, ih, List.findSome?_cons]
    cases w.own? i name <;> rfl

theorem Chain.get?_eq_some_iff (h : Chain w.outer? i is) : w.get? i name = some value ↔
    ∃ near j far, is = near ++ j :: far ∧ w.own? j name = some value ∧ ∀ k ∈ near, w.own? k name = none := by
  rw [h.get?_eq]
  exact List.findSome?_eq_some_iff

theorem Chain.get?_eq_none_iff (h : Chain w.outer? i is) :
    w.get? i name = none ↔ ∀ j ∈ is, w.own? j name = none := by
  rw [h.get?_eq]
  exact List.findSome?_eq_none_iff

/-! ### What a command changes -/

theorem size_push (w : Scopes α) (s : Scope α) (h : ∀ o, s.outer? = some o → o < w.size) :
    (w.push s h).size = w.size + 1 :=
  List.length_append

theorem getElem?_push (w : Scopes α) (s : Scope α) (h : ∀ o, s.outer? = some o → o < w.size) (i : Nat) :
    (w.push s h).list[i]? = if i = w.size then some s else w.list[i]? := by
  split
  · next new =>
    rw [new]
    exact List.getElem?_concat_length
  · next old =>
    rcases Nat.lt_or_gt_of_ne old with inside | outside
    · exact List.getElem?_append_left inside
    · have outside' : (w.push s h).size ≤ i := by
        rw [size_push]
        exact outside
      rw [List.getElem?_eq_none (Nat.le_of_lt outside)]
      exact List.getElem?_eq_none outside'

theorem own?_push (w : Scopes α) (s : Scope α) (h : ∀ o, s.outer? = some o → o < w.size) (i : Nat)
    (name : String) : (w.push s h).own? i name = if i = w.size then s.own? name else w.own? i name := by
  rw [own?, getElem?_push]
  split <;> rfl

theorem outer?_push (w : Scopes α) (s : Scope α) (h : ∀ o, s.outer? = some o → o < w.size) (i : Nat) :
    (w.push s h).outer? i = if i = w.size then s.outer? else w.outer? i := by
  rw [outer?, getElem?_push]
  split <;> rfl

theorem size_set (w : Scopes α) (i : Nat) (name : String) (value : α) : (w.set i name value).size = w.size :=
  List.length_modify ..

theorem outer?_set (w : Scopes α) (i : Nat) (name : String) (value : α) :
    (w.set i name value).outer? = w.outer? := by
  funext j
  rw [outer?, outer?, set, List.getElem?_modify]
  cases w.list[j]? with
  | none => rfl
  | some s =>
    show (if i = j then s.bind name value else s).outer? = s.outer?
    split
    · exact s.outer?_bind name value
    · rfl

theorem own?_set (inside : i < w.size) (value : α) (j : Nat) (other : String) :
    (w.set i name value).own? j other = if j = i ∧ other = name then some value else w.own? j other := by
  rw [own?, own?, set, List.getElem?_modify]
  by_cases same : i = j
  · subst same
    rw [List.getElem?_eq_getElem inside]
    simp [Scope.own?_bind]
  · simp [same, Ne.symm same]

end LetLang.Scopes
