/-!
Variable scopes. A scope owns bindings and may lie in an outer scope, which it shares with every
other scope that lies there. A name means its binding in the nearest scope that owns one; a write
always lands in the scope itself.

Scopes are numbered in the order of their creation, and an outer scope is older than the scopes in
it, so a search outwards ends.
-/

namespace LetLang

structure Scope (α : Type) where
  /-- Newest first; an older binding of a name is hidden by a newer one. -/
  bindings : List (String × α) := []
  /-- The number of the outer scope. -/
  outer? : Option Nat := none

namespace Scope

variable {α : Type}

/-- The binding that the scope itself owns. -/
def own? (s : Scope α) (name : String) : Option α := s.bindings.lookup name

def bind (s : Scope α) (name : String) (value : α) : Scope α :=
  { s with bindings := (name, value) :: s.bindings }

@[simp] theorem outer?_bind (s : Scope α) (name : String) (value : α) :
    (s.bind name value).outer? = s.outer? := rfl

theorem own?_bind (s : Scope α) (name other : String) (value : α) :
    (s.bind name value).own? other = if other = name then some value else s.own? other := by
  simp only [own?, bind, List.lookup_cons]
  by_cases h : other = name
  · simp [h]
  · simp [h, beq_eq_false_iff_ne.2 h]

end Scope

structure Scopes (α : Type) where
  list : List (Scope α) := []
  outer_lt : ∀ (i : Nat) (s : Scope α) (o : Nat), list[i]? = some s → s.outer? = some o → o < i := by simp

namespace Scopes

variable {α : Type}

def empty : Scopes α := {}

def size (w : Scopes α) : Nat := w.list.length

/-- The meaning of a name in scope `i`. -/
def get? (w : Scopes α) (i : Nat) (name : String) : Option α :=
  match _hs : w.list[i]? with
  | none => none
  | some s =>
    match s.own? name with
    | some value => some value
    | none =>
      match _ho : s.outer? with
      | none => none
      | some o => w.get? o name
termination_by i
decreasing_by exact w.outer_lt i s o _hs _ho

theorem get?_eq (w : Scopes α) (i : Nat) (name : String) :
    w.get? i name = w.list[i]?.bind fun s =>
      (s.own? name).or (s.outer?.bind fun o => w.get? o name) := by
  rw [get?]
  split
  · next h => rw [h, Option.bind_none]
  · next s h =>
    rw [h, Option.bind_some]
    split
    · next ho => rw [ho, Option.some_or]
    · next hown =>
      rw [hown, Option.none_or]
      split
      · next ho => rw [ho, Option.bind_none]
      · next ho => rw [ho, Option.bind_some]

/-- A new scope with the last number. -/
def push (w : Scopes α) (s : Scope α) (h : ∀ o, s.outer? = some o → o < w.size) : Scopes α where
  list := w.list ++ [s]
  outer_lt := by
    intro i t o ht ho
    rw [List.getElem?_append] at ht
    split at ht
    · exact w.outer_lt i t o ht ho
    · next hi =>
      have hlen : w.list.length ≤ i := Nat.le_of_not_lt hi
      rw [List.getElem?_singleton] at ht
      split at ht
      · obtain rfl := Option.some.inj ht
        exact Nat.lt_of_lt_of_le (h o ho) hlen
      · exact absurd ht (by simp)

/-- A scope with nothing around it, which is also the default one. -/
def create (w : Scopes α) : Scopes α := w.push {} (by simp)

/-- A scope inside scope `i`. -/
def enclosed? (w : Scopes α) (i : Nat) : Option (Scopes α) :=
  if h : i < w.size then some (w.push ⟨[], some i⟩ (by simpa using h)) else none

/-- A scope with the bindings of scope `i` at this moment, inside the same outer scope. -/
def clone? (w : Scopes α) (i : Nat) : Option (Scopes α) :=
  match h : w.list[i]? with
  | none => none
  | some s =>
    some (w.push s fun o ho =>
      Nat.lt_trans (w.outer_lt i s o h ho) (List.getElem?_eq_some_iff.1 h).1)

def set (w : Scopes α) (i : Nat) (name : String) (value : α) : Scopes α where
  list := w.list.modify i (·.bind name value)
  outer_lt := by
    intro j t o ht ho
    rw [List.getElem?_modify] at ht
    obtain ⟨s, hs, rfl⟩ := Option.map_eq_some_iff.1 ht
    refine w.outer_lt j s o hs ?_
    split at ho <;> simpa using ho

inductive Command (α : Type) where
  | create
  | enclosed (i : Nat)
  | clone (i : Nat)
  | set (i : Nat) (name : String) (value : α)
  | get (i : Nat) (name : String)

inductive Reply (α : Type) where
  | created (i : Nat)
  | stored (value : α)
  | found (value? : Option α)

/-- Carries out a command; `none` for a scope that does not exist. -/
def step? (w : Scopes α) : Command α → Option (Reply α × Scopes α)
  | .create => some (.created w.size, w.create)
  | .enclosed i => (w.enclosed? i).map fun w' => (.created w.size, w')
  | .clone i => (w.clone? i).map fun w' => (.created w.size, w')
  | .set i name value => if i < w.size then some (.stored value, w.set i name value) else none
  | .get i name => if i < w.size then some (.found (w.get? i name), w) else none

/-- Carries out commands one after the other; `none` if one of them names a missing scope. -/
def run? (w : Scopes α) : List (Command α) → Option (List (Reply α) × Scopes α)
  | [] => some ([], w)
  | c :: cs => do
    let (reply, w) ← w.step? c
    let (replies, w) ← w.run? cs
    return (reply :: replies, w)

end Scopes

end LetLang
