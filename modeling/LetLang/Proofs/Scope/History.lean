import LetLang.Proofs.Scope.Chain

/-!
# Scopes by their history

What a scope owns and where it lies follow from the commands so far alone: `History.own?` and
`History.outer?` read them off, and every look-up answers with them (`replies_of_history`).
-/

namespace LetLang.Scopes

variable {α : Type}

/-- The scope that a command is about. -/
def Command.scope? : Command α → Option Nat
  | .create => none
  | .enclosed i | .clone i | .set i _ _ | .get i _ => some i

/-- The commands so far, newest first. -/
abbrev History (α : Type) := List (Command α)

namespace History

/-- How many scopes there are. -/
def size : History α → Nat
  | [] => 0
  | .create :: h | .enclosed _ :: h | .clone _ :: h => size h + 1
  | .set .. :: h | .get .. :: h => size h

/-- The scope that scope `i` lies in; a clone lies where its source does. -/
def outer? : History α → Nat → Option Nat
  | [], _ => none
  | .create :: h, i => if i = size h then none else outer? h i
  | .enclosed o :: h, i => if i = size h then some o else outer? h i
  | .clone source :: h, i => if i = size h then outer? h source else outer? h i
  | .set .. :: h, i | .get .. :: h, i => outer? h i

/-- What has been set in scope `i`, newest first; a clone takes over what its source has by then. -/
def writes : History α → Nat → List (String × α)
  | [], _ => []
  | .create :: h, i | .enclosed _ :: h, i => if i = size h then [] else writes h i
  | .clone source :: h, i => if i = size h then writes h source else writes h i
  | .set j name value :: h, i => if i = j then (name, value) :: writes h i else writes h i
  | .get .. :: h, i => writes h i

/-- The latest value of a name in scope `i` itself. -/
def own? (h : History α) (i : Nat) (name : String) : Option α := (writes h i).lookup name

theorem own?_cons_set (h : History α) (j : Nat) (name : String) (value : α) (i : Nat) (other : String) :
    own? (.set j name value :: h) i other = if i = j ∧ other = name then some value else own? h i other := by
  show List.lookup other (if i = j then (name, value) :: writes h i else writes h i) =
    if i = j ∧ other = name then some value else List.lookup other (writes h i)
  by_cases here : i = j
  · by_cases same : other = name
    · simp [here, same]
    · simp [here, same, List.lookup_cons, beq_eq_false_iff_ne.2 same]
  · simp [here]

/-- Every command is about a scope that exists by then. -/
def Proper : History α → Prop
  | [] => True
  | c :: h => (∀ i ∈ c.scope?, i < size h) ∧ Proper h

instance decidableProper : (h : History α) → Decidable (Proper h)
  | [] => .isTrue trivial
  | c :: h =>
    have := decidableProper h
    inferInstanceAs (Decidable ((∀ i ∈ c.scope?, i < size h) ∧ Proper h))

theorem Proper.of_append {new h : History α} (proper : Proper (new ++ h)) : Proper h := by
  induction new with
  | nil => exact proper
  | cons c new ih => exact ih proper.2

end History

open History (Proper)

variable {w w' u : Scopes α} {h : History α} {c : Command α} {cs : List (Command α)} {reply : Reply α}
  {replies : List (Reply α)}

/-! ### One command -/

/-- What each command does, where the scope exists that it is about. -/
inductive Step (w : Scopes α) : Command α → Reply α → Scopes α → Prop where
  | create : Step w .create (.created w.size) w.create
  | enclosed {i : Nat} (inside : i < w.size) (older : ∀ o, some i = some o → o < w.size) :
      Step w (.enclosed i) (.created w.size) (w.push ⟨[], some i⟩ older)
  | clone {i : Nat} {s : Scope α} (found : w.list[i]? = some s) (older : ∀ o, s.outer? = some o → o < w.size) :
      Step w (.clone i) (.created w.size) (w.push s older)
  | set {i : Nat} {name : String} {value : α} (inside : i < w.size) :
      Step w (.set i name value) (.stored value) (w.set i name value)
  | get {i : Nat} {name : String} (inside : i < w.size) : Step w (.get i name) (.found (w.get? i name)) w

theorem step_iff : w.step? c = some (reply, w') ↔ Step w c reply w' := by
  constructor
  · intro stepped
    cases c with
    | create =>
      cases stepped
      exact .create
    | enclosed i =>
      obtain ⟨v, enclosed, same⟩ := Option.map_eq_some_iff.1 stepped
      cases same
      obtain ⟨inside, same⟩ := Option.dite_none_right_eq_some.1 enclosed
      cases same
      exact .enclosed inside _
    | clone i =>
      obtain ⟨v, cloned, same⟩ := Option.map_eq_some_iff.1 stepped
      cases same
      unfold clone? at cloned
      split at cloned
      · cases cloned
      · next s found =>
        cases cloned
        exact .clone found _
    | set i name value =>
      obtain ⟨inside, same⟩ := Option.ite_none_right_eq_some.1 stepped
      cases same
      exact .set inside
    | get i name =>
      obtain ⟨inside, same⟩ := Option.ite_none_right_eq_some.1 stepped
      cases same
      exact .get inside
  · intro step
    cases step with
    | create => rfl
    | enclosed inside => simp [step?, enclosed?, inside]
    | @clone i s found =>
      unfold step? clone?
      dsimp only
      split
      · next missing => cases missing.symm.trans found
      · next s' found' =>
        cases found'.symm.trans found
        rfl
    | set inside => simp [step?, inside]
    | get inside => simp [step?, inside]

theorem Step.inside (step : Step w c reply w') : ∀ i ∈ c.scope?, i < w.size := by
  intro i member
  cases step with
  | create => cases member
  | clone found =>
    cases member
    exact (List.getElem?_eq_some_iff.1 found).1
  | enclosed inside | set inside | get inside =>
    cases member
    exact inside

theorem exists_step (inside : ∀ i ∈ c.scope?, i < w.size) : ∃ reply w', Step w c reply w' := by
  cases c with
  | create => exact ⟨_, _, .create⟩
  | enclosed i => exact ⟨_, _, .enclosed (inside i rfl) fun o same => inside o same⟩
  | clone i =>
    have found : w.list[i]? = some (w.list.get ⟨i, inside i rfl⟩) := List.getElem?_eq_getElem (inside i rfl)
    refine ⟨_, _, .clone found fun o outer => ?_⟩
    exact Nat.lt_trans (w.outer_lt i _ o found outer) (inside i rfl)
  | set i => exact ⟨_, _, .set (inside i rfl)⟩
  | get i => exact ⟨_, _, .get (inside i rfl)⟩

/-- The scopes are those that the history tells of. -/
structure Follows (w : Scopes α) (h : History α) : Prop where
  size : w.size = h.size
  outer? : w.outer? = History.outer? h
  own? : w.own? = History.own? h

theorem follows_empty : (empty : Scopes α).Follows [] := ⟨rfl, rfl, rfl⟩

/-- A new scope, told of by where it lies and what is set in it from the start. -/
theorem Follows.push (follows : w.Follows h) {s : Scope α} (older : ∀ o, s.outer? = some o → o < w.size)
    {first : List (String × α)} (size : History.size (c :: h) = History.size h + 1)
    (outer : ∀ i, History.outer? (c :: h) i = if i = History.size h then s.outer? else History.outer? h i)
    (writes : ∀ i, History.writes (c :: h) i = if i = History.size h then first else History.writes h i)
    (own : ∀ name, s.own? name = first.lookup name) : (w.push s older).Follows (c :: h) := by
  constructor
  · rw [size_push, follows.size, size]
  · funext i
    rw [outer?_push, follows.size, follows.outer?, outer]
  · funext i name
    rw [own?_push, follows.size, follows.own?, own, History.own?, History.own?, writes]
    exact (apply_ite (List.lookup name) ..).symm

theorem Follows.step (follows : w.Follows h) (step : Step w c reply w') : w'.Follows (c :: h) := by
  cases step with
  | create => exact follows.push _ rfl (fun i => rfl) (fun i => rfl) fun name => rfl
  | enclosed => exact follows.push _ rfl (fun i => rfl) (fun i => rfl) fun name => rfl
  | @clone source s found =>
    have outer : History.outer? h source = s.outer? := by
      rw [← follows.outer?, Scopes.outer?, found, Option.bind_some]
    have own (name : String) : s.own? name = History.own? h source name := by
      rw [← follows.own?, Scopes.own?, found, Option.bind_some]
    refine follows.push _ rfl (fun i => ?_) (fun i => rfl) own
    rw [← outer]
    rfl
  | @set j name value inside =>
    constructor
    · rw [size_set, follows.size]
      rfl
    · rw [outer?_set, follows.outer?]
      rfl
    · funext i other
      rw [own?_set inside, follows.own?, History.own?_cons_set]
  | get => exact ⟨follows.size, follows.outer?, follows.own?⟩

/-! ### A run of commands -/

theorem run?_cons : w.run? (c :: cs) = some (replies, u) ↔
    ∃ reply w' rest, Step w c reply w' ∧ w'.run? cs = some (rest, u) ∧ replies = reply :: rest := by
  simp only [run?, ← step_iff]
  constructor
  · intro ran
    obtain ⟨⟨reply, w'⟩, step, ran⟩ := Option.bind_eq_some_iff.1 ran
    obtain ⟨⟨rest, u⟩, further, same⟩ := Option.bind_eq_some_iff.1 ran
    cases same
    exact ⟨reply, w', rest, step, further, rfl⟩
  · rintro ⟨reply, w', rest, step, further, rfl⟩
    simp [step, further]

theorem Follows.run (follows : w.Follows h) (ran : w.run? cs = some (replies, u)) :
    u.Follows (cs.reverse ++ h) := by
  induction cs generalizing w h replies with
  | nil =>
    cases ran
    exact follows
  | cons c cs ih =>
    obtain ⟨reply, w', rest, step, further, -⟩ := run?_cons.1 ran
    rw [List.reverse_cons, List.append_assoc]
    exact ih (follows.step step) further

/-- Commands can be carried out exactly if they are about scopes that exist. -/
theorem Follows.run_iff (follows : w.Follows h) (proper : Proper h) :
    (∃ replies u, w.run? cs = some (replies, u)) ↔ Proper (cs.reverse ++ h) := by
  induction cs generalizing w h with
  | nil => exact iff_of_true ⟨[], w, rfl⟩ proper
  | cons c cs ih =>
    rw [List.reverse_cons, List.append_assoc]
    constructor
    · rintro ⟨replies, u, ran⟩
      obtain ⟨reply, w', rest, step, further, -⟩ := run?_cons.1 ran
      have inside := step.inside
      rw [follows.size] at inside
      exact (ih (follows.step step) ⟨inside, proper⟩).1 ⟨rest, u, further⟩
    · intro proper'
      have proper'' : Proper (c :: h) := proper'.of_append
      have inside := proper''.1
      rw [← follows.size] at inside
      obtain ⟨reply, w', step⟩ := exists_step inside
      obtain ⟨rest, u, further⟩ := (ih (follows.step step) proper'').2 proper'
      exact ⟨reply :: rest, u, run?_cons.2 ⟨reply, w', rest, step, further, rfl⟩⟩

/-- A look-up is answered by the scopes that the commands before it lead to. -/
theorem Follows.answers (follows : w.Follows h) (ran : w.run? cs = some (replies, u))
    {before after : List (Command α)} {i : Nat} {name : String} (place : cs = before ++ .get i name :: after) :
    ∃ v : Scopes α, v.Follows (before.reverse ++ h) ∧
      replies[before.length]? = some (.found (v.get? i name)) := by
  subst place
  induction before generalizing w h replies with
  | nil =>
    obtain ⟨reply, w', rest, step, -, rfl⟩ := run?_cons.1 ran
    cases step
    exact ⟨w, follows, rfl⟩
  | cons c before ih =>
    obtain ⟨reply, w', rest, step, further, rfl⟩ := run?_cons.1 ran
    rw [List.reverse_cons, List.append_assoc]
    exact ih (follows.step step) further

theorem length_replies (ran : w.run? cs = some (replies, u)) : replies.length = cs.length := by
  induction cs generalizing w replies with
  | nil =>
    cases ran
    rfl
  | cons c cs ih =>
    obtain ⟨reply, w', rest, -, further, rfl⟩ := run?_cons.1 ran
    exact congrArg (· + 1) (ih further)

/-- Any commands about scopes that exist can be carried out, and no scope comes to lie around itself.
A look-up answers with the latest value of the name in the nearest scope of the chain that has one: the
chain and the values are those of the commands before it. -/
theorem replies_of_history (proper : Proper cs.reverse) :
    ∃ replies w, (empty : Scopes α).run? cs = some (replies, w) ∧ replies.length = cs.length ∧
      w.outer? = History.outer? cs.reverse ∧ w.own? = History.own? cs.reverse ∧
      (∀ i, ¬ Relation.TransGen (fun i o => w.outer? i = some o) i i) ∧
      ∀ before after i name, cs = before ++ .get i name :: after →
        ∃ is value?, Chain (History.outer? before.reverse) i is ∧
          replies[before.length]? = some (.found value?) ∧
          (∀ value, value? = some value ↔ ∃ near j far, is = near ++ j :: far ∧
            History.own? before.reverse j name = some value ∧
            ∀ k ∈ near, History.own? before.reverse k name = none) ∧
          (value? = none ↔ ∀ j ∈ is, History.own? before.reverse j name = none) := by
  have start : Proper (cs.reverse ++ []) := by
    rw [List.append_nil]
    exact proper
  obtain ⟨replies, w, ran⟩ := (follows_empty.run_iff trivial).2 start
  have follows := follows_empty.run ran
  rw [List.append_nil] at follows
  refine ⟨replies, w, ran, length_replies ran, follows.outer?, follows.own?, w.not_transGen_self, ?_⟩
  intro before after i name place
  obtain ⟨v, met, found⟩ := follows_empty.answers ran place
  rw [List.append_nil] at met
  obtain ⟨is, chain⟩ := v.exists_chain i
  rw [← met.outer?, ← met.own?]
  exact ⟨is, v.get? i name, chain, found, fun value => chain.get?_eq_some_iff, chain.get?_eq_none_iff⟩

/-- A clone keeps what its source had and sees what is set around both of them later on. -/
theorem replies_of_history_clone : ∃ replies w,
    (empty : Scopes Nat).run? [.create, .enclosed 0, .set 1 "a" 1, .clone 1, .set 1 "a" 2, .set 0 "b" 3,
      .get 2 "a", .get 2 "b", .get 2 "c"] = some (replies, w) ∧
    replies[6]? = some (.found (some 1)) ∧ replies[7]? = some (.found (some 3)) ∧
    replies[8]? = some (.found none) := by
  have proper : Proper (List.reverse [Command.create, .enclosed 0, .set 1 "a" 1, .clone 1, .set 1 "a" 2,
      .set 0 "b" 3, .get 2 "a", .get 2 "b", .get 2 "c"]) := by decide
  obtain ⟨replies, w, ran, -, -, -, -, answers⟩ := replies_of_history proper
  obtain ⟨_, a, chain, foundA, nearestA, -⟩ := answers [_, _, _, _, _, _] _ 2 "a" rfl
  obtain rfl : _ = [2, 0] := chain.unique (.inside rfl (.outermost rfl))
  obtain ⟨_, b, chain, foundB, nearestB, -⟩ := answers [_, _, _, _, _, _, _] _ 2 "b" rfl
  obtain rfl : _ = [2, 0] := chain.unique (.inside rfl (.outermost rfl))
  obtain ⟨_, c, chain, foundC, -, noneC⟩ := answers [_, _, _, _, _, _, _, _] _ 2 "c" rfl
  obtain rfl : _ = [2, 0] := chain.unique (.inside rfl (.outermost rfl))
  obtain rfl : a = some 1 := (nearestA 1).2 ⟨[], 2, [0], rfl, rfl, nofun⟩
  obtain rfl : b = some 3 := (nearestB 3).2 ⟨[2], 0, [], rfl, rfl, by decide⟩
  obtain rfl : c = none := noneC.2 (by decide)
  exact ⟨replies, w, ran, foundA, foundB, foundC⟩

end LetLang.Scopes
