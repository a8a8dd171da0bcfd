import LetLang.Proofs.Expr.Hull
import LetLang.Proofs.Expr.Lockstep

/-!
# The core of a form

Without the parentheses around it, a form of an expression runs from the first token of the tree to the
last one. This core is a form of the expression too, unless it cuts through parentheses
(`Derives.exists_core`).
-/

namespace LetLang

open Token (Kind Balanced nest)

namespace Token

variable {ts us opens closes : List Token} {t : Token} {depth after k : Nat}

theorem nest_add (h : t.nest depth = some after) (k : Nat) : t.nest (depth + k) = some (after + k) := by
  unfold nest at h ⊢
  cases depth <;> grind

theorem foldlM_nest_append {p : Nat} (h : (ts ++ us).foldlM nest p = some after) :
    ∃ q, ts.foldlM nest p = some q ∧ us.foldlM nest q = some after := by
  rw [List.foldlM_append] at h
  exact Option.bind_eq_some_iff.1 h

/-- What closes no more than it may does so with more parentheses open around it. -/
theorem foldlM_nest_add (h : ts.foldlM nest depth = some after) (k : Nat) :
    ts.foldlM nest (depth + k) = some (after + k) := by
  induction ts generalizing depth with
  | nil =>
    obtain rfl := Option.some.inj h
    rfl
  | cons t ts ih =>
    obtain ⟨next, first, rest⟩ := Option.bind_eq_some_iff.1 h
    exact Option.bind_eq_some_iff.2 ⟨next + k, nest_add first k, ih rest⟩

theorem foldlM_nest_opens (all : ∀ t ∈ opens, t.kind = .openParen) (depth : Nat) :
    opens.foldlM nest depth = some (depth + opens.length) := by
  induction opens generalizing depth with
  | nil => rfl
  | cons t opens ih =>
    obtain ⟨kind, rest⟩ := List.forall_mem_cons.1 all
    have first : t.nest depth = some (depth + 1) := by simp [nest, kind]
    rw [List.foldlM_cons, first, List.length_cons, Nat.add_comm opens.length, ← Nat.add_assoc]
    exact ih rest (depth + 1)

/-- Of balanced tokens, those behind parentheses that they start with close too many. -/
theorem eq_nil_of_opens (all : ∀ t ∈ opens, t.kind = .openParen) (whole : Balanced (opens ++ ts))
    (h : ts.foldlM nest 0 = some after) : opens = [] := by
  have more := foldlM_nest_add h opens.length
  obtain ⟨inner, first, second⟩ := foldlM_nest_append whole
  obtain rfl := Option.some.inj ((foldlM_nest_opens all 0).symm.trans first)
  have same := Option.some.inj (more.symm.trans second)
  exact List.length_eq_zero_iff.1 (Nat.add_eq_zero_iff.1 same).2

theorem eq_nil_of_closes (all : ∀ t ∈ closes, t.kind = .closeParen) (whole : Balanced (ts ++ closes))
    (h : Balanced ts) : closes = [] := by
  obtain ⟨inner, first, second⟩ := foldlM_nest_append whole
  obtain rfl := Option.some.inj (h.symm.trans first)
  cases closes with
  | nil => rfl
  | cons t closes => simp [nest, (List.forall_mem_cons.1 all).1] at second

end Token

namespace Expr

variable {e m : Expr} {root : Option Power} {ts opens core closes : List Token} {t : Token} {n : Nat}

theorem Derives.above_lowest (h : Derives root ts e n) : ∀ q ∈ root, Power.lowest < q := by
  cases h with
  | binary operator =>
    rintro q ⟨⟩
    exact lowest_lt_iff.2 operator
  | _ => simp

theorem Derives.opening (h : Derives root ts e n) : ∀ t ∈ ts.head?, t.kind.opening? ≠ none := by
  induction h with
  | ident kind | int kind => simp [Kind.opening?, kind]
  | bool kind | unary kind => rcases kind with kind | kind <;> simp [Kind.opening?, kind]
  | group opened => simp [Kind.opening?, opened]
  | binary operator atLeast left tighter right first second =>
    rw [List.head?_append_of_ne_nil _ left.ne_nil]
    exact first

/-- The core runs from the first token of the tree to the last one, between parentheses. -/
structure IsCore (e : Expr) (opens core closes : List Token) : Prop where
  opens : ∀ t ∈ opens, t.kind = .openParen
  closes : ∀ t ∈ closes, t.kind = .closeParen
  head : core.head? = e.flat.head?
  last : core.getLast? = e.flat.getLast?

theorem IsCore.ne_nil (h : IsCore e opens core closes) : core ≠ [] := by
  have nonempty := e.flat_ne_nil
  rintro rfl
  exact nonempty (List.head?_eq_none_iff.1 h.head.symm)

theorem isCore_leaf (h : e.flat = [t]) : IsCore e [] [t] [] := ⟨by simp, by simp, by rw [h], by rw [h]⟩

/-- The tokens of a form are those of a core between parentheses. Where the core has balanced parentheses
of its own, it is a form of the same expression. -/
theorem Derives.exists_core (h : Derives root ts e n) :
    ∃ opens core closes, ts = opens ++ core ++ closes ∧ IsCore e opens core closes ∧
      (Balanced core → ∃ root' n', n' ≤ n ∧ Derives root' core e n') := by
  induction h with
  | ident kind => exact ⟨[], _, [], rfl, isCore_leaf rfl, fun _ => ⟨_, _, Nat.le_refl _, .ident kind⟩⟩
  | int kind fits => exact ⟨[], _, [], rfl, isCore_leaf rfl, fun _ => ⟨_, _, Nat.le_refl _, .int kind fits⟩⟩
  | bool kind => exact ⟨[], _, [], rfl, isCore_leaf rfl, fun _ => ⟨_, _, Nat.le_refl _, .bool kind⟩⟩
  | @unary t ts operand n kind inner ih =>
    obtain ⟨opens, core, closes, rfl, shape, -⟩ := ih
    have whole : Derives _ _ _ _ := .unary kind inner
    rw [← List.cons_append] at whole
    refine ⟨[], t :: (opens ++ core), closes, rfl, ⟨by simp, shape.closes, rfl, ?_⟩, fun balanced => ?_⟩
    · rw [flat, ← List.singleton_append, ← List.append_assoc, List.getLast?_append_of_ne_nil _ shape.ne_nil,
        shape.last, ← List.singleton_append, List.getLast?_append_of_ne_nil _ operand.flat_ne_nil]
    · obtain rfl := Token.eq_nil_of_closes shape.closes (whole.nest_eq 0) balanced
      rw [List.append_nil] at whole
      exact ⟨_, _, Nat.le_refl _, whole⟩
  | @group a b root ts e n opened closed tighter inner ih =>
    obtain ⟨opens, core, closes, rfl, shape, derived⟩ := ih
    refine ⟨a :: opens, core, closes ++ [b], by simp, ⟨List.forall_mem_cons.2 ⟨opened, shape.opens⟩,
      List.forall_mem_append.2 ⟨shape.closes, by simpa using closed⟩, shape.head, shape.last⟩, fun balanced => ?_⟩
    obtain ⟨root', n', bound, form⟩ := derived balanced
    exact ⟨root', n', by omega, form⟩
  | @binary o lroot ls left m rroot rs right n operator atLeast first tighter second ih ih' =>
    obtain ⟨opens, core, closes, rfl, shape, -⟩ := ih
    obtain ⟨opens', core', closes', rfl, shape', -⟩ := ih'
    have whole : Derives _ _ _ _ := .binary operator atLeast first tighter second
    refine ⟨opens, core ++ closes ++ o :: (opens' ++ core'), closes', by simp, ⟨shape.opens, shape'.closes, ?_, ?_⟩,
      fun balanced => ?_⟩
    · rw [flat, List.append_assoc, List.head?_append_of_ne_nil _ shape.ne_nil, shape.head,
        List.head?_append_of_ne_nil _ left.flat_ne_nil]
    · rw [flat, ← List.cons_append, ← List.append_assoc, List.getLast?_append_of_ne_nil _ shape'.ne_nil, shape'.last,
        ← List.singleton_append, ← List.append_assoc, List.getLast?_append_of_ne_nil _ right.flat_ne_nil]
    · -- The left operand needs the parentheses in front, and the whole needs those behind.
      obtain ⟨_, before, -⟩ := Token.foldlM_nest_append balanced
      have balancedLeft := first.nest_eq 0
      rw [List.append_assoc] at balancedLeft
      obtain rfl := Token.eq_nil_of_opens shape.opens balancedLeft before
      rw [← List.cons_append, ← List.append_assoc, List.nil_append] at whole
      obtain rfl := Token.eq_nil_of_closes shape'.closes (whole.nest_eq 0) balanced
      rw [List.append_nil] at whole
      exact ⟨_, _, Nat.le_refl _, whole⟩

theorem Derives.part (h : Derives root ts e n) (part : m ∈ e.nodes) :
    ∃ root' us k, us <:+: ts ∧ Derives root' us m k ∧ k ≤ n := by
  induction h with
  | ident kind =>
    obtain rfl := List.mem_singleton.1 part
    exact ⟨_, _, _, List.infix_refl _, .ident kind, Nat.le_refl _⟩
  | int kind fits =>
    obtain rfl := List.mem_singleton.1 part
    exact ⟨_, _, _, List.infix_refl _, .int kind fits, Nat.le_refl _⟩
  | bool kind =>
    obtain rfl := List.mem_singleton.1 part
    exact ⟨_, _, _, List.infix_refl _, .bool kind, Nat.le_refl _⟩
  | unary kind operand ih =>
    rcases List.mem_cons.1 part with rfl | below
    · exact ⟨_, _, _, List.infix_refl _, .unary kind operand, Nat.le_refl _⟩
    · obtain ⟨root', us, k, inside, form, bound⟩ := ih below
      exact ⟨root', us, k, inside.trans (List.suffix_cons ..).isInfix, form, by omega⟩
  | group opened closed tighter inner ih =>
    obtain ⟨root', us, k, inside, form, bound⟩ := ih part
    refine ⟨root', us, k, inside.trans ?_, form, by omega⟩
    exact (List.suffix_cons ..).isInfix.trans (List.prefix_append ..).isInfix
  | binary operator atLeast left tighter right first second =>
    rcases List.mem_cons.1 part with rfl | below
    · exact ⟨_, _, _, List.infix_refl _, .binary operator atLeast left tighter right, Nat.le_refl _⟩
    rcases List.mem_append.1 below with below | below
    · obtain ⟨root', us, k, inside, form, bound⟩ := first below
      exact ⟨root', us, k, inside.trans (List.prefix_append ..).isInfix, form, by omega⟩
    · obtain ⟨root', us, k, inside, form, bound⟩ := second below
      refine ⟨root', us, k, inside.trans ?_, form, by omega⟩
      exact (List.suffix_cons ..).isInfix.trans (List.suffix_append ..).isInfix

/-- A form of tokens that stand elsewhere is a form of the tokens themselves. -/
theorem Derives.of_map {g : Span → Span} (h : Derives root (ts.map (Token.mapSpan g)) e n) :
    ∃ e', Derives root ts e' n ∧ e'.mapSpan g = e := by
  generalize same : ts.map (Token.mapSpan g) = us at h
  induction h generalizing ts with
  | ident kind =>
    obtain ⟨t, rfl, rfl⟩ := List.map_eq_singleton_iff.1 same
    exact ⟨_, .ident kind, rfl⟩
  | int kind fits =>
    obtain ⟨t, rfl, rfl⟩ := List.map_eq_singleton_iff.1 same
    exact ⟨_, .int kind fits, rfl⟩
  | bool kind =>
    obtain ⟨t, rfl, rfl⟩ := List.map_eq_singleton_iff.1 same
    exact ⟨_, .bool kind, rfl⟩
  | unary kind operand ih =>
    obtain ⟨t, ts, rfl, rfl, rfl⟩ := List.map_eq_cons_iff.1 same
    obtain ⟨e', form, rfl⟩ := ih rfl
    exact ⟨_, .unary kind form, rfl⟩
  | group opened closed tighter inner ih =>
    obtain ⟨front, back, rfl, first, last⟩ := List.map_eq_append_iff.1 same
    obtain ⟨a, ts, rfl, rfl, rfl⟩ := List.map_eq_cons_iff.1 first
    obtain ⟨b, rfl, rfl⟩ := List.map_eq_singleton_iff.1 last
    obtain ⟨e', form, rfl⟩ := ih rfl
    exact ⟨_, .group opened closed tighter form, rfl⟩
  | binary operator atLeast left tighter right first second =>
    obtain ⟨ls, back, rfl, rfl, last⟩ := List.map_eq_append_iff.1 same
    obtain ⟨o, rs, rfl, rfl, rfl⟩ := List.map_eq_cons_iff.1 last
    obtain ⟨l', form, rfl⟩ := first rfl
    obtain ⟨r', form', rfl⟩ := second rfl
    have plain : o.kind.isOperator = true := operator
    exact ⟨_, .binary plain atLeast form tighter form', rfl⟩

end Expr

end LetLang
