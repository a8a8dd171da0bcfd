import LetLang.Text.Decimal
import Mathlib.Data.List.Basic
import Mathlib.Data.List.Induction
import Mathlib.Data.Nat.Digits.Defs

/-!
# Decimal conversion

The value of digits is exact, however many there are: each digit counts by its place (`value_eq_placeValue`).
A conversion that has only 64 bits at each step refuses the same texts and agrees on the others
(`read?_eq_checked?`).
-/

namespace LetLang.Decimal

variable {cs : List Char} {c : Char} {m n sign : Int}

theorem value_concat (cs : List Char) (c : Char) : value (cs ++ [c]) = 10 * value cs + digit c :=
  List.foldl_concat _ _ c cs

/-- The sum of the digits, each times the power of ten at its place. -/
def placeValue (cs : List Char) : Nat := Nat.ofDigits 10 (cs.reverse.map digit)

theorem value_eq_placeValue (cs : List Char) : value cs = placeValue cs := by
  induction cs using List.reverseRecOn with
  | nil => rfl
  | append_singleton cs c ih =>
    rw [value_concat, ih, placeValue, placeValue, List.reverse_append, List.reverse_singleton,
      List.singleton_append, List.map_cons, Nat.ofDigits_cons, Nat.add_comm]

theorem le_maximum_iff (n : Nat) : (n : Int) ≤ maximum ↔ n < 2 ^ 63 := by
  unfold maximum
  omega

/-! ### Numbers in decimal -/

theorem toString_ne_nil (n : Nat) : (toString n).toList ≠ [] := by
  rw [Nat.toString_eq_repr, Nat.toList_repr]
  exact Nat.toDigits_ne_nil

theorem isDigit_of_mem_toString {n : Nat} (member : c ∈ (toString n).toList) : c.isDigit = true := by
  rw [Nat.toString_eq_repr, Nat.toList_repr] at member
  exact Nat.isDigit_of_mem_toDigits (by decide) (by decide) member

theorem value_toString (n : Nat) : value (toString n).toList = n := by
  have read := Nat.ofDigitChars_ten_toDigits (n := n)
  rwa [Nat.ofDigitChars_eq_foldl, ← Nat.toList_repr] at read

theorem toString_eq_append (n : Int) : toString n = (if n < 0 then "-" else "") ++ toString n.natAbs := by
  rw [Int.toString_eq_repr, Int.repr_eq_if]
  by_cases negative : n < 0
  · rw [if_neg (by omega), if_pos negative, show (-n).toNat = n.natAbs by omega]
    rfl
  · rw [if_pos (by omega), if_neg negative, show n.toNat = n.natAbs by omega, String.empty_append]
    rfl

/-! ### Conversion in 64 bits -/

def fit? (n : Int) : Option Int := if minimum ≤ n ∧ n ≤ maximum then some n else none

/-- One digit more. Both the product and the sum have to fit. -/
def push? (sign n : Int) (c : Char) : Option Int :=
  if c.isDigit then (fit? (10 * n)).bind fun m => fit? (m + sign * digit c) else none

def digits? (sign : Int) (cs : List Char) : Option Int := if cs = [] then none else cs.foldlM (push? sign) 0

/-- A sign and digits, or digits alone. Behind a minus sign they are subtracted, since there is one number more
below zero. -/
def checked? : List Char → Option Int
  | '+' :: cs => digits? 1 cs
  | '-' :: cs => digits? (-1) cs
  | cs => digits? 1 cs

theorem fit?_eq_filter (n : Int) : fit? n = (some n).filter fun n => minimum ≤ n ∧ n ≤ maximum := by
  rw [fit?, Option.filter_some]
  simp only [decide_eq_true_eq]

theorem bind_fit? (n : Int) (f : Int → Option Int) :
    (fit? n).bind f = if minimum ≤ n ∧ n ≤ maximum then f n else none := by
  unfold fit?
  split <;> rfl

/-- A digit takes a number away from zero or leaves it there, so what overflows early is too great at the end. -/
theorem fit?_push? (unit : sign = 1 ∨ sign = -1) (n : Nat) (isDigit : c.isDigit = true) :
    (fit? (sign * n)).bind (push? sign · c) = fit? (sign * (10 * n + digit c : Nat)) := by
  have last : 10 * (sign * n) + sign * digit c = sign * (10 * n + digit c : Nat) := by
    push_cast
    ring
  simp only [bind_fit?, push?, if_pos isDigit, last]
  by_cases fits : minimum ≤ sign * (10 * n + digit c : Nat) ∧ sign * (10 * n + digit c : Nat) ≤ maximum
  · have product : minimum ≤ 10 * (sign * n) ∧ 10 * (sign * n) ≤ maximum := by
      unfold minimum maximum at *
      rcases unit with rfl | rfl <;> omega
    have number : minimum ≤ sign * n ∧ sign * n ≤ maximum := by
      unfold minimum maximum at *
      rcases unit with rfl | rfl <;> omega
    rw [if_pos number, if_pos product]
  · rw [fit?, if_neg fits, ite_self, ite_self]

theorem foldlM_push? (unit : sign = 1 ∨ sign = -1) (cs : List Char) :
    cs.foldlM (push? sign) 0 = if cs.all Char.isDigit = true then fit? (sign * value cs) else none := by
  induction cs using List.reverseRecOn with
  | nil =>
    have zero : fit? (sign * value []) = some 0 := by
      rcases unit with rfl | rfl <;> rfl
    rw [zero]
    rfl
  | append_singleton cs c ih =>
    have step : (cs ++ [c]).foldlM (push? sign) 0 = (cs.foldlM (push? sign) 0).bind (push? sign · c) := by
      rw [List.foldlM_append]
      congr 1
      funext n
      exact List.foldlM_cons.trans (bind_pure _)
    rw [step, ih, List.all_append, value_concat]
    by_cases digits : cs.all Char.isDigit = true
    · by_cases isDigit : c.isDigit = true
      · simp only [digits, isDigit, List.all_cons, List.all_nil, Bool.and_self, if_true, fit?_push? unit _ isDigit]
      · simp [digits, isDigit, push?]
    · simp [digits]

theorem digits?_eq_filter (unit : sign = 1 ∨ sign = -1) (cs : List Char) :
    digits? sign cs =
      ((natural? cs).map fun n : Nat => sign * (n : Int)).filter fun n => minimum ≤ n ∧ n ≤ maximum := by
  rw [digits?, foldlM_push? unit, natural?]
  by_cases none : cs = []
  · simp [none]
  · by_cases digits : cs.all Char.isDigit = true
    · rw [if_neg none, if_pos digits, if_pos ⟨none, digits⟩, Option.map_some, fit?_eq_filter]
    · rw [if_neg none, if_neg digits, if_neg (mt And.right digits)]
      rfl

/-- The exact value with the range looked at once is what a conversion in 64 bits gives. -/
theorem read?_eq_checked? (text : String) : read? text = checked? text.toList := by
  rw [read?]
  generalize text.toList = cs
  fun_cases checked? cs with
  | case1 cs =>
    rw [digits?_eq_filter (.inl rfl), integer?]
    simp only [one_mul]
    rfl
  | case2 cs =>
    rw [digits?_eq_filter (.inr rfl), integer?]
    simp only [neg_one_mul]
    rfl
  | case3 cs plus minus =>
    rw [digits?_eq_filter (.inl rfl), integer?.eq_3 cs plus minus]
    simp only [one_mul]
    rfl

end LetLang.Decimal
