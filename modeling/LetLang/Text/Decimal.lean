/-!
Decimal integers of 64 bits, from -2^63 to 2^63 - 1. A text is read as an optional sign and at
least one ASCII digit.
-/

namespace LetLang.Decimal

def minimum : Int := -9223372036854775808

def maximum : Int := 9223372036854775807

def digit (c : Char) : Nat := c.toNat - '0'.toNat

/-- The value of a digit string, first digit first. -/
def value (cs : List Char) : Nat := cs.foldl (fun n c => 10 * n + digit c) 0

/-- The value of a non-empty digit string. -/
def natural? (cs : List Char) : Option Nat :=
  if cs ≠ [] ∧ cs.all Char.isDigit = true then some (value cs) else none

/-- The exact value of a signed decimal of any length. -/
def integer? : List Char → Option Int
  | '+' :: cs => (natural? cs).map Int.ofNat
  | '-' :: cs => (natural? cs).map fun n => -Int.ofNat n
  | cs => (natural? cs).map Int.ofNat

/-- The value of a decimal that fits in 64 bits. -/
def read? (text : String) : Option Int :=
  (integer? text.toList).filter fun n => minimum ≤ n ∧ n ≤ maximum

end LetLang.Decimal
