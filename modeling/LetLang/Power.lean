import LetLang.Token.Kind

/-!
Binding powers, weakest first. An operator takes a neighbouring operand from a weaker one; exactly
the eight binary operators bind above `lowest`.
-/

namespace LetLang

inductive Power where
  | lowest | equals | lessGreater | sum | product | unary | call
  deriving DecidableEq, Inhabited

namespace Power

/-- Every power, weakest first. -/
def all : List Power := [lowest, equals, lessGreater, sum, product, unary, call]

/-- The place in the ladder. -/
def rank : Power → Nat
  | lowest => 0
  | equals => 1
  | lessGreater => 2
  | sum => 3
  | product => 4
  | unary => 5
  | call => 6

instance : LT Power := ⟨fun p q => p.rank < q.rank⟩

instance : LE Power := ⟨fun p q => p.rank ≤ q.rank⟩

instance : DecidableLT Power := fun p q => inferInstanceAs (Decidable (p.rank < q.rank))

instance : DecidableLE Power := fun p q => inferInstanceAs (Decidable (p.rank ≤ q.rank))

instance : Ord Power := ⟨fun p q => compare p.rank q.rank⟩

theorem not_lt {p q : Power} : ¬ p < q ↔ q ≤ p := Nat.not_lt

def name : Power → String
  | lowest => "Lowest"
  | equals => "Equals"
  | lessGreater => "LessGreater"
  | sum => "Sum"
  | product => "Product"
  | unary => "Prefix"
  | call => "Call"

def ofName? (text : String) : Option Power := all.find? (·.name == text)

theorem ofName?_name (p : Power) : ofName? p.name = some p := by cases p <;> decide

end Power

namespace Token.Kind

/-- The power of a kind between two operands. -/
def power : Kind → Power
  | equal | notEqual => .equals
  | less | greater => .lessGreater
  | plus | minus => .sum
  | star | slash => .product
  | _ => .lowest

/-- The binary operators. -/
def isOperator : Kind → Bool
  | plus | minus | star | slash | equal | notEqual | less | greater => true
  | _ => false

theorem isOperator_iff (k : Kind) : k.isOperator = true ↔ Power.lowest < k.power := by
  cases k <;> decide

theorem power_lt_unary (k : Kind) : k.power < .unary := by cases k <;> decide

end Token.Kind

end LetLang
