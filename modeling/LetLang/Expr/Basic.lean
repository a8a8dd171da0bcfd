import LetLang.Token.Basic

/-!
Expressions. Parentheses leave no node: they only shape the tree. Rendering puts parentheses
around every operator, so the text shows the tree.
-/

namespace LetLang

inductive Expr where
  | ident (token : Token) (name : String)
  | int (token : Token) (value : Int)
  | bool (token : Token) (value : Bool)
  | unary (token : Token) (operator : String) (operand : Expr)
  | binary (token : Token) (operator : String) (left right : Expr)
  deriving DecidableEq, Inhabited

namespace Expr

/-- The token of the root: a leaf's own, or the operator. -/
def token : Expr → Token
  | ident t _ | int t _ | bool t _ | unary t .. | binary t .. => t

def literal (e : Expr) : String := e.token.text

/-- The byte where the expression starts; parentheses around it do not count. -/
def start : Expr → Nat
  | binary _ _ left _ => left.start
  | e => e.token.span.start

/-- The byte after the expression. -/
def stop : Expr → Nat
  | unary _ _ operand => operand.stop
  | binary _ _ _ right => right.stop
  | e => e.token.span.stop

def span (e : Expr) : Span := ⟨e.start, e.stop⟩

/-- The canonical text. -/
def render : Expr → String
  | ident _ name => name
  | int t _ | bool t _ => t.text
  | unary _ operator operand => s!"({operator}{operand.render})"
  | binary _ operator left right => s!"({left.render} {operator} {right.render})"

/-- The expression and all below it: a node, then its operands from left to right. -/
def nodes : Expr → List Expr
  | e@(unary _ _ operand) => e :: operand.nodes
  | e@(binary _ _ left right) => e :: (left.nodes ++ right.nodes)
  | e => [e]

end Expr

end LetLang
