import LetLang.Expr.Basic

/-!
Statements: a binding, a return or an expression. `token` is the token that opens the statement.
-/

namespace LetLang

/-- The name that a binding introduces. -/
structure Name where
  token : Token
  text : String
  deriving DecidableEq, Inhabited

inductive Stmt where
  | binding (token : Token) (name : Name) (value : Expr)
  | ret (token : Token) (value : Expr)
  | expr (token : Token) (value : Expr)
  deriving DecidableEq, Inhabited

namespace Stmt

def token : Stmt → Token
  | binding t .. | ret t _ | expr t _ => t

def value : Stmt → Expr
  | binding _ _ v | ret _ v | expr _ v => v

def literal (s : Stmt) : String := s.token.text

/-- From the opening token to the end of the value. -/
def span (s : Stmt) : Span := ⟨s.token.span.start, max s.value.stop s.token.span.stop⟩

/-- The canonical text. Only bindings and returns end in a semicolon. -/
def render : Stmt → String
  | binding t name value => s!"{t.text} {name.text} = {value.render};"
  | ret t value => s!"{t.text} {value.render};"
  | expr _ value => value.render

end Stmt

end LetLang
