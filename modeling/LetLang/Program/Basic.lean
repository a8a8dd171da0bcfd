import LetLang.Stmt.Basic

/-! Programs: statements in source order. -/

namespace LetLang

structure Program where
  statements : List Stmt := []
  deriving DecidableEq, Inhabited

namespace Program

/-- The text of the first token; empty for the empty program. -/
def literal (p : Program) : String := (p.statements.head?.map Stmt.literal).getD ""

def size (p : Program) : Nat := p.statements.length

def isEmpty (p : Program) : Bool := p.statements.isEmpty

/-- The canonical text: the statements one after the other, with nothing between them. -/
def render (p : Program) : String := String.join (p.statements.map Stmt.render)

end Program

end LetLang
