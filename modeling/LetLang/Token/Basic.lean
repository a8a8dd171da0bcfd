import LetLang.Span
import LetLang.Token.Kind

/-!
Tokens: a kind, the characters it was read from, and where they stand.
-/

namespace LetLang

structure Token where
  kind : Token.Kind
  text : String
  span : Span
  deriving DecidableEq, Inhabited

namespace Token

/-- The kind's name; names, integers and illegal characters also show their text. -/
def display (t : Token) : String :=
  match t.kind with
  | .ident | .int | .illegal => s!"{t.kind.name} ({t.text})"
  | k => k.name

end Token

end LetLang
