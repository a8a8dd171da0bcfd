import LetLang.Text.Quoted
import LetLang.Token.Basic

/-!
Diagnostics: why a statement could not be read, and where. The wording is kept apart from the
cause, so a cause has one message (`Fault.message`) and at most one tip (`Fault.tip?`).
-/

namespace LetLang

open Token (Kind)

inductive Fault where
  /-- Another kind of token was due next. -/
  | unexpectedToken (expected actual : Kind)
  /-- No expression opens with this kind. -/
  | noOpening (kind : Kind)
  /-- An integer outside 64 bits. -/
  | badNumber (text : String)
  /-- More than `limit` expressions are open at once. -/
  | nestingTooDeep (limit : Nat)
  deriving DecidableEq, Inhabited

structure Diagnostic where
  fault : Fault
  span : Span
  deriving DecidableEq, Inhabited

namespace Fault

/-- The short name under which tools know the cause. -/
def name : Fault → String
  | unexpectedToken .. => "UnexpectedToken"
  | noOpening _ => "NoPrefixParseFn"
  | badNumber _ => "NumberParseError"
  | nestingTooDeep _ => "NestingTooDeep"

def message : Fault → String
  | unexpectedToken expected actual =>
    s!"expected next token to be {expected.name}, but got {actual.name}"
  | noOpening kind => s!"no prefix parse function for {kind.name} found"
  | badNumber text => s!"could not parse {Text.quote text} as integer"
  | nestingTooDeep limit => s!"expression nested deeper than {limit} levels"

/-- Advice for the reader of the message. -/
def tip? : Fault → Option String
  | unexpectedToken .closeParen _ => some "did you forget a closing `)`?"
  | unexpectedToken .. => none
  | noOpening .illegal => some "this character is not part of the language"
  | noOpening _ => some "an expression cannot start with this token"
  | badNumber _ => some "is it above the 64-bit integer limit?"
  | nestingTooDeep _ => some "split the expression with `let` bindings"

end Fault

namespace Diagnostic

def message (d : Diagnostic) : String := d.fault.message

/-- The message with its tip in parentheses. -/
def headline (d : Diagnostic) : String :=
  match d.fault.tip? with
  | none => d.message
  | some tip => s!"{d.message} ({tip})"

end Diagnostic

end LetLang
