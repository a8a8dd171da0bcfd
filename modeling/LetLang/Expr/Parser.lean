import LetLang.Expr.Basic
import LetLang.Parse.State
import LetLang.Text.Decimal

/-!
Reading expressions by binding powers. The current token opens an operand (`Opening`); while the
next token binds tighter than the power asked for, it takes the operand as its left one. At the end
the current token is the last one of the expression.

Forms with an operand of their own get its reader as an argument, so that nesting is limited in one
place, `Expr.parseWithin`.
-/

namespace LetLang

open Token (Kind)
open Parse (Reader State)

/-- The ways in which an expression begins. -/
inductive Expr.Opening where
  | ident | int | bool | unary | group
  deriving DecidableEq, Inhabited

def Token.Kind.opening? : Kind → Option Expr.Opening
  | .ident => some .ident
  | .int => some .int
  | .kwTrue | .kwFalse => some .bool
  | .bang | .minus => some .unary
  | .openParen => some .group
  | _ => none

namespace Expr

/-- The current token as a name, whatever its kind. -/
def parseIdent : Reader Expr := do
  let token ← Reader.current
  return .ident token token.text

def parseInt : Reader Expr := do
  let token ← Reader.current
  match Decimal.read? token.text with
  | some value => return .int token value
  | none => throw ⟨.badNumber token.text, token.span⟩

/-- The current token as a truth value: only the keyword `true` is true. -/
def parseBool : Reader Expr := do
  let token ← Reader.current
  return .bool token (token.kind = .kwTrue)

def parseUnary (operand : Power → Reader Expr) : Reader Expr := do
  let operator ← Reader.advance
  let right ← operand .unary
  return .unary operator operator.text right

def parseGroup (operand : Power → Reader Expr) : Reader Expr := do
  discard Reader.advance
  let inner ← operand .lowest
  Reader.expect .closeParen
  return inner

/-- An operator behind its left operand. The right one is read at the operator's own power, so
operators of one power group to the left. -/
def parseBinary (operand : Power → Reader Expr) (left : Expr) : Reader Expr := do
  let operator ← Reader.advance
  let power := operator.kind.power
  let right ← operand power
  Reader.note (.operator operator.text power)
  return .binary operator operator.text left right

def parseOpening (operand : Power → Reader Expr) : Opening → Reader Expr
  | .ident => parseIdent
  | .int => parseInt
  | .bool => parseBool
  | .unary => parseUnary operand
  | .group => parseGroup operand

/-- Takes operators for as long as they bind tighter than `power`. `moves` bounds their number. -/
def climb (operand : Power → Reader Expr) (power : Power) : (moves : Nat) → Expr → Reader Expr
  | 0, left => return left
  | moves + 1, left => do
    if power < (← Reader.ahead).kind.power then
      discard Reader.advance
      climb operand power moves (← parseBinary operand left)
    else
      return left

/-- An expression whose operands are read by `operand`. -/
def parseWith (operand : Power → Reader Expr) (power : Power) : Reader Expr := do
  let token ← Reader.current
  match token.kind.opening? with
  | none => throw ⟨.noOpening token.kind, token.span⟩
  | some opening =>
    let left ← parseOpening operand opening
    climb operand power (← get).window.moves left

/-- An expression with at most `levels` expressions open inside one another. -/
def parseWithin : (levels : Nat) → Power → Reader Expr
  | 0, _ => Reader.tooDeep
  | levels + 1, power => Reader.nested (parseWith (parseWithin levels) power)

/-- The expression at the current token, up to the first operator not above `power`. -/
def parse (power : Power) : Reader Expr := parseWithin Parse.maxDepth power

/-! ### What each reader does to a state -/

variable (operand : Power → Reader Expr)

theorem parseIdent_apply (s : State) :
    parseIdent s = .ok (.ident s.current s.current.text) s := rfl

theorem parseBool_apply (s : State) :
    parseBool s = .ok (.bool s.current (s.current.kind = .kwTrue)) s := rfl

theorem parseInt_apply (s : State) :
    parseInt s = match Decimal.read? s.current.text with
      | some value => .ok (.int s.current value) s
      | none => .error ⟨.badNumber s.current.text, s.current.span⟩ s := by
  rw [parseInt, Reader.bind_apply, Reader.current_apply]
  cases h : Decimal.read? s.current.text <;> simp only [h] <;> rfl

theorem parseUnary_apply (s : State) :
    parseUnary operand s = match operand .unary s.advance with
      | .ok right t => .ok (.unary s.current s.current.text right) t
      | .error d t => .error d t := by
  simp only [parseUnary, Reader.bind_apply, Reader.advance_apply]
  cases operand .unary s.advance <;> rfl

theorem parseGroup_apply (s : State) :
    parseGroup operand s = match operand .lowest s.advance with
      | .ok inner t =>
        if t.ahead.kind = .closeParen then .ok inner t.advance
        else .error ⟨.unexpectedToken .closeParen t.ahead.kind, t.ahead.span⟩ t
      | .error d t => .error d t := by
  have h : parseGroup operand s = (operand .lowest >>= fun inner =>
      Reader.expect .closeParen >>= fun _ => pure inner) s.advance := rfl
  rw [h, Reader.bind_apply]
  cases operand .lowest s.advance with
  | error d t => rfl
  | ok inner t =>
    simp only [Reader.bind_apply, Reader.expect_apply]
    by_cases hp : t.ahead.kind = .closeParen
    · simp only [if_pos hp]
      rfl
    · simp only [if_neg hp]

theorem parseBinary_apply (left : Expr) (s : State) :
    parseBinary operand left s = match operand s.current.kind.power s.advance with
      | .ok right t =>
        .ok (.binary s.current s.current.text left right)
          (t.note (.operator s.current.text s.current.kind.power))
      | .error d t => .error d t := by
  simp only [parseBinary, Reader.bind_apply, Reader.advance_apply]
  cases operand s.current.kind.power s.advance <;> rfl

theorem climb_succ_apply (power : Power) (moves : Nat) (left : Expr) (s : State) :
    climb operand power (moves + 1) left s =
      if power < s.ahead.kind.power then
        match parseBinary operand left s.advance with
        | .ok left t => climb operand power moves left t
        | .error d t => .error d t
      else .ok left s := by
  rw [climb, Reader.bind_apply, Reader.ahead_apply]
  by_cases h : power < s.ahead.kind.power
  · have step : (discard Reader.advance) s = .ok () s.advance := rfl
    simp only [if_pos h, Reader.bind_apply, step]
    cases parseBinary operand left s.advance <;> rfl
  · simp only [if_neg h]
    rfl

theorem parseWith_apply (power : Power) (s : State) :
    parseWith operand power s = match s.current.kind.opening? with
      | none => .error ⟨.noOpening s.current.kind, s.current.span⟩ s
      | some opening =>
        match parseOpening operand opening s with
        | .ok left t => climb operand power t.window.moves left t
        | .error d t => .error d t := by
  rw [parseWith, Reader.bind_apply, Reader.current_apply]
  cases h : s.current.kind.opening? with
  | none =>
    simp only [h]
    rfl
  | some opening =>
    simp only [h, Reader.bind_apply]
    cases parseOpening operand opening s <;> rfl

theorem parseWithin_succ_apply (levels : Nat) (power : Power) (s : State) :
    parseWithin (levels + 1) power s =
      if s.depth < Parse.maxDepth then
        match parseWith (parseWithin levels) power s.enter with
        | .ok e t => .ok e t.leave
        | .error d t => .error d t.leave
      else .error ⟨.nestingTooDeep Parse.maxDepth, s.current.span⟩ s := by
  rw [parseWithin, Reader.nested_apply]
  cases parseWith (parseWithin levels) power s.enter <;> rfl

end Expr

end LetLang
