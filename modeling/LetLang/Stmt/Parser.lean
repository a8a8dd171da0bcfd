import LetLang.Expr.Parser
import LetLang.Stmt.Basic

/-!
Reading statements. A statement takes one semicolon if it is there; at the end the current token
is the last one of the statement.
-/

namespace LetLang

open Token (Kind)
open Parse (Reader State)

inductive Stmt.Form where
  | binding | ret | expr
  deriving DecidableEq, Inhabited

/-- The form that a keyword opens. -/
def Token.Kind.form? : Kind → Option Stmt.Form
  | .kwLet => some .binding
  | .kwReturn => some .ret
  | _ => none

namespace Stmt

/-- The value of a statement and the semicolon that may follow. -/
def parseValue : Reader Expr := do
  let value ← Expr.parse .lowest
  Reader.skip .semicolon
  return value

/-- A name, an equals sign and a value; the current token stands for `let`. -/
def parseBinding : Reader Stmt := do
  let token ← Reader.current
  Reader.expect .ident
  let name ← Reader.current
  Reader.expect .assign
  discard Reader.advance
  let value ← parseValue
  return .binding token ⟨name, name.text⟩ value

/-- A value; the current token stands for `return`. -/
def parseRet : Reader Stmt := do
  let token ← Reader.advance
  let value ← parseValue
  return .ret token value

def parseExpr : Reader Stmt := do
  let token ← Reader.current
  let value ← parseValue
  return .expr token value

def parseForm : Form → Reader Stmt
  | .binding => parseBinding
  | .ret => parseRet
  | .expr => parseExpr

/-- The statement at the current token. -/
def parse : Reader Stmt := do
  let token ← Reader.current
  Reader.note (.statement token)
  parseForm (token.kind.form?.getD .expr)

/-! ### What each reader does to a state -/

theorem parseValue_apply (s : State) :
    parseValue s = match Expr.parse .lowest s with
      | .ok value t => .ok value (if t.ahead.kind = .semicolon then t.advance else t)
      | .error d t => .error d t := by
  rw [parseValue, Reader.bind_apply]
  cases Expr.parse .lowest s with
  | error d t => rfl
  | ok value t =>
    simp only [Reader.bind_apply, Reader.skip_apply]
    rfl

theorem parseRet_apply (s : State) :
    parseRet s = match parseValue s.advance with
      | .ok value t => .ok (.ret s.current value) t
      | .error d t => .error d t := by
  simp only [parseRet, Reader.bind_apply, Reader.advance_apply]
  cases parseValue s.advance <;> rfl

theorem parseExpr_apply (s : State) :
    parseExpr s = match parseValue s with
      | .ok value t => .ok (.expr s.current value) t
      | .error d t => .error d t := by
  simp only [parseExpr, Reader.bind_apply, Reader.current_apply]
  cases parseValue s <;> rfl

theorem parseBinding_apply (s : State) :
    parseBinding s =
      if s.ahead.kind = .ident then
        if s.advance.ahead.kind = .assign then
          match parseValue s.advance.advance.advance with
          | .ok value t => .ok (.binding s.current ⟨s.ahead, s.ahead.text⟩ value) t
          | .error d t => .error d t
        else
          .error ⟨.unexpectedToken .assign s.advance.ahead.kind, s.advance.ahead.span⟩ s.advance
      else .error ⟨.unexpectedToken .ident s.ahead.kind, s.ahead.span⟩ s := by
  simp only [parseBinding, Reader.bind_apply, Reader.current_apply, Reader.expect_apply]
  by_cases hi : s.ahead.kind = .ident
  · by_cases ha : s.advance.ahead.kind = .assign
    · simp only [if_pos hi, if_pos ha, State.current_advance]
      have h : (discard Reader.advance) s.advance.advance = .ok () s.advance.advance.advance := rfl
      simp only [h]
      cases parseValue s.advance.advance.advance <;> rfl
    · simp only [if_pos hi, if_neg ha]
  · simp only [if_neg hi]

theorem parse_apply (s : State) :
    parse s = parseForm (s.current.kind.form?.getD .expr) (s.note (.statement s.current)) := rfl

end Stmt

end LetLang
