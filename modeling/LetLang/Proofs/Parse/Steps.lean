import LetLang.Expr.Parser

/-!
# Readers put together from steps

A property that the steps of a parse have and that is kept in sequence and inside an open expression
(`Reader.Closed`) is one of every expression reader whose operands have it.
-/

namespace LetLang

open Parse (Reader)
open Token (Kind)

namespace Parse.Reader

/-- The steps have the property, and readers put together from readers that have it do. -/
structure Closed (P : {α : Type} → Reader α → Prop) : Prop where
  pure {α : Type} (a : α) : P (Pure.pure a : Reader α)
  throw {α : Type} (d : Diagnostic) : P (MonadExcept.throw d : Reader α)
  current : P current
  ahead : P ahead
  note (r : Log.Record) : P (note r)
  advance : P advance
  bind {α β : Type} {m : Reader α} {f : α → Reader β} (first : P m) (second : ∀ a, P (f a)) : P (m >>= f)
  nested {α : Type} {body : Reader α} (inside : P body) : P (nested body)

variable {P : {α : Type} → Reader α → Prop} {α : Type} {m n : Reader α}

theorem discard_eq (m : Reader α) : discard m = m >>= fun _ => pure () := by
  funext s
  rw [bind_apply]
  show EStateM.map _ m s = _
  unfold EStateM.map
  cases m s <;> rfl

theorem ite_of {c : Prop} [Decidable c] (first : P m) (second : P n) : P (if c then m else n) := by
  split
  · exact first
  · exact second

namespace Closed

variable (closed : Closed P)
include closed

theorem discard_advance : P (discard Reader.advance) := by
  rw [discard_eq]
  exact closed.bind closed.advance fun _ => closed.pure ()

theorem tooDeep : P (tooDeep : Reader α) := closed.bind closed.current fun _ => closed.throw _

theorem expect (kind : Kind) : P (expect kind) :=
  closed.bind closed.ahead fun _ => ite_of closed.discard_advance (closed.throw _)

theorem skip (kind : Kind) : P (skip kind) :=
  closed.bind closed.ahead fun _ => ite_of closed.discard_advance (closed.pure ())

/-! ### Expressions -/

variable {operand : Power → Reader Expr}

theorem parseIdent : P Expr.parseIdent := closed.bind closed.current fun _ => closed.pure _

theorem parseBool : P Expr.parseBool := closed.bind closed.current fun _ => closed.pure _

theorem parseInt : P Expr.parseInt := by
  refine closed.bind closed.current fun t => ?_
  cases Decimal.read? t.text with
  | none => exact closed.throw _
  | some n => exact closed.pure _

theorem parseUnary (h : ∀ q, P (operand q)) : P (Expr.parseUnary operand) :=
  closed.bind closed.advance fun _ => closed.bind (h _) fun _ => closed.pure _

theorem parseGroup (h : ∀ q, P (operand q)) : P (Expr.parseGroup operand) :=
  closed.bind closed.discard_advance fun _ => closed.bind (h _) fun _ =>
    closed.bind (closed.expect _) fun _ => closed.pure _

theorem parseBinary (h : ∀ q, P (operand q)) (left : Expr) : P (Expr.parseBinary operand left) :=
  closed.bind closed.advance fun _ => closed.bind (h _) fun _ =>
    closed.bind (closed.note _) fun _ => closed.pure _

theorem parseOpening (h : ∀ q, P (operand q)) (o : Expr.Opening) : P (Expr.parseOpening operand o) := by
  cases o with
  | ident => exact closed.parseIdent
  | int => exact closed.parseInt
  | bool => exact closed.parseBool
  | unary => exact closed.parseUnary h
  | group => exact closed.parseGroup h

theorem climb (h : ∀ q, P (operand q)) (p : Power) (moves : Nat) (left : Expr) :
    P (Expr.climb operand p moves left) := by
  induction moves generalizing left with
  | zero => exact closed.pure left
  | succ moves ih =>
    rw [Expr.climb]
    refine closed.bind closed.ahead fun _ => ite_of ?_ (closed.pure left)
    exact closed.bind closed.discard_advance fun _ => closed.bind (closed.parseBinary h left) ih

/-- The operators are left to the property: how many there can be is read off the state. -/
theorem parseWithin (climbs : ∀ {operand}, (∀ q, P (operand q)) → ∀ p, P (Expr.parseWith operand p))
    (levels : Nat) (p : Power) : P (Expr.parseWithin levels p) := by
  induction levels generalizing p with
  | zero => exact closed.tooDeep
  | succ levels ih => exact closed.nested (climbs ih p)

end Closed

end Parse.Reader

end LetLang
