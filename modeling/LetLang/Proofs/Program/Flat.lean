import LetLang.Proofs.Expr.Grammar
import LetLang.Proofs.Program.Language
import LetLang.Proofs.Program.Run

/-!
# The tokens of a tree

`flat` walks over a tree from left to right. A form of the grammar gives back its own tokens without
the parentheses, and these are balanced (`Derives.fills`). The tokens that a statement is read from
differ from those of its tree by the parentheses, an equals sign and the semicolon at the end
(`Stmt.Run.fills`).
-/

namespace LetLang

open Parse (State)
open Token (Kind Window)

namespace Token

/-- How many parentheses are open behind a token, if it closes no more than there are. -/
def nest (depth : Nat) (t : Token) : Option Nat :=
  match t.kind, depth with
  | .openParen, depth => some (depth + 1)
  | .closeParen, 0 => none
  | .closeParen, depth + 1 => some depth
  | _, depth => some depth

/-- Every parenthesis has its partner. Other tokens do not count. -/
def Balanced (ts : List Token) : Prop := ts.foldlM nest 0 = some 0

instance (ts : List Token) : Decidable (Balanced ts) := inferInstanceAs (Decidable (_ = _))

def Kind.isParen : Kind → Bool
  | openParen | closeParen => true
  | _ => false

/-- A tree keeps the tokens of all kinds but these. -/
def Kind.isKept : Kind → Bool
  | openParen | closeParen | assign | semicolon => false
  | _ => true

theorem nest_of_not_isParen {t : Token} (h : t.kind.isParen = false) (depth : Nat) :
    t.nest depth = some depth := by
  unfold nest
  split <;> simp_all [Kind.isParen]

end Token

open Token (Balanced nest)

namespace Expr

/-- The tokens of an expression from left to right. -/
def flat : Expr → List Token
  | ident t _ | int t _ | bool t _ => [t]
  | unary t _ operand => t :: operand.flat
  | binary t _ left right => left.flat ++ t :: right.flat

/-- The tokens are those of the expression with balanced parentheses between them. -/
structure Fills (e : Expr) (ts : List Token) : Prop where
  flat_eq : e.flat = ts.filter (!·.kind.isParen)
  balanced : Balanced ts
  plain : ∀ t ∈ ts, t.kind ≠ .assign ∧ t.kind ≠ .semicolon

variable {e : Expr} {root : Option Power} {ts : List Token} {n depth : Nat} {p : Power}

theorem not_isParen_of_isOperator {k : Kind} (h : k.isOperator = true) : k.isParen = false := by
  cases k <;> first | rfl | contradiction

theorem Derives.flat_eq (h : Derives root ts e n) : e.flat = ts.filter (!·.kind.isParen) := by
  induction h with
  | ident kind | int kind => simp [flat, kind, Kind.isParen]
  | bool kind => rcases kind with kind | kind <;> simp [flat, kind, Kind.isParen]
  | unary kind operand ih => rcases kind with kind | kind <;> simp [flat, kind, Kind.isParen, ih]
  | group opened closed tighter inner ih => simp [opened, closed, Kind.isParen, ih]
  | binary operator atLeast left tighter right first second =>
    simp [flat, not_isParen_of_isOperator operator, first, second]

theorem Derives.nest_eq (h : Derives root ts e n) (depth : Nat) : ts.foldlM nest depth = some depth := by
  induction h generalizing depth with
  | ident kind | int kind => simp [nest, kind]
  | bool kind => rcases kind with kind | kind <;> simp [nest, kind]
  | unary kind operand ih => rcases kind with kind | kind <;> simp [nest, kind, ih]
  | group opened closed tighter inner ih => simp [List.foldlM_append, nest, opened, closed, ih]
  | binary operator atLeast left tighter right first second =>
    simp [List.foldlM_append, Token.nest_of_not_isParen (not_isParen_of_isOperator operator), first, second]

theorem Derives.plain (h : Derives root ts e n) : ∀ t ∈ ts, t.kind ≠ .assign ∧ t.kind ≠ .semicolon := by
  induction h with
  | ident kind | int kind => simp [kind]
  | bool kind | unary kind => rcases kind with kind | kind <;> simp_all
  | group opened closed tighter inner ih => simpa [or_imp, forall_and, opened, closed] using ih
  | @binary o _ _ _ _ _ _ _ _ operator atLeast left tighter right first second =>
    have plain : o.kind ≠ .assign ∧ o.kind ≠ .semicolon := by
      constructor <;> intro kind <;> rw [kind] at operator <;> contradiction
    intro t member
    rcases List.mem_append.1 member with member | member
    · exact first t member
    · rcases List.mem_cons.1 member with rfl | member
      · exact plain
      · exact second t member

theorem Derives.fills (h : Derives root ts e n) : e.Fills ts := ⟨h.flat_eq, h.nest_eq 0, h.plain⟩

end Expr

namespace Stmt

/-- The tokens of a statement from left to right. -/
def flat : Stmt → List Token
  | binding t name value => t :: name.token :: value.flat
  | ret t value => t :: value.flat
  | expr _ value => value.flat

/-- `Body x ts`: the tokens of the statement with its equals sign and its parentheses. -/
inductive Body : Stmt → List Token → Prop where
  | binding {t name sign e ts} (keyword : t.kind = .kwLet) (ident : name.token.kind = .ident)
      (equals : sign.kind = .assign) (value : e.Fills ts) :
      Body (.binding t name e) (t :: name.token :: sign :: ts)
  | ret {t e ts} (keyword : t.kind = .kwReturn) (value : e.Fills ts) : Body (.ret t e) (t :: ts)
  | expr {t e ts} (value : e.Fills (t :: ts)) : Body (.expr t e) (t :: ts)

/-- `Fills x ts`: the tokens of the statement with all that its tree leaves out. -/
inductive Fills : Stmt → List Token → Prop where
  | bare {x ts} (body : Body x ts) : Fills x ts
  | ended {x ts t} (body : Body x ts) (semicolon : t.kind = .semicolon) : Fills x (ts ++ [t])

variable {x : Stmt} {ts : List Token} {s t : State} {e : Expr} {make : Expr → Stmt}

theorem filter_plain (plain : ∀ t ∈ ts, t.kind ≠ .assign ∧ t.kind ≠ .semicolon) :
    ts.filter (!·.kind.isParen) = ts.filter (·.kind.isKept) := by
  refine List.filter_congr fun t member => ?_
  obtain ⟨first, second⟩ := plain t member
  cases kind : t.kind <;> first | rfl | exact absurd kind first | exact absurd kind second

theorem Body.flat_eq (h : Body x ts) : x.flat = ts.filter (·.kind.isKept) := by
  cases h with
  | binding keyword ident equals value =>
    simp [flat, keyword, ident, equals, Kind.isKept, value.flat_eq, filter_plain value.plain]
  | ret keyword value => simp [flat, keyword, Kind.isKept, value.flat_eq, filter_plain value.plain]
  | expr value => rw [flat, value.flat_eq, filter_plain value.plain]

theorem Fills.flat_eq (h : Fills x ts) : x.flat = ts.filter (·.kind.isKept) := by
  cases h with
  | bare body => exact body.flat_eq
  | ended body semicolon => simp [body.flat_eq, semicolon, Kind.isKept]

theorem Fills.token_mem (h : Fills x ts) : x.token ∈ ts := by
  cases h with
  | bare body | ended body => cases body <;> simp [token]

/-! ### What is read fills its tokens -/

theorem Value.fills {u : State} (h : Value s (.ok e u)) (numeric : s.window.Numeric) :
    ∃ ts, e.Fills ts ∧ (∃ rest, ts = s.current :: rest) ∧
      (s.window.Reads ts u.window ∨ ∃ t, t.kind = .semicolon ∧ s.window.Reads (ts ++ [t]) u.window) := by
  have value : ∃ v ts, e.Fills ts ∧ (∃ rest, ts = s.current :: rest) ∧ s.window.Reads ts v.window ∧
      (u = v ∨ v.ahead.kind = .semicolon ∧ u = v.advance) := by
    cases h with
    | bare run kind | ended run kind =>
      obtain ⟨ts, n, moved, ⟨root, -, derived⟩, -, -⟩ := run.sound numeric
      refine ⟨_, ts, derived.fills, ?_, moved, by simp [kind]⟩
      obtain ⟨first, rest, rfl⟩ := List.exists_cons_of_ne_nil derived.ne_nil
      obtain ⟨same, -, -⟩ := moved.passes
      exact ⟨rest, by rw [← show s.window.current = first from same]; rfl⟩
  obtain ⟨v, ts, fills, starts, moved, rfl | ⟨kind, rfl⟩⟩ := value
  · exact ⟨ts, fills, starts, .inl moved⟩
  · have inside : v.window.ahead.kind ≠ .eof := by rw [← State.ahead, kind]; decide
    exact ⟨ts, fills, starts, .inr ⟨v.ahead, kind, moved.concat inside⟩⟩

/-- The tokens in front of the value, and how they make a statement with it. -/
theorem Lead.body (h : Lead s t make) (value : e.Fills ts) (starts : ∃ rest, ts = t.current :: rest) :
    ∃ front, s.window.Passes front t.window ∧ Body (make e) (front ++ ts) := by
  cases h with
  | binding form name sign =>
    have keyword := Language.form?_eq_binding.1 form
    have first : s.window.current.kind ≠ .eof := by rw [← State.current, keyword]; decide
    have second : s.window.advance.current.kind ≠ .eof := by
      rw [Window.current_advance, ← State.ahead, name]
      decide
    have third : s.window.advance.advance.current.kind ≠ .eof := by
      change s.advance.ahead.kind ≠ .eof
      rw [sign]
      decide
    have onto := ((Window.Passes.step first).trans (.step second)).trans (.step third)
    simp only [State.window_advance]
    exact ⟨[s.current, s.ahead, s.advance.ahead], onto, .binding keyword name sign value⟩
  | ret form =>
    have keyword := Language.form?_eq_ret.1 form
    have first : s.window.current.kind ≠ .eof := by rw [← State.current, keyword]; decide
    exact ⟨[s.current], .step first, .ret keyword value⟩
  | expr form =>
    obtain ⟨rest, rfl⟩ := starts
    exact ⟨[], .refl _, .expr value⟩

/-- A statement fills the tokens that it is read from. -/
theorem Run.fills (h : Run s (.ok x t)) (numeric : s.window.Numeric) (inside : s.current.kind ≠ .eof) :
    ∃ ts, s.window.Reads ts t.window ∧ x.Fills ts := by
  cases h with
  | done lead value =>
    obtain ⟨_, passed⟩ := lead.passes inside
    obtain ⟨ts, fills, starts, moved | ⟨t, kind, moved⟩⟩ := value.fills (numeric.passes passed)
    · obtain ⟨front, onto, body⟩ := lead.body fills starts
      exact ⟨_, onto.reads moved, .bare body⟩
    · obtain ⟨front, onto, body⟩ := lead.body fills starts
      refine ⟨_, onto.reads moved, ?_⟩
      rw [← List.append_assoc]
      exact .ended body kind

end Stmt

end LetLang
