import LetLang.Stmt.Parser
import Mathlib.Data.List.Basic

/-!
# The language of programs

`IsProgram` splits a list of tokens into statements, in any way. A scan from left to right decides
the same (`isProgram_iff`): it needs only the number of open parentheses, since a minus sign that
goes on with an expression and one that starts a statement ask for the same tokens behind them.
-/

namespace LetLang.Language

open Token (Kind)

inductive IsExpr : List Token → Prop where
  | ident {t} (kind : t.kind = .ident) : IsExpr [t]
  | int {t} (kind : t.kind = .int) (fits : (Decimal.value t.text.toList : Int) ≤ Decimal.maximum) : IsExpr [t]
  | bool {t} (kind : t.kind = .kwTrue ∨ t.kind = .kwFalse) : IsExpr [t]
  | unary {t ts} (kind : t.kind = .bang ∨ t.kind = .minus) (operand : IsExpr ts) : IsExpr (t :: ts)
  | binary {o ls rs} (operator : o.kind.isOperator = true) (left : IsExpr ls) (right : IsExpr rs) :
      IsExpr (ls ++ o :: rs)
  | group {a b ts} (opened : a.kind = .openParen) (closed : b.kind = .closeParen)
      (inner : IsExpr ts) : IsExpr (a :: ts ++ [b])

inductive IsStmt : List Token → Prop where
  | binding {l x a ts} (keyword : l.kind = .kwLet) (name : x.kind = .ident) (sign : a.kind = .assign)
      (value : IsExpr ts) : IsStmt (l :: x :: a :: ts)
  | ret {t ts} (keyword : t.kind = .kwReturn) (value : IsExpr ts) : IsStmt (t :: ts)
  | expr {ts} (value : IsExpr ts) : IsStmt ts

/-- Statements in sequence, each followed by at most one semicolon. -/
inductive IsProgram : List Token → Prop where
  | nil : IsProgram []
  | bare {ts us} (front : IsProgram ts) (stmt : IsStmt us) : IsProgram (ts ++ us)
  | ended {ts us s} (front : IsProgram ts) (stmt : IsStmt us) (kind : s.kind = .semicolon) :
      IsProgram (ts ++ us ++ [s])

theorem IsExpr.ne_nil {ts : List Token} (h : IsExpr ts) : ts ≠ [] := by
  cases h <;> simp

/-! ### The scan -/

/-- What may come next: a statement, the name or the equals sign of a binding, an operand inside so
many parentheses, or what follows an operand there. -/
inductive Phase where
  | fresh
  | name
  | equals
  | operand (depth : Nat)
  | done (depth : Nat)
  deriving DecidableEq

namespace Phase

/-- May the program end here? -/
def accepts : Phase → Bool
  | fresh | done 0 => true
  | _ => false

def operandStep (depth : Nat) (t : Token) : Option Phase :=
  match t.kind.opening? with
  | some .ident | some .bool => some (done depth)
  | some .int => if (Decimal.value t.text.toList : Int) ≤ Decimal.maximum then some (done depth) else none
  | some .unary => some (operand depth)
  | some .group => some (operand (depth + 1))
  | none => none

def start (t : Token) : Option Phase :=
  match t.kind.form? with
  | some .binding => some name
  | some .ret => some (operand 0)
  | _ => operandStep 0 t

def step : Phase → Token → Option Phase
  | fresh, t => start t
  | name, t => if t.kind = .ident then some equals else none
  | equals, t => if t.kind = .assign then some (operand 0) else none
  | operand depth, t => operandStep depth t
  | done 0, t =>
    if t.kind.isOperator then some (operand 0)
    else if t.kind = .semicolon then some fresh
    else start t
  | done (depth + 1), t =>
    if t.kind.isOperator then some (operand (depth + 1))
    else if t.kind = .closeParen then some (done depth)
    else none

def walk (q : Phase) : List Token → Option Phase
  | [] => some q
  | t :: ts => (q.step t).bind fun r => r.walk ts

end Phase

open Phase

variable {q r : Phase} {t : Token} {ts us : List Token} {depth : Nat}

theorem walk_append (q : Phase) (ts us : List Token) :
    q.walk (ts ++ us) = (q.walk ts).bind fun r => r.walk us := by
  induction ts generalizing q with
  | nil => rfl
  | cons t ts ih =>
    simp only [List.cons_append, walk, Option.bind_assoc]
    congr 1
    funext r
    exact ih r

theorem walk_trans (first : q.walk ts = some r) : q.walk (ts ++ us) = r.walk us := by
  rw [walk_append, first, Option.bind_some]

theorem walk_singleton (q : Phase) (t : Token) : q.walk [t] = q.step t := by
  rw [walk]
  cases q.step t <;> rfl

theorem walk_cons (first : q.step t = some r) : q.walk (t :: ts) = r.walk ts := by
  rw [walk, first, Option.bind_some]

theorem step_done_operator (operator : t.kind.isOperator = true) :
    (done depth).step t = some (operand depth) := by
  cases depth <;> simp only [step, if_pos operator]

theorem operandStep_unary (kind : t.kind = .bang ∨ t.kind = .minus) :
    operandStep depth t = some (operand depth) := by
  rcases kind with kind | kind <;> simp only [operandStep, kind, Kind.opening?]

theorem operandStep_group (kind : t.kind = .openParen) :
    operandStep depth t = some (operand (depth + 1)) := by
  simp only [operandStep, kind, Kind.opening?]

theorem form?_eq_binding {k : Kind} : k.form? = some .binding ↔ k = .kwLet := by
  cases k <;> simp [Kind.form?]

theorem form?_eq_ret {k : Kind} : k.form? = some .ret ↔ k = .kwReturn := by
  cases k <;> simp [Kind.form?]

theorem start_let (kind : t.kind = .kwLet) : start t = some name := by
  simp only [start, kind, Kind.form?]

theorem start_return (kind : t.kind = .kwReturn) : start t = some (operand 0) := by
  simp only [start, kind, Kind.form?]

theorem start_of_operandStep (h : operandStep 0 t = some r) : start t = some r := by
  have plain : t.kind.form? = none := by
    unfold operandStep at h
    cases kind : t.kind <;> simp_all [Kind.opening?, Kind.form?]
  rw [start, plain]
  exact h

theorem step_of_start (accepts : q.accepts = true) (h : start t = some r) : q.step t = some r := by
  match q, accepts with
  | .fresh, _ => exact h
  | .done 0, _ =>
    by_cases operator : t.kind.isOperator = true
    · rw [step_done_operator operator, ← h]
      unfold start operandStep at h ⊢
      cases kind : t.kind <;> simp_all [Kind.isOperator, Kind.form?, Kind.opening?]
    · have bare : t.kind ≠ .semicolon := by
        intro kind
        simp [start, operandStep, kind, Kind.form?, Kind.opening?] at h
      rw [step, if_neg operator, if_neg bare, h]

/-! ### The scan accepts every program -/

theorem walk_expr (h : IsExpr ts) (depth : Nat) : (operand depth).walk ts = some (done depth) := by
  induction h generalizing depth with
  | ident kind => simp [walk, step, operandStep, kind, Kind.opening?]
  | int kind fits => simp only [walk, step, operandStep, kind, Kind.opening?, if_pos fits, Option.bind_some]
  | bool kind => rcases kind with kind | kind <;> simp [walk, step, operandStep, kind, Kind.opening?]
  | unary kind operand ih =>
    rw [walk_cons (q := .operand depth) (operandStep_unary kind), ih]
  | binary operator left right first second =>
    rw [walk_trans (first depth), walk_cons (step_done_operator operator), second]
  | group opened closed inner ih =>
    rw [List.cons_append, walk_cons (q := .operand depth) (operandStep_group opened),
      walk_trans (ih (depth + 1)), walk_singleton, step, closed]
    rfl

theorem walk_of_operand (accepts : q.accepts = true) (nonempty : ts ≠ [])
    (h : (operand 0).walk ts = some r) : q.walk ts = some r := by
  obtain ⟨t, ts, rfl⟩ := List.exists_cons_of_ne_nil nonempty
  obtain ⟨next, first, rest⟩ := Option.bind_eq_some_iff.1 h
  rw [walk_cons (step_of_start accepts (start_of_operandStep first)), rest]

theorem walk_stmt (h : IsStmt ts) (accepts : q.accepts = true) : q.walk ts = some (done 0) := by
  cases h with
  | binding keyword name sign value =>
    rw [walk_cons (step_of_start accepts (start_let keyword)), walk_cons (by rw [step, if_pos name]),
      walk_cons (by rw [step, if_pos sign])]
    exact walk_expr value 0
  | ret keyword value =>
    rw [walk_cons (step_of_start accepts (start_return keyword))]
    exact walk_expr value 0
  | expr value => exact walk_of_operand accepts value.ne_nil (walk_expr value 0)

theorem walk_program (h : IsProgram ts) : ∃ q, fresh.walk ts = some q ∧ q.accepts = true := by
  induction h with
  | nil => exact ⟨fresh, rfl, rfl⟩
  | bare front stmt ih =>
    obtain ⟨q, walked, accepts⟩ := ih
    exact ⟨done 0, by rw [walk_trans walked, walk_stmt stmt accepts], rfl⟩
  | ended front stmt kind ih =>
    obtain ⟨q, walked, accepts⟩ := ih
    refine ⟨fresh, ?_, rfl⟩
    rw [List.append_assoc, walk_trans walked, walk_trans (walk_stmt stmt accepts), walk_singleton, step, kind]
    rfl

/-! ### What the scan has seen -/

/-- The list lacks an expression inside `depth` parentheses to be one statement more. -/
inductive Gap : Nat → List Token → Prop where
  | stmt {ts lead} (front : IsProgram ts) (slot : ∀ es, IsExpr es → IsStmt (lead ++ es)) :
      Gap 0 (ts ++ lead)
  | paren {depth ts lead a} (front : Gap depth ts) (slot : ∀ es, IsExpr es → IsExpr (lead ++ es))
      (opened : a.kind = .openParen) : Gap (depth + 1) (ts ++ lead ++ [a])

def Seen : Phase → List Token → Prop
  | fresh, ts => IsProgram ts
  | name, ts => ∃ front l, ts = front ++ [l] ∧ IsProgram front ∧ l.kind = .kwLet
  | equals, ts => ∃ front l x, ts = front ++ [l, x] ∧ IsProgram front ∧ l.kind = .kwLet ∧ x.kind = .ident
  | operand depth, ts => ∃ front lead, ts = front ++ lead ∧ Gap depth front ∧
      ∀ es, IsExpr es → IsExpr (lead ++ es)
  | done depth, ts => ∃ front es, ts = front ++ es ∧ Gap depth front ∧ IsExpr es

theorem seen_operandStep {lead : List Token} (h : operandStep depth t = some q) (front : Gap depth ts)
    (slot : ∀ es, IsExpr es → IsExpr (lead ++ es)) : Seen q (ts ++ lead ++ [t]) := by
  have atom : IsExpr [t] → Seen (done depth) (ts ++ lead ++ [t]) := fun single =>
    ⟨ts, lead ++ [t], by rw [List.append_assoc], front, slot _ single⟩
  unfold operandStep at h
  cases kind : t.kind <;> simp only [kind, Kind.opening?, Option.some.injEq, reduceCtorEq] at h
  case ident => exact h ▸ atom (.ident kind)
  case int =>
    split at h
    · obtain rfl := Option.some.inj h
      exact atom (.int kind ‹_›)
    · contradiction
  case kwTrue => exact h ▸ atom (.bool (.inl kind))
  case kwFalse => exact h ▸ atom (.bool (.inr kind))
  case bang | minus =>
    subst h
    refine ⟨ts, lead ++ [t], by rw [List.append_assoc], front, fun es operand => ?_⟩
    rw [List.append_assoc]
    exact slot _ (.unary (by simp [kind]) operand)
  case openParen =>
    subst h
    exact ⟨_, [], (List.append_nil _).symm, .paren front slot kind, fun es whole => whole⟩

theorem seen_start (h : start t = some q) (front : IsProgram ts) : Seen q (ts ++ [t]) := by
  unfold start at h
  split at h
  · rename_i form
    obtain rfl := Option.some.inj h
    exact ⟨ts, t, rfl, front, form?_eq_binding.1 form⟩
  · rename_i form
    obtain rfl := Option.some.inj h
    have keyword := form?_eq_ret.1 form
    exact ⟨ts ++ [t], [], (List.append_nil _).symm, .stmt front fun es value => .ret keyword value,
      fun es whole => whole⟩
  · have gap : Gap 0 (ts ++ []) := .stmt front fun es value => .expr value
    have seen : Seen q (ts ++ [] ++ [] ++ [t]) := seen_operandStep h gap fun es whole => whole
    simpa using seen

theorem seen_accepts (h : Seen q ts) (accepts : q.accepts = true) : IsProgram ts := by
  match q, accepts with
  | .fresh, _ => exact h
  | .done 0, _ =>
    obtain ⟨_, es, rfl, ⟨front, slot⟩, whole⟩ := h
    rw [List.append_assoc]
    exact .bare front (slot es whole)

theorem seen_step (h : Seen q ts) (next : q.step t = some r) : Seen r (ts ++ [t]) := by
  have operator : ∀ depth, Seen (done depth) ts → t.kind.isOperator = true →
      Seen (operand depth) (ts ++ [t]) := by
    rintro depth ⟨front, es, rfl, gap, whole⟩ sign
    refine ⟨front, es ++ [t], by rw [List.append_assoc], gap, fun right operand => ?_⟩
    rw [List.append_assoc]
    exact .binary sign whole operand
  match q with
  | .fresh => exact seen_start next h
  | .name =>
    obtain ⟨front, l, rfl, program, keyword⟩ := h
    rw [step] at next
    split at next
    · obtain rfl := Option.some.inj next
      exact ⟨front, l, t, by simp, program, keyword, ‹_›⟩
    · contradiction
  | .equals =>
    obtain ⟨front, l, x, rfl, program, keyword, ident⟩ := h
    rw [step] at next
    split at next
    · rename_i sign
      obtain rfl := Option.some.inj next
      refine ⟨front ++ [l, x, t], [], by simp, ?_, fun es whole => whole⟩
      exact .stmt program fun es value => .binding keyword ident sign value
    · contradiction
  | .operand depth =>
    obtain ⟨front, lead, rfl, gap, slot⟩ := h
    exact seen_operandStep next gap slot
  | .done 0 =>
    rw [step] at next
    split at next
    · obtain rfl := Option.some.inj next
      exact operator 0 h ‹_›
    · split at next
      · rename_i semicolon
        obtain rfl := Option.some.inj next
        obtain ⟨_, es, rfl, ⟨front, slot⟩, whole⟩ := h
        have ended := IsProgram.ended front (slot es whole) semicolon
        rw [List.append_assoc] at ended
        rw [Seen, List.append_assoc, List.append_assoc]
        simpa using ended
      · exact seen_start next (seen_accepts h rfl)
  | .done (depth + 1) =>
    rw [step] at next
    split at next
    · obtain rfl := Option.some.inj next
      exact operator (depth + 1) h ‹_›
    · split at next
      · rename_i closed
        obtain rfl := Option.some.inj next
        obtain ⟨_, es, rfl, gap, whole⟩ := h
        cases gap with
        | paren front slot opened =>
          exact ⟨_, _, by simp, front, slot _ (.group opened closed whole)⟩
      · contradiction

theorem seen_walk (h : Seen q ts) (walked : q.walk us = some r) : Seen r (ts ++ us) := by
  induction us generalizing q ts with
  | nil =>
    obtain rfl := Option.some.inj walked
    simpa using h
  | cons t us ih =>
    obtain ⟨next, first, rest⟩ := Option.bind_eq_some_iff.1 walked
    simpa using ih (seen_step h first) rest

theorem isProgram_iff : IsProgram ts ↔ ∃ q, fresh.walk ts = some q ∧ q.accepts = true := by
  constructor
  · exact walk_program
  · rintro ⟨q, walked, accepts⟩
    have empty : Seen fresh [] := .nil
    exact seen_accepts (seen_walk empty walked) accepts

/-! ### Completions -/

/-- Tokens that complete a program at this point. -/
def Phase.finish : Phase → List Token
  | fresh => []
  | name => [⟨.ident, "x", {}⟩, ⟨.assign, "=", {}⟩, ⟨.ident, "x", {}⟩]
  | equals => [⟨.assign, "=", {}⟩, ⟨.ident, "x", {}⟩]
  | operand depth => ⟨.ident, "x", {}⟩ :: List.replicate depth ⟨.closeParen, ")", {}⟩
  | done depth => List.replicate depth ⟨.closeParen, ")", {}⟩

theorem walk_close (depth : Nat) : (done depth).walk (done depth).finish = some (done 0) := by
  induction depth with
  | zero => rfl
  | succ depth ih => exact ih

theorem walk_finish (q : Phase) : ∃ r, q.walk q.finish = some r ∧ r.accepts = true := by
  cases q with
  | fresh => exact ⟨fresh, rfl, rfl⟩
  | name => exact ⟨done 0, rfl, rfl⟩
  | equals => exact ⟨done 0, rfl, rfl⟩
  | operand depth => exact ⟨done 0, walk_close depth, rfl⟩
  | done depth => exact ⟨done 0, walk_close depth, rfl⟩

theorem viable_iff : (∃ us, IsProgram us ∧ ts <+: us) ↔ ∃ q, fresh.walk ts = some q := by
  constructor
  · rintro ⟨us, program, more, rfl⟩
    obtain ⟨q, walked, -⟩ := walk_program program
    rw [walk_append] at walked
    obtain ⟨r, first, -⟩ := Option.bind_eq_some_iff.1 walked
    exact ⟨r, first⟩
  · rintro ⟨q, walked⟩
    obtain ⟨r, rest, accepts⟩ := walk_finish q
    exact ⟨ts ++ q.finish, isProgram_iff.2 ⟨r, (walk_trans walked).trans rest, accepts⟩,
      List.prefix_append ..⟩

/-- The token cannot stand here. The end token can where the program may end. -/
def Phase.Refuses (q : Phase) (t : Token) : Prop :=
  if t.kind = .eof then q.accepts = false else q.step t = none

/-- A program may start with the tokens, but it neither goes on with `t` nor, if that is the end
token, ends there. -/
def BreaksAt (ts : List Token) (t : Token) : Prop :=
  (∃ us, IsProgram us ∧ ts <+: us) ∧
    if t.kind = .eof then ¬ IsProgram ts else ∀ us, IsProgram us → ¬ ts ++ [t] <+: us

theorem breaksAt_of_refuses (walked : fresh.walk ts = some q) (h : q.Refuses t) : BreaksAt ts t := by
  refine ⟨viable_iff.2 ⟨q, walked⟩, ?_⟩
  by_cases last : t.kind = .eof
  · rw [Phase.Refuses, if_pos last] at h
    rw [if_pos last]
    intro program
    obtain ⟨r, walked', accepts⟩ := walk_program program
    obtain rfl := Option.some.inj (walked.symm.trans walked')
    simp [h] at accepts
  · rw [Phase.Refuses, if_neg last] at h
    rw [if_neg last]
    intro us program longer
    obtain ⟨r, further⟩ := viable_iff.1 ⟨us, program, longer⟩
    rw [walk_trans walked, walk_singleton, h] at further
    contradiction

end LetLang.Language
