import LetLang.Proofs.Expr.Notes
import LetLang.Proofs.Parse.Position
import LetLang.Proofs.Program.Layout

/-!
# The log is a trace of the parse

Between its first and its last record, the log of a source goes through the tokens in order, tells of
every attempt and every diagnostic, and, if there is no diagnostic, goes through the operators of the
program in post-order (`ofText_log`). The end token comes into view twice, or three times where the last
attempt found it in the place of an expression.
-/

namespace LetLang

open Log (Record)
open Parse (State finalState)
open Text (byteLength)
open Token (endAt nth)

variable {source : String} {s t u : State} {k n : Nat} {d : Diagnostic}

namespace Token

theorem nth_eq_endAt (h : (Token.body source).length ≤ k) : nth source k = endAt (byteLength source.toList) :=
  eq_endAt_of_eof (nth_mem source k) ((nth_eof_iff source k).2 h)

end Token

/-! ### Diagnostics at the end of a source -/

/-- An expression is due at the current token, but none is opened there. -/
def Fault.isRefusal : Fault → Bool
  | noOpening _ | nestingTooDeep _ => true
  | _ => false

/-- The end of the source stands in the place of an expression. -/
def Diagnostic.refusesEnd (source : String) (d : Diagnostic) : Bool :=
  d.fault.isRefusal && d.span == (endAt (byteLength source.toList)).span

theorem Fault.not_refusal {f : Fault} (h : f.isUnexpected = true) : f.isRefusal = false := by
  cases f <;> first | rfl | contradiction

theorem Fault.Fits.refusal {f : Fault} {t : Token} (h : f.Fits t) (last : t.kind = .eof)
    (here : f.isUnexpected = false) : f.isRefusal = true := by
  cases f with
  | noOpening | nestingTooDeep => rfl
  | unexpectedToken => contradiction
  | badNumber =>
    obtain ⟨number, -⟩ := h
    rw [last] at number
    contradiction

theorem Diagnostic.Blames.refusesEnd_iff (h : d.Blames s.window) (start : s.Tracks source k)
    (within : k ≤ (Token.body source).length) : d.refusesEnd source = true ↔ k = (Token.body source).length := by
  cases h with
  | ahead cause inside fits =>
    have before := start.inside inside
    simp only [refusesEnd, Fault.not_refusal cause, Bool.false_and, Bool.false_eq_true, false_iff]
    omega
  | here cause fits =>
    rw [start.stands.current] at fits
    simp only [refusesEnd, Bool.and_eq_true, beq_iff_eq, fits.place]
    constructor
    · rintro ⟨-, place⟩
      rw [← Token.nth_eq_endAt (Nat.le_refl _)] at place
      have same := congrArg (((Token.ofText source).map Token.span).idxOf) place
      rw [Token.idxOf_span, Token.idxOf_span] at same
      omega
    · rintro rfl
      have last := Token.nth_eq_endAt (Nat.le_refl (Token.body source).length)
      rw [last] at fits ⊢
      exact ⟨fits.cause.refusal rfl cause, rfl⟩

/-! ### Statements -/

namespace Stmt

variable {r : EStateM.Result Diagnostic State Stmt} {o : Expr.Outcome} {make : Expr → Stmt} {x : Stmt} {e : Expr}

theorem Lead.traces (h : Lead s t make) : (s.note (.statement s.current)).Traces t := by
  cases h with
  | binding => exact (State.Traces.advance _).of_advance.of_advance
  | ret => exact .advance _
  | expr => exact .refl _

theorem Lead.tracks (h : Lead s t make) (start : s.Tracks source k) (inside : s.current.kind ≠ .eof) :
    ∃ j ≤ (Token.body source).length, t.Tracks source j := by
  have noted : (s.note (.statement s.current)).Tracks source k := start.note rfl
  have first := start.inside inside
  cases h with
  | expr => exact ⟨k, Nat.le_of_lt first, noted⟩
  | ret => exact ⟨k + 1, first, noted.advance⟩
  | binding form name sign =>
    have third : k + 1 + 1 < (Token.body source).length := start.advance.inside_ahead (by rw [sign]; decide)
    exact ⟨k + 3, third, noted.advance.advance.advance⟩

theorem Lead.operators_eq (h : Lead s t make) : t.operators = s.operators := by
  have noted := State.operators_note_of_none (s := s) (r := .statement s.current) rfl
  cases h <;> simp only [State.operators_advance, noted]

theorem Value.traces (h : Value s o) : s.Traces (finalState o) := by
  cases h with
  | ended run kind => exact run.traces.trans (.advance _)
  | bare run | fails run => exact run.traces

theorem Value.tracked (h : Value s o) (start : s.Tracks source k) (within : k ≤ (Token.body source).length) :
    Parse.Tracked source o := by
  cases h with
  | ended run kind =>
    obtain ⟨j, before, there⟩ := run.tracked start within trivial
    exact ⟨j + 1, there.inside_ahead (by rw [kind]; decide), there.advance⟩
  | bare run | fails run => exact run.tracked start within trivial

theorem Value.operators_eq (h : Value s (.ok e t)) : t.operators = s.operators ++ e.operators := by
  cases h with
  | ended run => rw [State.operators_advance, run.operators_eq]
  | bare run => exact run.operators_eq

theorem Run.traces (h : Run s r) : (s.note (.statement s.current)).Traces (finalState r) := by
  cases h with
  | noName => exact .refl _
  | noEquals => exact .advance _
  | done lead value | fails lead value => exact lead.traces.trans value.traces

theorem Run.tracked (h : Run s r) (start : s.Tracks source k) (inside : s.current.kind ≠ .eof) :
    Parse.Tracked source r := by
  have noted : (s.note (.statement s.current)).Tracks source k := start.note rfl
  have first := start.inside inside
  cases h with
  | noName => exact ⟨k, Nat.le_of_lt first, noted⟩
  | noEquals => exact ⟨k + 1, first, noted.advance⟩
  | done lead value | fails lead value =>
    obtain ⟨j, before, there⟩ := lead.tracks start inside
    exact value.tracked there before

theorem Run.operators_eq (h : Run s (.ok x t)) : t.operators = s.operators ++ x.value.operators := by
  cases h with
  | done lead value => rw [value.operators_eq, lead.operators_eq, lead.value_eq]

end Stmt

/-! ### Programs -/

/-- The log tells of all recorded diagnostics in their order and of so many attempts at a statement, and it
has none of the records that open and close a parse. -/
structure Parse.State.Accounts (attempts : Nat) (s : State) : Prop where
  faults : s.log.filterMap Record.fault? = s.diagnostics
  statements : s.log.countP Record.isStatement = attempts
  details : ∀ r ∈ s.log, r.level ≠ .info

namespace Parse.State.Accounts

theorem traces (h : s.Accounts n) (more : s.Traces t) (same : t.diagnostics = s.diagnostics) : t.Accounts n := by
  obtain ⟨notes, whole, lowest⟩ := more
  have faultless : notes.filterMap Record.fault? = [] :=
    List.filterMap_eq_nil_iff.2 fun r member => Record.fault?_eq_none (lowest r member)
  have idle : notes.countP Record.isStatement = 0 :=
    List.countP_eq_zero.2 fun r member => by rw [Record.isStatement_eq_false (lowest r member)]; decide
  refine ⟨?_, ?_, ?_⟩
  · rw [whole, List.filterMap_append, faultless, h.faults, same, List.nil_append]
  · rw [whole, List.countP_append, idle, h.statements, Nat.zero_add]
  · rw [whole]
    exact List.forall_mem_append.2 ⟨fun r member => by rw [lowest r member]; decide, h.details⟩

theorem statement (h : s.Accounts n) (token : Token) : (s.note (.statement token)).Accounts (n + 1) :=
  ⟨h.faults, (List.countP_cons_of_pos rfl).trans (congrArg (· + 1) h.statements),
    List.forall_mem_cons.2 ⟨nofun, h.details⟩⟩

theorem record (h : s.Accounts n) (d : Diagnostic) : (s.record d).Accounts n :=
  ⟨congrArg (d :: ·) h.faults, h.statements, List.forall_mem_cons.2 ⟨nofun, h.details⟩⟩

theorem attempt {r : EStateM.Result Diagnostic State Stmt} (h : s.Accounts n) (stmt : Stmt.Run s r) :
    (finalState r).Accounts (n + 1) := (h.statement s.current).traces stmt.traces stmt.keeps.2

theorem advance (h : s.Accounts n) : s.advance.Accounts n := h.traces (.advance s) rfl

end Parse.State.Accounts

namespace Program

variable {xs : List Stmt}

/-- The binary operators with their powers, statement by statement in post-order. -/
def operators (p : Program) : List (String × Power) := p.statements.flatMap (·.value.operators)

/-- Reading stops at the end token, or one step behind it where the last attempt failed at it. -/
theorem Run.tracks (h : Run s xs u) (start : s.Tracks source k) (within : k ≤ (Token.body source).length) :
    ∃ new : List Diagnostic, u.diagnostics = new.reverse ++ s.diagnostics ∧
      u.Tracks source ((Token.body source).length + if new.getLast?.any (·.refusesEnd source) then 1 else 0) := by
  induction h generalizing k with
  | finished last =>
    have ends := (Parse.isFinished_iff_of_at start.stands).1 last
    exact ⟨[], rfl, Nat.le_antisymm within ends ▸ start⟩
  | @parsed s x t xs u more stmt rest ih =>
    obtain ⟨j, before, there⟩ := stmt.tracked start (ne_eof_of_isFinished more)
    obtain ⟨new, same, stop⟩ := ih there.advance before
    have kept : t.diagnostics = s.diagnostics := stmt.keeps.2
    exact ⟨new, by rw [same, ← kept]; rfl, stop⟩
  | @failed s d t xs u more stmt rest ih =>
    have inside := ne_eof_of_isFinished more
    obtain ⟨j, before, there⟩ := stmt.tracked start inside
    have ends := (stmt.blamed start.stands.numeric inside).refusesEnd_iff there before
    have next := (there.record d).advance
    rcases Nat.lt_or_eq_of_le before with earlier | rfl
    · obtain ⟨new, same, stop⟩ := ih next earlier
      refine ⟨d :: new, by rw [same, stmt.recorded, List.reverse_cons, List.append_assoc]; rfl, ?_⟩
      cases new with
      | nil =>
        have passed : d.refusesEnd source = false := by
          rw [← Bool.not_eq_true, ends]
          omega
        simpa [passed] using stop
      | cons e new => rwa [List.getLast?_cons_cons]
    · -- Behind the end token there is no further attempt.
      have finished := (Parse.isFinished_iff_of_at next.stands).2 (Nat.le_succ _)
      cases rest with
      | finished => exact ⟨[d], stmt.recorded, by simpa [ends] using next⟩
      | parsed more | failed more => exact absurd finished (by rw [more]; decide)

/-- Without a diagnostic every attempt gives a statement. -/
theorem Run.operators_eq (h : Run s xs u) (clean : u.diagnostics = s.diagnostics) :
    u.operators = s.operators ++ xs.flatMap (·.value.operators) := by
  induction h with
  | finished => exact (List.append_nil _).symm
  | parsed more stmt rest ih =>
    rw [ih (clean.trans stmt.keeps.2.symm), State.operators_advance, stmt.operators_eq, List.append_assoc]
    rfl
  | @failed s d t xs u more stmt rest ih =>
    obtain ⟨new, same⟩ := rest.appends
    have longer := congrArg List.length (same.symm.trans clean)
    rw [stmt.recorded, List.length_append, List.length_cons] at longer
    omega

example : (ofText "-1 * 2 +").log.map Record.message = ["parsing 8 bytes", "token - at 0", "token INT (1) at 1",
    "statement at -", "token * at 3", "token INT (2) at 5", "token + at 7", "infix * at Product",
    "token EOF at 8", "token EOF at 8", "parse error at 8..8: no prefix parse function for EOF found",
    "token EOF at 8", "parsed 0 statements with 1 errors"] := by
  decide +kernel

end Program

end LetLang
