import LetLang.Proofs.Expr.Run
import LetLang.Proofs.Token.Shift

/-!
# Reading in lockstep

Two windows that show the same tokens at other places, up to the next semicolon at least, lead the
expression reader to the same outcome at other places (`Run.echoed`): nothing behind a semicolon is
looked at, and a semicolon is never moved over.
-/

namespace LetLang

open Parse (State)
open Token (Kind Window)

def Diagnostic.mapSpan (g : Span → Span) (d : Diagnostic) : Diagnostic := { d with span := g d.span }

/-- The same expression at another place. -/
def Expr.mapSpan (g : Span → Span) : Expr → Expr
  | ident t name => ident (t.mapSpan g) name
  | int t value => int (t.mapSpan g) value
  | bool t value => bool (t.mapSpan g) value
  | unary t operator operand => unary (t.mapSpan g) operator (operand.mapSpan g)
  | binary t operator left right => binary (t.mapSpan g) operator (left.mapSpan g) (right.mapSpan g)

variable {g : Span → Span} {R : Window → Window → Prop} {α : Type} {f : α → α} {s s' : State}

theorem Diagnostic.mapSpan_id (d : Diagnostic) : d.mapSpan id = d := rfl

theorem Expr.mapSpan_id (e : Expr) : e.mapSpan id = e := by
  induction e with
  | unary t operator operand ih => rw [mapSpan, ih, Token.mapSpan_id]
  | binary t operator left right first second => rw [mapSpan, first, second, Token.mapSpan_id]
  | _ => rfl

namespace Parse

/-- Related windows show the same token at another place, and stay related over all but semicolons. -/
structure Lockstep (g : Span → Span) (R : Window → Window → Prop) : Prop where
  shows {w v : Window} : R w v → v.current = w.current.mapSpan g
  moves {w v : Window} : R w v → w.current.kind ≠ .semicolon → R w.advance v.advance

structure Abreast (R : Window → Window → Prop) (s s' : State) : Prop where
  window : R s.window s'.window
  depth : s'.depth = s.depth

inductive Echoes (g : Span → Span) (R : Window → Window → Prop) (f : α → α) :
    EStateM.Result Diagnostic State α → EStateM.Result Diagnostic State α → Prop where
  | ok {a t t'} (same : Abreast R t t') : Echoes g R f (.ok a t) (.ok (f a) t')
  | error {d t t'} (same : Abreast R t t') : Echoes g R f (.error d t) (.error (d.mapSpan g) t')

namespace Abreast

theorem current (same : Abreast R s s') (lock : Lockstep g R) : s'.current = s.current.mapSpan g :=
  lock.shows same.window

theorem advance (same : Abreast R s s') (lock : Lockstep g R) (bare : s.current.kind ≠ .semicolon) :
    Abreast R s.advance s'.advance := ⟨lock.moves same.window bare, same.depth⟩

theorem ahead (same : Abreast R s s') (lock : Lockstep g R) (bare : s.current.kind ≠ .semicolon) :
    s'.ahead = s.ahead.mapSpan g := (same.advance lock bare).current lock

theorem note (same : Abreast R s s') (r r' : Log.Record) : Abreast R (s.note r) (s'.note r') :=
  ⟨same.window, same.depth⟩

theorem enter (same : Abreast R s s') : Abreast R s.enter s'.enter :=
  ⟨same.window, congrArg (· + 1) same.depth⟩

theorem leave (same : Abreast R s s') : Abreast R s.leave s'.leave :=
  ⟨same.window, congrArg (· - 1) same.depth⟩

end Abreast

end Parse

namespace Expr

open Parse (Lockstep Abreast Echoes)

variable {task : Task} {r r' : Outcome} {p : Power}

def Task.mapSpan (g : Span → Span) : Task → Task
  | climb p left => climb p (left.mapSpan g)
  | task => task

/-- A `climb` goes on behind an operand, which is not a semicolon. -/
def Task.Bare : Task → State → Prop
  | .climb .., s => s.current.kind ≠ .semicolon
  | _, _ => True

theorem ne_semicolon_of_opening? {k : Kind} {o : Opening} (h : k.opening? = some o) : k ≠ .semicolon := by
  rintro rfl
  simp [Kind.opening?] at h

theorem ne_semicolon_of_power_lt {k : Kind} (h : p < k.power) : k ≠ .semicolon := by
  rintro rfl
  exact absurd h (Nat.not_lt_zero p.rank)

theorem echoes_leave (h : Echoes g R (mapSpan g) r r') :
    Echoes g R (mapSpan g) (Outcome.leave r) (Outcome.leave r') := by
  cases h with
  | ok same => exact .ok same.leave
  | error same => exact .error same.leave

/-- An expression does not end in a semicolon. -/
def Outcome.Bare : Outcome → Prop
  | .ok _ t => t.current.kind ≠ .semicolon
  | .error .. => True

theorem Run.bare (h : Run task s r) (started : task.Bare s) : Outcome.Bare r := by
  induction h with
  | @whole s p r room body ih =>
    have inside := ih trivial
    cases r <;> exact inside
  | opened opening rest first second => exact second (first trivial)
  | ident kind | int kind value | bool kind => exact ne_semicolon_of_opening? kind
  | unary kind operand ih => exact ih trivial
  | @group s e t kind inner closed ih =>
    show t.ahead.kind ≠ .semicolon
    rw [closed]
    decide
  | stop weak => exact started
  | step tight operand rest first second => exact second (first trivial)
  | _ => trivial

theorem Run.echoed (lock : Lockstep g R) (h : Run task s r) (started : task.Bare s)
    (same : Abreast R s s') :
    ∃ r', Run (task.mapSpan g) s' r' ∧ Echoes g R (mapSpan g) r r' := by
  induction h generalizing s' with
  | tooDeep full =>
    refine ⟨_, .tooDeep (by rw [same.depth]; exact full), ?_⟩
    rw [same.current lock]
    exact .error same
  | whole room body ih =>
    obtain ⟨r', run, echo⟩ := ih trivial same.enter
    exact ⟨_, .whole (by rw [same.depth]; exact room) run, echoes_leave echo⟩
  | noOpening none =>
    have shown := same.current lock
    refine ⟨_, .noOpening (by rw [shown]; exact none), ?_⟩
    rw [shown]
    exact .error same
  | openingFails opening ih =>
    obtain ⟨_, run, echo⟩ := ih trivial same
    cases echo with
    | error after => exact ⟨_, .openingFails run, .error after⟩
  | opened opening rest first second =>
    obtain ⟨_, run, echo⟩ := first trivial same
    cases echo with
    | ok after =>
      obtain ⟨r', run', echo'⟩ := second (opening.bare trivial) after
      exact ⟨r', .opened run run', echo'⟩
  | ident kind =>
    have shown := same.current lock
    refine ⟨_, .ident (by rw [shown]; exact kind), ?_⟩
    rw [shown]
    exact .ok same
  | int kind value =>
    have shown := same.current lock
    refine ⟨_, .int (by rw [shown]; exact kind) (by rw [shown]; exact value), ?_⟩
    rw [shown]
    exact .ok same
  | badInt kind value =>
    have shown := same.current lock
    refine ⟨_, .badInt (by rw [shown]; exact kind) (by rw [shown]; exact value), ?_⟩
    rw [shown]
    exact .error same
  | bool kind =>
    have shown := same.current lock
    refine ⟨_, .bool (by rw [shown]; exact kind), ?_⟩
    rw [shown]
    exact .ok same
  | unary kind operand ih =>
    have shown := same.current lock
    obtain ⟨_, run, echo⟩ := ih trivial (same.advance lock (ne_semicolon_of_opening? kind))
    cases echo with
    | ok after =>
      refine ⟨_, .unary (by rw [shown]; exact kind) run, ?_⟩
      rw [shown]
      exact .ok after
  | unaryFails kind operand ih =>
    have shown := same.current lock
    obtain ⟨_, run, echo⟩ := ih trivial (same.advance lock (ne_semicolon_of_opening? kind))
    cases echo with
    | error after => exact ⟨_, .unaryFails (by rw [shown]; exact kind) run, .error after⟩
  | group kind inner closed ih =>
    have shown := same.current lock
    obtain ⟨_, run, echo⟩ := ih trivial (same.advance lock (ne_semicolon_of_opening? kind))
    cases echo with
    | ok after =>
      have last := inner.bare trivial
      have closed' := after.ahead lock last
      exact ⟨_, .group (by rw [shown]; exact kind) run (by rw [closed']; exact closed),
        .ok (after.advance lock last)⟩
  | groupFails kind inner ih =>
    have shown := same.current lock
    obtain ⟨_, run, echo⟩ := ih trivial (same.advance lock (ne_semicolon_of_opening? kind))
    cases echo with
    | error after => exact ⟨_, .groupFails (by rw [shown]; exact kind) run, .error after⟩
  | unclosed kind inner unclosed ih =>
    have shown := same.current lock
    obtain ⟨_, run, echo⟩ := ih trivial (same.advance lock (ne_semicolon_of_opening? kind))
    cases echo with
    | ok after =>
      have unclosed' := after.ahead lock (inner.bare trivial)
      refine ⟨_, .unclosed (by rw [shown]; exact kind) run (by rw [unclosed']; exact unclosed), ?_⟩
      rw [unclosed']
      exact .error after
  | stop weak => exact ⟨_, .stop (by rw [same.ahead lock started]; exact weak), .ok same⟩
  | step tight operand rest first second =>
    have shown := same.ahead lock started
    have onto := (same.advance lock started).advance lock (ne_semicolon_of_power_lt tight)
    obtain ⟨_, run, echo⟩ := first trivial onto
    cases echo with
    | ok after =>
      obtain ⟨r', run', echo'⟩ := second (operand.bare trivial) (after.note _ _)
      refine ⟨r', .step (by rw [shown]; exact tight) (by rw [shown]; exact run) ?_, echo'⟩
      rw [shown]
      exact run'
  | stepFails tight operand ih =>
    have shown := same.ahead lock started
    have onto := (same.advance lock started).advance lock (ne_semicolon_of_power_lt tight)
    obtain ⟨_, run, echo⟩ := ih trivial onto
    cases echo with
    | error after =>
      exact ⟨_, .stepFails (by rw [shown]; exact tight) (by rw [shown]; exact run), .error after⟩

end Expr

end LetLang
