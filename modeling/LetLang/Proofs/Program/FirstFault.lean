import LetLang.Proofs.Expr.Grammar
import LetLang.Proofs.Program.Language
import LetLang.Proofs.Program.Run

/-!
# The first diagnostic

A parse follows the scan of `Language` up to its first diagnostic. So it accepts exactly the
language (`diagnostics_eq_nil_iff`), and it blames the first token at which the source cannot be
continued to a program (`first_fault_breaks`).
-/

namespace LetLang

open Parse (State finalState)
open Token (Kind Window)
open LetLang.Language

/-- The scan follows a move from one window to another. -/
def Token.Window.Covers (w : Window) (q r : Phase) (v : Window) : Prop :=
  ∃ ts, w.Passes ts v ∧ q.walk ts = some r

/-- The diagnostic refuses the depth of nesting or a token that the scan refuses. -/
def Token.Window.Blames (w : Window) (q : Phase) (d : Diagnostic) : Prop :=
  (∃ limit, d.fault = .nestingTooDeep limit) ∨
    ∃ v r, w.Covers q r v ∧ d.span = v.current.span ∧ r.Refuses v.current

variable {w v u : Window} {q q' r : Phase} {d : Diagnostic} {p : Power} {depth : Nat}

theorem Token.Window.Covers.refl (w : Window) (q : Phase) : w.Covers q q w := ⟨[], .refl w, rfl⟩

theorem Token.Window.Covers.step (inside : w.current.kind ≠ .eof) (h : q.step w.current = some r) :
    w.Covers q r w.advance := ⟨_, .step inside, (walk_singleton q _).trans h⟩

theorem Token.Window.Covers.trans (first : w.Covers q q' u) (second : u.Covers q' r v) :
    w.Covers q r v := by
  obtain ⟨ts, moved, walked⟩ := first
  obtain ⟨us, moved', walked'⟩ := second
  exact ⟨ts ++ us, moved.trans moved', (walk_trans walked).trans walked'⟩

theorem Token.Window.Covers.blames (first : w.Covers q q' v) (second : v.Blames q' d) : w.Blames q d := by
  rcases second with deep | ⟨u, r, further, place, refused⟩
  · exact .inl deep
  · exact .inr ⟨u, r, first.trans further, place, refused⟩

theorem Token.Window.Covers.numeric (h : w.Covers q r v) (numeric : w.Numeric) : v.Numeric := by
  obtain ⟨ts, moved, -⟩ := h
  exact numeric.passes moved

theorem refuses_of_step {t : Token} (unfinished : q.accepts = false) (stuck : q.step t = none) :
    q.Refuses t := by
  unfold Phase.Refuses
  split
  · exact unfinished
  · exact stuck

theorem Token.Window.Blames.here (unfinished : q.accepts = false) (stuck : q.step w.current = none)
    (place : d.span = w.current.span) : w.Blames q d :=
  .inr ⟨w, q, .refl w q, place, refuses_of_step unfinished stuck⟩

/-! ### Expressions -/

theorem isOperator_of_power_le {k : Kind} (weak : k.power ≤ .lowest) : k.isOperator = false := by
  rw [← Bool.not_eq_true, k.isOperator_iff, Power.not_lt]
  exact weak

namespace Expr

/-- How the scan follows a run. A `climb` starts behind its left operand. -/
def Followed : Task → State → Outcome → Prop
  | .whole p, s, .ok _ t | .body p, s, .ok _ t =>
    (∀ depth, s.window.Covers (.operand depth) (.done depth) t.window.advance) ∧ t.ahead.kind.power ≤ p
  | .opening, s, .ok _ t => ∀ depth, s.window.Covers (.operand depth) (.done depth) t.window.advance
  | .climb p _, s, .ok _ t =>
    (∀ depth, s.window.advance.Covers (.done depth) (.done depth) t.window.advance) ∧ t.ahead.kind.power ≤ p
  | .climb .., s, .error d _ => ∀ depth, s.window.advance.Blames (.done depth) d
  | _, s, .error d _ => ∀ depth, s.window.Blames (.operand depth) d

variable {s : State}

theorem covers_atom {o : Opening} (kind : s.current.kind.opening? = some o)
    (h : ∀ depth, Phase.operandStep depth s.current = some (.done depth)) (depth : Nat) :
    s.window.Covers (.operand depth) (.done depth) s.window.advance :=
  .step (ne_eof_of_opening? kind) (h depth)

theorem covers_unary (kind : s.current.kind.opening? = some .unary) (depth : Nat) :
    s.window.Covers (.operand depth) (.operand depth) s.advance.window :=
  .step (ne_eof_of_opening? kind) (operandStep_unary (opening?_eq_unary.1 kind))

theorem covers_group (kind : s.current.kind.opening? = some .group) (depth : Nat) :
    s.window.Covers (.operand depth) (.operand (depth + 1)) s.advance.window :=
  .step (ne_eof_of_opening? kind) (operandStep_group (opening?_eq_group.1 kind))

theorem covers_closed (closed : s.ahead.kind = .closeParen) (depth : Nat) :
    s.window.advance.Covers (.done (depth + 1)) (.done depth) s.advance.window.advance := by
  have shut : s.window.advance.current.kind = .closeParen := closed
  refine .step (by rw [shut]; decide) ?_
  simp only [Phase.step, shut, Kind.isOperator]
  rfl

theorem covers_operator (tight : p < s.ahead.kind.power) (depth : Nat) :
    s.window.advance.Covers (.done depth) (.operand depth) s.advance.advance.window :=
  .step (ne_eof_of_power_lt tight) (step_done_operator (isOperator_of_lt tight))

theorem Run.followed {task : Task} {s : State} {r : Outcome} (h : Run task s r)
    (numeric : s.window.Numeric) : Followed task s r := by
  induction h with
  | tooDeep full => exact fun depth => .inl ⟨_, rfl⟩
  | @whole s p r room body ih =>
    have inside := ih numeric
    cases r <;> exact inside
  | @noOpening s p none =>
    intro depth
    have stuck : Phase.operandStep depth s.current = Option.none := by rw [Phase.operandStep, none]
    exact .here rfl stuck rfl
  | openingFails opening ih => exact ih numeric
  | @opened s p left t r opening rest first second =>
    have before := first numeric
    obtain ⟨-, ts, -, -, moved⟩ := opening.reached trivial
    have after := second (numeric.passes moved)
    cases r with
    | ok e u => exact ⟨fun depth => (before depth).trans (after.1 depth), after.2⟩
    | error d u => exact fun depth => (before depth).blames (after depth)
  | ident kind => exact covers_atom kind fun depth => by rw [Phase.operandStep, kind]
  | bool kind => exact covers_atom kind fun depth => by rw [Phase.operandStep, kind]
  | @int s n kind value =>
    have digits : s.current.Numeric := numeric.current
    obtain ⟨fits, -⟩ := (digits.read?_eq_some_iff (opening?_eq_int.1 kind)).1 value
    exact covers_atom kind fun depth => by simp only [Phase.operandStep, kind, if_pos fits]
  | @badInt s kind value =>
    intro depth
    have digits : s.current.Numeric := numeric.current
    have large := (digits.read?_eq_none_iff (opening?_eq_int.1 kind)).1 value
    have stuck : Phase.operandStep depth s.current = none := by
      simp only [Phase.operandStep, kind, if_neg large]
    exact .here rfl stuck rfl
  | unary kind operand ih =>
    exact fun depth => (covers_unary kind depth).trans ((ih numeric.advance).1 depth)
  | unaryFails kind operand ih =>
    exact fun depth => (covers_unary kind depth).blames (ih numeric.advance depth)
  | group kind inner closed ih =>
    intro depth
    have within := (ih numeric.advance).1 (depth + 1)
    exact ((covers_group kind depth).trans within).trans (covers_closed closed depth)
  | groupFails kind inner ih =>
    exact fun depth => (covers_group kind depth).blames (ih numeric.advance (depth + 1))
  | @unclosed s e t kind inner unclosed ih =>
    intro depth
    obtain ⟨within, weak⟩ := ih numeric.advance
    have stuck : (Phase.done (depth + 1)).step t.ahead = none := by
      simp [Phase.step, isOperator_of_power_le weak, unclosed]
    exact ((covers_group kind depth).trans (within (depth + 1))).blames (.here rfl stuck rfl)
  | stop weak => exact ⟨fun depth => .refl _ _, Power.not_lt.1 weak⟩
  | @step s p left right t r tight operand rest first second =>
    have inside := numeric.advance.advance
    obtain ⟨-, ts, -, -, moved⟩ := operand.reached trivial
    have right := (first inside).1
    have after := second (inside.passes moved)
    have onto := fun depth => (covers_operator tight depth).trans (right depth)
    cases r with
    | ok e u => exact ⟨fun depth => (onto depth).trans (after.1 depth), after.2⟩
    | error d u => exact fun depth => (onto depth).blames (after depth)
  | stepFails tight operand ih =>
    exact fun depth => (covers_operator tight depth).blames (ih numeric.advance.advance depth)

end Expr

/-! ### Statements -/

/-- A program may end in front of the window, and what it shows is to start a statement. -/
def Token.Window.Ready (w : Window) (q : Phase) : Prop :=
  q.accepts = true ∧ q.step w.current = Phase.start w.current

theorem ready_fresh (w : Window) : w.Ready .fresh := ⟨rfl, rfl⟩

theorem ready_done (operator : w.current.kind.isOperator = false) (bare : w.current.kind ≠ .semicolon) :
    w.Ready (.done 0) := by
  refine ⟨rfl, ?_⟩
  simp only [Phase.step, operator, Bool.false_eq_true, if_false, if_neg bare]

/-- Two phases that agree on the token in view agree on all that follows it. -/
theorem Token.Window.Covers.restart (same : q.step w.current = q'.step w.current) (h : w.Covers q' r v) :
    w.Covers q r v ∨ (v = w ∧ r = q') := by
  obtain ⟨ts, moved, walked⟩ := h
  cases ts with
  | nil => exact .inr ⟨moved, (Option.some.inj walked).symm⟩
  | cons t ts =>
    obtain ⟨rfl, inside, rest⟩ := moved
    refine .inl ⟨w.current :: ts, .cons inside rest, ?_⟩
    rw [← walked, Phase.walk, Phase.walk, same]

theorem Token.Window.Ready.covers_let {s : State} (ready : s.window.Ready q) (inside : s.current.kind ≠ .eof)
    (form : s.current.kind.form? = some .binding) : s.window.Covers q .name s.advance.window :=
  .step inside (ready.2.trans (start_let (form?_eq_binding.1 form)))

namespace Stmt

variable {s t : State} {make : Expr → Stmt}

theorem covers_name (name : s.ahead.kind = .ident) :
    s.advance.window.Covers .name .equals s.advance.advance.window := by
  have named : s.advance.window.current.kind = .ident := name
  exact .step (by rw [named]; decide) (if_pos named)

theorem Lead.followed (h : Lead s t make) (inside : s.current.kind ≠ .eof) (ready : s.window.Ready q) :
    s.window.Covers q (.operand 0) t.window ∨
      (t.window = s.window ∧ q.step s.current = Phase.operandStep 0 s.current) := by
  have begins : q.step s.window.current = Phase.start s.current := ready.2
  cases h with
  | binding form name sign =>
    have second := (ready.covers_let inside form).trans (covers_name name)
    have signed : s.advance.advance.window.current.kind = .assign := sign
    have third : s.advance.advance.window.Covers .equals (.operand 0) s.advance.advance.advance.window :=
      .step (by rw [signed]; decide) (by rw [Phase.step, if_pos signed])
    exact .inl (second.trans third)
  | ret form => exact .inl (.step inside (begins.trans (start_return (form?_eq_ret.1 form))))
  | expr form =>
    refine .inr ⟨rfl, begins.trans ?_⟩
    unfold Phase.start
    cases kind : s.current.kind.form? with
    | none => rfl
    | some f =>
      rw [kind] at form
      obtain rfl : f = .expr := form
      rfl

theorem Lead.covers (h : Lead s t make) (inside : s.current.kind ≠ .eof) (ready : s.window.Ready q)
    (value : t.window.Covers (.operand 0) r v) (accepts : r.accepts = true) : s.window.Covers q r v := by
  rcases h.followed inside ready with onto | ⟨same, agree⟩
  · exact onto.trans value
  · rw [same] at value
    rcases value.restart agree with covered | ⟨-, rfl⟩
    · exact covered
    · contradiction

theorem Lead.blames (h : Lead s t make) (inside : s.current.kind ≠ .eof) (ready : s.window.Ready q)
    (value : t.window.Blames (.operand 0) d) : s.window.Blames q d := by
  rcases h.followed inside ready with onto | ⟨same, agree⟩
  · exact onto.blames value
  · rw [same] at value
    rcases value with deep | ⟨v, r, further, place, refused⟩
    · exact .inl deep
    · refine .inr ?_
      rcases further.restart agree with covered | ⟨rfl, rfl⟩
      · exact ⟨v, r, covered, place, refused⟩
      · -- The token that is refused as an operand would be the first one of the statement.
        have started : s.window.current.kind ≠ .eof := inside
        rw [Phase.Refuses, if_neg started] at refused
        refine ⟨_, q, .refl _ q, place, ?_⟩
        rw [Phase.Refuses, if_neg started]
        exact agree.trans refused

/-- How the scan follows an attempt that starts in the given phase. -/
def Followed {α : Type} (q : Phase) (s : State) : EStateM.Result Diagnostic State α → Prop
  | .ok _ t => ∃ r, s.window.Covers q r t.window.advance ∧ t.window.advance.Ready r
  | .error d _ => s.window.Blames q d

theorem Value.followed {o : Expr.Outcome} (h : Value s o) (numeric : s.window.Numeric) :
    Followed (.operand 0) s o := by
  cases h with
  | @ended e t run kind =>
    have ended : t.window.advance.current.kind = .semicolon := kind
    have last : t.window.advance.Covers (.done 0) .fresh t.advance.window.advance := by
      refine .step (by rw [ended]; decide) ?_
      simp only [Phase.step, ended, Kind.isOperator]
      rfl
    exact ⟨_, ((run.followed numeric).1 0).trans last, ready_fresh _⟩
  | bare run kind =>
    obtain ⟨covered, weak⟩ := run.followed numeric
    exact ⟨_, covered 0, ready_done (isOperator_of_power_le weak) kind⟩
  | fails run => exact run.followed numeric 0

theorem Run.followed {o : EStateM.Result Diagnostic State Stmt} (h : Run s o) (numeric : s.window.Numeric)
    (inside : s.current.kind ≠ .eof) (ready : s.window.Ready q) : Followed q s o := by
  cases h with
  | noName form name => exact (ready.covers_let inside form).blames (.here rfl (if_neg name) rfl)
  | noEquals form name sign =>
    have second := (ready.covers_let inside form).trans (covers_name name)
    exact second.blames (.here rfl (if_neg sign) rfl)
  | done lead value =>
    obtain ⟨ts, moved⟩ := lead.passes inside
    obtain ⟨r, covered, after⟩ := value.followed (numeric.passes moved)
    exact ⟨r, lead.covers inside ready covered after.1, after⟩
  | fails lead value =>
    obtain ⟨ts, moved⟩ := lead.passes inside
    exact lead.blames inside ready (value.followed (numeric.passes moved))

end Stmt

/-! ### Programs -/

namespace Program

variable {s : State} {xs : List Stmt} {source : String}

theorem Run.followed {u : State} (h : Run s xs u) (numeric : s.window.Numeric) (ready : s.window.Ready q) :
    (u.diagnostics = s.diagnostics ∧ ∃ r, s.window.Covers q r u.window ∧ r.accepts = true) ∨
      ∃ later d, u.diagnostics = later ++ d :: s.diagnostics ∧ s.window.Blames q d := by
  induction h generalizing q with
  | finished last => exact .inl ⟨rfl, q, .refl _ q, ready.1⟩
  | @parsed s x t xs u more stmt rest ih =>
    obtain ⟨r, covered, after⟩ := stmt.followed numeric (ne_eof_of_isFinished more) ready
    have kept : t.diagnostics = s.diagnostics := stmt.keeps.2
    rcases ih (covered.numeric numeric) after with ⟨silent, r', further, accepts⟩ | ⟨later, d, same, blamed⟩
    · exact .inl ⟨silent.trans kept, r', covered.trans further, accepts⟩
    · exact .inr ⟨later, d, by rw [same, ← kept]; rfl, covered.blames blamed⟩
  | @failed s d t xs u more stmt rest ih =>
    have kept : t.diagnostics = s.diagnostics := stmt.keeps.2
    -- Where the later attempts go does not matter: they only add diagnostics.
    obtain ⟨later, same⟩ := rest.appends
    refine .inr ⟨later, d, ?_, stmt.followed numeric (ne_eof_of_isFinished more) ready⟩
    rw [same, ← kept]
    rfl

/-- A source is a program, or its first diagnostic refuses the depth of nesting or the token at which
the source breaks. -/
theorem isProgram_or_breaks (source : String) :
    ((ofText source).diagnostics = [] ∧ IsProgram (Token.body source)) ∨
      ∃ d, (ofText source).diagnostics.head? = some d ∧
        ((∃ limit, d.fault = .nestingTooDeep limit) ∨
          ∃ k ≤ (Token.body source).length, d.span = (Token.nth source k).span ∧
            BreaksAt ((Token.body source).take k) (Token.nth source k)) := by
  obtain ⟨u, run, reported⟩ := run_ofText source
  have standing : (State.ofText source).window.At source 0 := Window.at_ofText source
  rcases run.followed standing.numeric (ready_fresh _) with
    ⟨silent, r, ⟨ts, moved, walked⟩, accepts⟩ | ⟨later, d, same, blamed⟩
  · left
    obtain ⟨there, taken, bound⟩ := standing.passes moved
    have finished : (Token.nth source (0 + ts.length)).kind = .eof := by
      rw [← there.current]
      exact run.finishes
    have all : ts = Token.body source := by
      rw [← taken, List.drop_zero, List.take_of_length_le]
      have := (Token.nth_eof_iff source _).1 finished
      omega
    refine ⟨by rw [reported, silent]; rfl, isProgram_iff.2 ⟨r, ?_, accepts⟩⟩
    rw [← all]
    exact walked
  · right
    refine ⟨d, by rw [reported, same]; simp [State.ofText], ?_⟩
    rcases blamed with deep | ⟨v, r, ⟨ts, moved, walked⟩, place, refused⟩
    · exact .inl deep
    · right
      obtain ⟨there, taken, bound⟩ := standing.passes moved
      rw [List.drop_zero] at taken
      rw [Nat.zero_add] at there bound
      have inside : ts.length ≤ (Token.body source).length := by
        cases ts with
        | nil => exact Nat.zero_le _
        | cons t ts => exact bound (by simp)
      refine ⟨ts.length, inside, by rw [place, there.current], ?_⟩
      rw [taken, ← there.current]
      exact breaksAt_of_refuses walked refused

/-- Where nesting stays within its limit, reading is silent exactly on the programs. -/
theorem diagnostics_eq_nil_iff {source : String}
    (shallow : ∀ d ∈ (ofText source).diagnostics, ∀ limit, d.fault ≠ .nestingTooDeep limit) :
    (ofText source).diagnostics = [] ↔ IsProgram (Token.body source) := by
  rcases isProgram_or_breaks source with ⟨silent, program⟩ | ⟨d, first, deep | ⟨k, inside, -, -, broken⟩⟩
  · exact iff_of_true silent program
  · obtain ⟨limit, deep⟩ := deep
    exact absurd deep (shallow d (List.mem_of_head? first) limit)
  · refine iff_of_false (by intro silent; simp [silent] at first) ?_
    intro program
    by_cases last : (Token.nth source k).kind = .eof
    · rw [if_pos last, List.take_of_length_le ((Token.nth_eof_iff source k).1 last)] at broken
      exact broken program
    · rw [if_neg last] at broken
      have before : k < (Token.body source).length := by
        rw [Token.nth_eof_iff] at last
        omega
      apply broken _ program
      have longer := List.take_prefix (k + 1) (Token.body source)
      rwa [List.take_add_one, Token.getElem?_body source k before] at longer

/-- The minus sign goes on with the binding here, although `-b` could be a statement of its own. -/
theorem diagnostics_eq_nil_iff_minus :
    (∀ d ∈ (ofText "let x = a -b return -x;").diagnostics, ∀ limit, d.fault ≠ .nestingTooDeep limit) ∧
      IsProgram (Token.body "let x = a -b return -x;") := by
  have silent : (ofText "let x = a -b return -x;").diagnostics = [] := by decide
  have shallow : ∀ d ∈ (ofText "let x = a -b return -x;").diagnostics, ∀ limit,
      d.fault ≠ .nestingTooDeep limit := by simp [silent]
  exact ⟨shallow, (diagnostics_eq_nil_iff shallow).1 silent⟩

/-- The first diagnostic stands at the first token with which no program goes on. -/
theorem first_fault_breaks {source : String} {d : Diagnostic}
    (first : (ofText source).diagnostics.head? = some d)
    (shallow : ∀ limit, d.fault ≠ .nestingTooDeep limit) :
    ∃ k t, (Token.ofText source)[k]? = some t ∧ d.span = t.span ∧
      BreaksAt ((Token.ofText source).take k) t := by
  rcases isProgram_or_breaks source with ⟨silent, -⟩ | ⟨d', first', deep | ⟨k, inside, place, broken⟩⟩
  · simp [silent] at first
  · obtain rfl := Option.some.inj (first'.symm.trans first)
    obtain ⟨limit, deep⟩ := deep
    exact absurd deep (shallow limit)
  · obtain rfl := Option.some.inj (first'.symm.trans first)
    refine ⟨k, Token.nth source k, Token.getElem?_ofText source k inside, place, ?_⟩
    obtain ⟨e, same, -⟩ := Token.ofText_eq source
    rw [same, List.take_append_of_le_length inside]
    exact broken

/-- A name inside the parentheses is refused before the binding without a name is. -/
theorem first_fault_breaks_group :
    (ofText "(a b; let 5").diagnostics.head? = some ⟨.unexpectedToken .closeParen .ident, ⟨3, 4⟩⟩ ∧
      ∃ k t, (Token.ofText "(a b; let 5")[k]? = some t ∧ ⟨3, 4⟩ = t.span ∧
        BreaksAt ((Token.ofText "(a b; let 5").take k) t := by
  have first : (ofText "(a b; let 5").diagnostics.head? =
      some ⟨.unexpectedToken .closeParen .ident, ⟨3, 4⟩⟩ := by decide
  exact ⟨first, first_fault_breaks first (by simp)⟩

end Program

end LetLang
