import LetLang.Proofs.Expr.CutOff
import LetLang.Proofs.Program.Calls

/-!
# Programs without a limit on nesting

The readers of statements and programs with the limit are those without it, cut off where the first
expression that is one too many would be opened (`Program.limit_truncates`).
-/

namespace LetLang

open Parse (Reader State andThen finalState fault?)
open Parse.Reader (Forward closed_forward)
open Token (Kind)
open LetLang.Expr (Entry Truncates cutOff cutOff_andThen)

namespace Stmt

variable {f : Form} {s : State} {es es' : List Entry}

/-- A statement of a form, however deep it nests. -/
def unlimitedForm (f : Form) : Reader Stmt := parseFormWith (Expr.unlimited .lowest) f

/-- The statement at the current token, however deep it nests. -/
def unlimited : Reader Stmt := parseWith (Expr.unlimited .lowest)

/-- The expressions that a statement of a form opens without a limit: those of its value, if it has one. -/
def Form.enters (f : Form) (s : State) (es : List Entry) : Prop :=
  match f.lead s with
  | .ok _ t => (Expr.Part.whole .lowest).enters t es
  | .error .. => es = []

/-- The expressions that the statement at the current token opens without a limit. -/
def enters (s : State) (es : List Entry) : Prop :=
  (s.current.kind.form?.getD .expr).enters (s.note (.statement s.current)) es

/-- What a statement makes of its value. -/
def closing (make : Expr → Stmt) (value : Expr) (t : State) : EStateM.Result Diagnostic State Stmt :=
  .ok (make value) (if t.ahead.kind = .semicolon then t.advance else t)

theorem parseFormWith_eq (expr : Reader Expr) (f : Form) (s : State) :
    parseFormWith expr f s = andThen (f.lead s) fun make t => andThen (expr t) (closing make) := by
  rw [parseFormWith_apply]
  cases f.lead s with
  | error d t => rfl
  | ok make t =>
    have value : parseValueWith expr t =
        andThen (expr t) fun e u => .ok e (if u.ahead.kind = .semicolon then u.advance else u) := by
      rw [parseValueWith, Reader.bind_eq]
      cases expr t with
      | error d u => rfl
      | ok e u =>
        simp only [andThen, Reader.bind_apply, Reader.skip_apply]
        rfl
    simp only [value]
    show _ = andThen (expr t) (closing make)
    cases expr t <;> rfl

theorem depth_lead (f : Form) (s : State) : (finalState (f.lead s)).depth = s.depth := by
  cases f with
  | binding =>
    rw [lead_binding_apply]
    split
    · split <;> rfl
    · rfl
  | ret | expr => rfl

theorem Form.enters_once (f : Form) (s : State) : ∃! es, f.enters s es := by
  unfold enters
  cases f.lead s with
  | error d t => exact ⟨[], rfl, fun _ same => same⟩
  | ok make t => exact (Expr.truncates (.whole .lowest)).once t

theorem Form.enters_level (entries : f.enters s es) : ∀ e ∈ es, e.state.depth + 1 = s.depth + e.level := by
  unfold enters at entries
  have kept := depth_lead f s
  cases result : f.lead s with
  | error d t =>
    rw [result] at entries
    simp [show es = [] from entries]
  | ok make t =>
    rw [result] at entries kept
    rw [← show t.depth = s.depth from kept]
    exact Expr.Enters.level entries

theorem Form.enters_cut (entries : f.enters s es) : parseForm f s = cutOff s.depth (unlimitedForm f s) es := by
  unfold enters at entries
  have kept := depth_lead f s
  rw [← parseFormWith_parse, unlimitedForm, parseFormWith_eq, parseFormWith_eq]
  cases result : f.lead s with
  | error d t =>
    rw [result] at entries
    rw [show es = [] from entries]
    rfl
  | ok make t =>
    rw [result] at entries kept
    have value : Expr.parse .lowest t = cutOff t.depth (Expr.unlimited .lowest t) es := Expr.Enters.cut entries
    rw [show t.depth = s.depth from kept] at value
    rw [andThen, andThen, value, cutOff_andThen]

theorem truncates_form (f : Form) : Truncates (parseForm f) (unlimitedForm f) f.enters :=
  .of_cutOff f.enters_once Form.enters_level Form.enters_cut

theorem truncates : Truncates parse unlimited enters := by
  refine .of_cutOff (fun s => Form.enters_once _ _) (fun {s es} entries => ?_) fun {s es} entries => ?_
  · have form : (s.current.kind.form?.getD .expr).enters (s.note (.statement s.current)) es := entries
    have level := Form.enters_level form
    exact level
  · rw [parse_apply]
    exact Form.enters_cut entries

theorem forward_unlimited : Forward unlimited := by
  refine closed_parseWith closed_forward fun s => ?_
  obtain ⟨es, run⟩ := Expr.enters_reader (.whole .lowest) s
  exact run.forward

end Stmt

namespace Program

/-- The statements from the current token to the end of the source, however deep they nest. -/
def unlimited : State → Program × State := parseWith Stmt.unlimited

/-- What a whole source gives with another reader of programs. -/
def ofTextWith (read : State → Program × State) (source : String) : Outcome :=
  let (program, s) := read (.ofText source)
  let diagnostics := s.diagnostics.reverse
  { program
    diagnostics
    log := .parsing (Text.byteLength source.toList) :: s.log.reverse ++
      [.parsed program.size diagnostics.length] }

/-- The expressions that a program opens without a limit, one attempt after the other. -/
inductive Enters : State → List Entry → Prop where
  | finished {s} (last : s.isFinished = true) : Enters s []
  | attempt {s es fs} (more : s.isFinished = false) (stmt : Stmt.enters s es)
      (rest : Enters (attemptWith Stmt.unlimited s).2 fs) : Enters s (es ++ fs)

variable {s : State} {es es' : List Entry} {m : Nat}

theorem enters_total (s : State) : ∃ es, Enters s es := by
  induction bound : s.window.pending using Nat.strongRecOn generalizing s with
  | ind n ih =>
    subst bound
    cases more : s.isFinished with
    | true => exact ⟨[], .finished more⟩
    | false =>
      obtain ⟨es, stmt, -⟩ := Stmt.truncates.once s
      obtain ⟨fs, rest⟩ := ih _ (pending_attempt_lt Stmt.forward_unlimited more) _ rfl
      exact ⟨_, .attempt more stmt rest⟩

theorem Enters.unique (h : Enters s es) (h' : Enters s es') : es = es' := by
  induction h generalizing es' with
  | finished last =>
    cases h' with
    | finished => rfl
    | attempt more => exact absurd last (by rw [more]; decide)
  | attempt more stmt rest ih =>
    cases h' with
    | finished last => exact absurd last (by rw [more]; decide)
    | attempt _ stmt' rest' => rw [(Stmt.truncates.once _).unique stmt stmt', ih rest']

theorem attempt_eq (same : Stmt.parse s = Stmt.unlimited s) :
    attemptWith Stmt.parse s = attemptWith Stmt.unlimited s := by
  unfold attemptWith
  rw [same]

theorem depth_attempt_unlimited (same : Stmt.parse s = Stmt.unlimited s) :
    (attemptWith Stmt.unlimited s).2.depth = s.depth := by
  rw [← attempt_eq same]
  exact depth_attempt s

theorem Enters.same (h : Enters s es) (start : s.depth ≤ Parse.maxDepth)
    (fit : ∀ e ∈ es, e.level ≤ Parse.maxDepth - s.depth) (enough : s.window.pending ≤ m) :
    attemptsWith Stmt.parse m s = attemptsWith Stmt.unlimited m s := by
  induction h generalizing m with
  | finished last => rw [attemptsWith_of_finished last, attemptsWith_of_finished last]
  | @attempt s es fs more stmt rest ih =>
    have same := Stmt.truncates.same stmt start fun e he => fit e (List.mem_append_left _ he)
    have kept := depth_attempt_unlimited same
    have less := pending_attempt_lt Stmt.forward_unlimited more
    cases m with
    | zero => omega
    | succ m =>
      rw [attemptsWith_succ more, attemptsWith_succ more, attempt_eq same,
        ih (kept ▸ start) (fun e he => kept ▸ fit e (List.mem_append_right _ he)) (by omega)]

/-- The first expression too many is recorded, at the token where it would be opened. -/
theorem Enters.records {e : Entry} (h : Enters s es) (start : s.depth ≤ Parse.maxDepth)
    (first : es.find? (Parse.maxDepth - s.depth < ·.level) = some e) (enough : s.window.pending ≤ m) :
    ∃ later earlier, (attemptsWith Stmt.parse m s).2.diagnostics =
      later ++ ⟨.nestingTooDeep Parse.maxDepth, e.state.current.span⟩ :: earlier ++ s.diagnostics := by
  induction h generalizing m with
  | finished last => contradiction
  | @attempt s es fs more stmt rest ih =>
    have less := pending_attempt_lt Stmt.forward_unlimited more
    cases m with
    | zero => omega
    | succ m =>
      rw [attemptsWith_succ more]
      rw [List.find?_append] at first
      cases found : es.find? (Parse.maxDepth - s.depth < ·.level) with
      | some e' =>
        rw [found] at first
        obtain rfl := Option.some.inj first
        have failed := Stmt.truncates.cut stmt start found
        have there := (attempts_eq m (Program.attempt s).2).2
        rw [diagnostics_attempt, failed] at there
        rw [attemptsWith_parse, attemptWith_parse, there]
        exact ⟨_, [], (List.append_assoc _ [_] _).symm⟩
      | none =>
        rw [found] at first
        have same := Stmt.truncates.same stmt start fun e he =>
          Nat.not_lt.1 fun beyond => List.find?_eq_none.1 found e he (decide_eq_true beyond)
        have kept := depth_attempt_unlimited same
        obtain ⟨later, middle, there⟩ := ih (m := m) (kept ▸ start) (kept ▸ first) (by omega)
        refine ⟨later, middle ++ (fault? (Stmt.parse s)).toList, ?_⟩
        rw [attempt_eq same, there, ← attempt_eq same, attemptWith_parse, diagnostics_attempt]
        simp

theorem Enters.parse_eq (h : Enters s es) (start : s.depth ≤ Parse.maxDepth)
    (fit : ∀ e ∈ es, e.level ≤ Parse.maxDepth - s.depth) : parse s = unlimited s := by
  rw [← parseWith_parse, unlimited, parseWith, parseWith, h.same start fit s.window.pending_le_moves]

theorem isFinished_unlimited (s : State) : (unlimited s).2.isFinished = true :=
  attemptsWith_finishes Stmt.forward_unlimited s.window.pending_le_moves

theorem ofText_eq_with : ofText = ofTextWith parse := rfl

theorem ofText_eq_unlimited {source : String}
    (shallow : ∀ d ∈ (ofText source).diagnostics, ∀ limit, d.fault ≠ .nestingTooDeep limit) :
    ofText source = ofTextWith unlimited source := by
  obtain ⟨es, entries⟩ := enters_total (.ofText source)
  have start : (State.ofText source).depth ≤ Parse.maxDepth := Nat.zero_le _
  rw [ofText_eq_with, ofTextWith, ofTextWith, entries.parse_eq start fun e he => ?_]
  by_contra deep
  cases found : es.find? (Parse.maxDepth - (State.ofText source).depth < ·.level) with
  | none => exact List.find?_eq_none.1 found e he (decide_eq_true (Nat.not_le.1 deep))
  | some e' =>
    obtain ⟨later, earlier, recorded⟩ := entries.records start found (State.ofText source).window.pending_le_moves
    refine shallow ⟨.nestingTooDeep Parse.maxDepth, e'.state.current.span⟩ ?_ _ rfl
    rw [attemptsWith_parse] at recorded
    rw [(ofText_attempts source).2, recorded]
    simp

/-- One reader of programs does the same as another, up to the first expression that is one too many. That
one it records. -/
structure TruncatesRun (real free : State → Program × State) (enters : State → List Entry → Prop) : Prop where
  finishes (s : State) : (free s).2.isFinished = true
  once (s : State) : ∃! es, enters s es
  same {s : State} {es : List Entry} (entries : enters s es) (start : s.depth ≤ Parse.maxDepth)
    (fit : ∀ e ∈ es, e.level ≤ Parse.maxDepth - s.depth) : real s = free s
  records {s : State} {es : List Entry} {e : Entry} (entries : enters s es) (start : s.depth ≤ Parse.maxDepth)
    (first : es.find? (Parse.maxDepth - s.depth < ·.level) = some e) :
    ∃ later earlier, (real s).2.diagnostics =
      later ++ ⟨.nestingTooDeep Parse.maxDepth, e.state.current.span⟩ :: earlier ++ s.diagnostics

theorem truncates_run : TruncatesRun parse unlimited Enters where
  finishes := isFinished_unlimited
  once s := by
    obtain ⟨es, entries⟩ := enters_total s
    exact ⟨es, entries, fun fs entries' => entries'.unique entries⟩
  same entries start fit := entries.parse_eq start fit
  records {s es e} entries start first := by
    rw [← parseWith_parse]
    exact entries.records start first s.window.pending_le_moves

/-- What the limit on nesting changes, for every reader from the parts of an expression up to a source. -/
structure LimitedReading : Prop where
  -- Reading without a limit ends at every token, whatever stands below the levels it needs.
  ends (bottom : Power → Reader Expr) (levels : Nat) (p : Power) (s : State) (enough : s.window.moves < levels) :
    Expr.unlimitedWithin bottom levels p s = Expr.unlimited p s
  -- It differs from reading with the limit only where an expression is opened.
  unguarded (p : Power) : Expr.unlimited p = Reader.unguarded (Expr.parseWith Expr.unlimited p)
  nested (p : Power) : Expr.parse p = Reader.nested (Expr.parseWith Expr.parse p)
  formWith (f : Stmt.Form) : Stmt.parseForm f = Stmt.parseFormWith (Expr.parse .lowest) f
  statementWith : Stmt.parse = Stmt.parseWith (Expr.parse .lowest)
  programWith : parse = parseWith Stmt.parse
  sourceWith : ofText = ofTextWith parse
  -- With the limit every reader is cut off where the first expression that is one too many would be opened.
  part (part : Expr.Part) : Truncates (part.reader Expr.parse) (part.reader Expr.unlimited) part.enters
  form (f : Stmt.Form) : Truncates (Stmt.parseForm f) (Stmt.unlimitedForm f) f.enters
  statement : Truncates Stmt.parse Stmt.unlimited Stmt.enters
  program : TruncatesRun parse unlimited Enters
  source (source : String)
    (shallow : ∀ d ∈ (ofText source).diagnostics, ∀ limit, d.fault ≠ .nestingTooDeep limit) :
    ofText source = ofTextWith unlimited source

/-- With the limit every reader does the same as without it, up to the first expression that is one too many. -/
theorem limit_truncates : LimitedReading where
  ends bottom _ _ s enough :=
    Expr.unlimitedWithin_eq bottom (Nat.lt_of_le_of_lt s.window.pending_le_moves enough)
  unguarded := Expr.unlimited_eq
  nested := Expr.parse_eq
  formWith f := (Stmt.parseFormWith_parse f).symm
  statementWith := Stmt.parseWith_parse.symm
  programWith := parseWith_parse.symm
  sourceWith := ofText_eq_with
  part := Expr.truncates
  form := Stmt.truncates_form
  statement := Stmt.truncates
  program := truncates_run
  source _ := ofText_eq_unlimited

theorem limit_truncates_group :
    (∀ d ∈ (ofText "return -(a);)").diagnostics, ∀ limit, d.fault ≠ .nestingTooDeep limit) ∧
      ofText "return -(a);)" = ofTextWith unlimited "return -(a);)" := by
  have shallow : ∀ d ∈ (ofText "return -(a);)").diagnostics, ∀ limit, d.fault ≠ .nestingTooDeep limit := by
    have one : (ofText "return -(a);)").diagnostics = [⟨.noOpening .closeParen, ⟨12, 13⟩⟩] := by decide
    simp [one]
  exact ⟨shallow, limit_truncates.source _ shallow⟩

end Program

end LetLang
