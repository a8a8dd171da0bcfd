import LetLang.Proofs.Expr.Local

/-!
# Reading without a limit on nesting

`unlimited` reads expressions as `parse` does and opens as many as there are. `Enters` lists the
expressions that it opens: there is one such list for every part and every state (`enters_reader`,
`Enters.unique`), so the reading ends on all tokens and no bound on it is ever met
(`unlimitedWithin_eq`).
-/

namespace LetLang

open Parse (Reader State finalState)
open Parse.Reader (Forward closed_forward)
open Token (Kind Window)

/-- What follows a reading that gives a result. -/
def Parse.andThen {α β : Type} (r : EStateM.Result Diagnostic State α)
    (next : α → State → EStateM.Result Diagnostic State β) : EStateM.Result Diagnostic State β :=
  match r with
  | .ok a s => next a s
  | .error d s => .error d s

theorem Parse.Reader.bind_eq {α β : Type} (m : Reader α) (f : α → Reader β) (s : State) :
    (m >>= f) s = andThen (m s) fun a t => f a t := by
  rw [bind_apply]
  cases m s <;> rfl

/-- Runs a reader inside one open expression, however many are open. -/
def Parse.Reader.unguarded {α : Type} (body : Reader α) : Reader α := fun s =>
  match body s.enter with
  | .ok a s => .ok a s.leave
  | .error d s => .error d s.leave

namespace Expr

open Parse (andThen)

/-- `parseWithin` without the limit. The recursion goes `levels` deep, and `bottom` stands below. -/
def unlimitedWithin (bottom : Power → Reader Expr) : (levels : Nat) → Power → Reader Expr
  | 0, power => bottom power
  | levels + 1, power => Reader.unguarded (parseWith (unlimitedWithin bottom levels) power)

/-- The expression at the current token, however deep it nests. -/
def unlimited (power : Power) : Reader Expr := fun s =>
  unlimitedWithin (fun _ => Reader.tooDeep) (s.window.pending + 1) power s

/-- The readers of an expression and of its parts. Each of them may be run at any token. -/
inductive Part where
  | whole (power : Power)
  | body (power : Power)
  | opening (o : Opening)
  | binary (left : Expr)
  | climb (power : Power) (left : Expr)

def Part.reader (operand : Power → Reader Expr) : Part → Reader Expr
  | whole power => operand power
  | body power => parseWith operand power
  | opening o => parseOpening operand o
  | binary left => parseBinary operand left
  | climb power left => climbAll operand power left

/-- An expression is opened: so many are open from then on, counted from the start of the run. -/
structure Entry where
  level : Nat
  state : State

def Entry.inside (e : Entry) : Entry := { e with level := e.level + 1 }

/-! ### What is made of an operand -/

def asUnary (operator : Token) (operand : Expr) (t : State) : Outcome :=
  .ok (.unary operator operator.text operand) t

def asGroup (inner : Expr) (t : State) : Outcome :=
  if t.ahead.kind = .closeParen then .ok inner t.advance
  else .error ⟨.unexpectedToken .closeParen t.ahead.kind, t.ahead.span⟩ t

def asBinary (operator : Token) (left right : Expr) (t : State) : Outcome :=
  .ok (.binary operator operator.text left right) (t.note (.operator operator.text operator.kind.power))

/-- `Enters part s r es`: without a limit, the part is read from `s` with outcome `r` and opens the
expressions `es`, in this order. -/
inductive Enters : Part → State → Outcome → List Entry → Prop where
  | whole {s p r es} (body : Enters (.body p) s.enter r es) :
      Enters (.whole p) s (Outcome.leave r) (⟨1, s⟩ :: es.map .inside)
  | noOpening {s p} (none : s.current.kind.opening? = none) :
      Enters (.body p) s (.error ⟨.noOpening s.current.kind, s.current.span⟩ s) []
  | openingFails {s p o d t es} (kind : s.current.kind.opening? = some o)
      (opening : Enters (.opening o) s (.error d t) es) : Enters (.body p) s (.error d t) es
  | opened {s p o left t r es fs} (kind : s.current.kind.opening? = some o)
      (opening : Enters (.opening o) s (.ok left t) es) (rest : Enters (.climb p left) t r fs) :
      Enters (.body p) s r (es ++ fs)
  | ident {s} : Enters (.opening .ident) s (parseIdent s) []
  | int {s} : Enters (.opening .int) s (parseInt s) []
  | bool {s} : Enters (.opening .bool) s (parseBool s) []
  | unary {s r es} (operand : Enters (.whole .unary) s.advance r es) :
      Enters (.opening .unary) s (andThen r (asUnary s.current)) es
  | group {s r es} (inner : Enters (.whole .lowest) s.advance r es) :
      Enters (.opening .group) s (andThen r asGroup) es
  | binary {s left r es} (operand : Enters (.whole s.current.kind.power) s.advance r es) :
      Enters (.binary left) s (andThen r (asBinary s.current left)) es
  | stop {s p left} (weak : ¬ p < s.ahead.kind.power) : Enters (.climb p left) s (.ok left s) []
  | stepFails {s p left d t es} (tight : p < s.ahead.kind.power)
      (operator : Enters (.binary left) s.advance (.error d t) es) : Enters (.climb p left) s (.error d t) es
  | step {s p left both t r es fs} (tight : p < s.ahead.kind.power)
      (operator : Enters (.binary left) s.advance (.ok both t) es) (rest : Enters (.climb p both) t r fs) :
      Enters (.climb p left) s r (es ++ fs)

variable {operand : Power → Reader Expr} {part : Part} {p : Power} {left : Expr} {s t : State}
  {r r' : Outcome} {es es' : List Entry} {n : Nat}

theorem parseUnary_eq (s : State) :
    parseUnary operand s = andThen (operand .unary s.advance) (asUnary s.current) := by
  rw [parseUnary_apply]
  cases operand .unary s.advance <;> rfl

theorem parseGroup_eq (s : State) :
    parseGroup operand s = andThen (operand .lowest s.advance) asGroup := by
  rw [parseGroup_apply]
  cases operand .lowest s.advance <;> rfl

theorem parseBinary_eq (left : Expr) (s : State) :
    parseBinary operand left s =
      andThen (operand s.current.kind.power s.advance) (asBinary s.current left) := by
  rw [parseBinary_apply]
  cases operand s.current.kind.power s.advance <;> rfl

theorem window_asGroup (e : Expr) (t : State) :
    (finalState (asGroup e t)).window = t.window ∨ (finalState (asGroup e t)).window = t.window.advance := by
  unfold asGroup
  split
  · exact .inr rfl
  · exact .inl rfl

/-! ### What every run keeps -/

theorem Enters.forward (h : Enters part s r es) : ∃ k, (finalState r).window = Window.advance^[k] s.window := by
  induction h with
  | @whole s p r es body ih =>
    rw [finalState_leave]
    exact ih
  | noOpening none => exact ⟨0, rfl⟩
  | openingFails kind opening ih => exact ih
  | opened kind opening rest first second =>
    obtain ⟨k, landed⟩ := first
    obtain ⟨l, further⟩ := second
    refine ⟨l + k, ?_⟩
    rw [Function.iterate_add_apply, ← landed]
    exact further
  | @ident s => exact closed_forward.parseIdent s
  | @int s => exact closed_forward.parseInt s
  | @bool s => exact closed_forward.parseBool s
  | @unary s r es operand ih =>
    obtain ⟨k, landed⟩ := ih
    exact ⟨k + 1, by cases r <;> exact landed⟩
  | @group s r es inner ih =>
    obtain ⟨k, landed⟩ := ih
    cases r with
    | error d t => exact ⟨k + 1, landed⟩
    | ok e t =>
      rcases window_asGroup e t with stays | moves
      · exact ⟨k + 1, stays.trans landed⟩
      · refine ⟨k + 2, moves.trans ?_⟩
        rw [Function.iterate_succ_apply']
        exact congrArg Window.advance landed
  | @binary s left r es operand ih =>
    obtain ⟨k, landed⟩ := ih
    exact ⟨k + 1, by cases r <;> exact landed⟩
  | stop weak => exact ⟨0, rfl⟩
  | stepFails tight operator ih =>
    obtain ⟨k, landed⟩ := ih
    exact ⟨k + 1, landed⟩
  | step tight operator rest first second =>
    obtain ⟨k, landed⟩ := first
    obtain ⟨l, further⟩ := second
    refine ⟨l + (k + 1), ?_⟩
    rw [Function.iterate_add_apply, Function.iterate_succ_apply]
    rw [show Window.advance^[k] (Window.advance _) = _ from landed.symm]
    exact further

/-- Without a limit, too, expressions are opened and closed in pairs. -/
theorem Enters.depth_eq (h : Enters part s r es) : (finalState r).depth = s.depth := by
  induction h with
  | @whole s p r es body ih =>
    rw [finalState_leave, State.leave, ih]
    rfl
  | openingFails kind opening ih => exact ih
  | opened kind opening rest first second => exact second.trans first
  | @int s =>
    rw [parseInt_apply]
    cases Decimal.read? s.current.text <;> rfl
  | @unary s r es operand ih => cases r <;> exact ih
  | @group s r es inner ih =>
    cases r with
    | error d t => exact ih
    | ok e t =>
      refine Eq.trans ?_ ih
      simp only [andThen, asGroup]
      split <;> rfl
  | @binary s left r es operand ih => cases r <;> exact ih
  | stepFails tight operator ih => exact ih
  | step tight operator rest first second => exact second.trans first
  | _ => rfl

/-- The levels of the open expressions are their depths, counted from the start. -/
theorem Enters.level (h : Enters part s r es) : ∀ e ∈ es, e.state.depth + 1 = s.depth + e.level := by
  induction h with
  | @whole s p r es body ih =>
    intro e he
    rcases List.mem_cons.1 he with rfl | he
    · rfl
    · obtain ⟨e, mem, rfl⟩ := List.mem_map.1 he
      have inside : e.state.depth + 1 = s.depth + 1 + e.level := ih e mem
      show e.state.depth + 1 = s.depth + (e.level + 1)
      omega
  | openingFails kind opening ih => exact ih
  | opened kind opening rest first second =>
    intro e he
    rcases List.mem_append.1 he with he | he
    · exact first e he
    · exact (second e he).trans (congrArg (· + e.level) opening.depth_eq)
  | unary operand ih | group inner ih | binary operand ih | stepFails tight operator ih => exact ih
  | step tight operator rest first second =>
    intro e he
    rcases List.mem_append.1 he with he | he
    · exact first e he
    · exact (second e he).trans (congrArg (· + e.level) operator.depth_eq)
  | _ => simp

theorem Enters.pending_le (h : Enters part s r es) : (finalState r).window.pending ≤ s.window.pending := by
  obtain ⟨k, landed⟩ := h.forward
  rw [landed]
  exact Window.pending_iterate_le _ k

/-- Behind an operator and its right operand there are fewer moves to the end. -/
theorem Enters.pending_lt_of_binary (tight : p < s.ahead.kind.power)
    (h : Enters (.binary left) s.advance r es) : (finalState r).window.pending < s.window.pending := by
  have used : s.advance.window.advance.pending < s.window.advance.pending :=
    Window.pending_advance_lt (ahead_ne_eof tight)
  have first := s.window.pending_advance_le
  cases h with
  | @binary _ _ r es operand =>
    have rest : (finalState r).window.pending ≤ s.advance.window.advance.pending := operand.pending_le
    have same : (finalState (andThen r (asBinary s.advance.current left))).window =
        (finalState r).window := by cases r <;> rfl
    rw [same]
    omega

theorem Enters.unique (h : Enters part s r es) (h' : Enters part s r' es') : r = r' ∧ es = es' := by
  induction h generalizing r' es' with
  | whole body ih =>
    cases h' with
    | whole body' =>
      obtain ⟨rfl, rfl⟩ := ih body'
      exact ⟨rfl, rfl⟩
  | noOpening none => cases h' <;> simp_all
  | openingFails kind opening ih =>
    cases h' with
    | noOpening none => simp_all
    | openingFails kind' opening' =>
      obtain rfl := Option.some.inj (kind.symm.trans kind')
      exact ih opening'
    | opened kind' opening' rest' =>
      obtain rfl := Option.some.inj (kind.symm.trans kind')
      exact nomatch (ih opening').1
  | opened kind opening rest first second =>
    cases h' with
    | noOpening none => simp_all
    | openingFails kind' opening' =>
      obtain rfl := Option.some.inj (kind.symm.trans kind')
      exact nomatch (first opening').1
    | opened kind' opening' rest' =>
      obtain rfl := Option.some.inj (kind.symm.trans kind')
      obtain ⟨same, rfl⟩ := first opening'
      obtain ⟨rfl, rfl⟩ := EStateM.Result.ok.inj same
      obtain ⟨rfl, rfl⟩ := second rest'
      exact ⟨rfl, rfl⟩
  | ident | int | bool =>
    cases h'
    exact ⟨rfl, rfl⟩
  | unary operand ih =>
    cases h' with
    | unary operand' =>
      obtain ⟨rfl, rfl⟩ := ih operand'
      exact ⟨rfl, rfl⟩
  | group inner ih =>
    cases h' with
    | group inner' =>
      obtain ⟨rfl, rfl⟩ := ih inner'
      exact ⟨rfl, rfl⟩
  | binary operand ih =>
    cases h' with
    | binary operand' =>
      obtain ⟨rfl, rfl⟩ := ih operand'
      exact ⟨rfl, rfl⟩
  | stop weak =>
    cases h' with
    | stop _ => exact ⟨rfl, rfl⟩
    | stepFails tight _ | step tight _ _ => exact absurd tight weak
  | stepFails tight operator ih =>
    cases h' with
    | stop weak => exact absurd tight weak
    | stepFails _ operator' => exact ih operator'
    | step _ operator' _ => exact nomatch (ih operator').1
  | step tight operator rest first second =>
    cases h' with
    | stop weak => exact absurd tight weak
    | stepFails _ operator' => exact nomatch (first operator').1
    | step _ operator' rest' =>
      obtain ⟨same, rfl⟩ := first operator'
      obtain ⟨rfl, rfl⟩ := EStateM.Result.ok.inj same
      obtain ⟨rfl, rfl⟩ := second rest'
      exact ⟨rfl, rfl⟩

/-! ### Every run ends -/

/-- Whole expressions are read to an end from the states with fewer than `n` moves to the end. -/
def Ends (n : Nat) : Prop := ∀ p s, s.window.pending < n → ∃ r es, Enters (.whole p) s r es

theorem Ends.opening (h : Ends n) (o : Opening) (enough : s.advance.window.pending < n) :
    ∃ r es, Enters (.opening o) s r es := by
  cases o with
  | ident => exact ⟨_, _, .ident⟩
  | int => exact ⟨_, _, .int⟩
  | bool => exact ⟨_, _, .bool⟩
  | unary =>
    obtain ⟨r, es, operand⟩ := h .unary s.advance enough
    exact ⟨_, _, .unary operand⟩
  | group =>
    obtain ⟨r, es, inner⟩ := h .lowest s.advance enough
    exact ⟨_, _, .group inner⟩

theorem Ends.binary (h : Ends n) (left : Expr) (enough : s.advance.window.pending < n) :
    ∃ r es, Enters (.binary left) s r es := by
  obtain ⟨r, es, operand⟩ := h s.current.kind.power s.advance enough
  exact ⟨_, _, .binary operand⟩

theorem Ends.climb (h : Ends n) (p : Power) (left : Expr) (enough : s.window.pending ≤ n) :
    ∃ r es, Enters (.climb p left) s r es := by
  induction bound : s.window.pending using Nat.strongRecOn generalizing s left with
  | ind m ih =>
    subst bound
    by_cases tight : p < s.ahead.kind.power
    · have used : s.advance.advance.window.pending < s.advance.window.pending :=
        Window.pending_advance_lt (ahead_ne_eof tight)
      have first : s.advance.window.pending ≤ s.window.pending := s.window.pending_advance_le
      obtain ⟨r, es, operator⟩ := h.binary (s := s.advance) left (by omega)
      have less := operator.pending_lt_of_binary tight
      cases r with
      | error d t => exact ⟨_, _, .stepFails tight operator⟩
      | ok both t =>
        replace less : t.window.pending < s.window.pending := less
        obtain ⟨r, fs, rest⟩ := ih _ less both (by omega) rfl
        exact ⟨_, _, .step tight operator rest⟩
    · exact ⟨_, _, .stop tight⟩

theorem Ends.body (h : Ends n) (p : Power) (enough : s.window.pending ≤ n) :
    ∃ r es, Enters (.body p) s r es := by
  cases kind : s.current.kind.opening? with
  | none => exact ⟨_, _, .noOpening kind⟩
  | some o =>
    have less : s.advance.window.pending < s.window.pending :=
      Window.pending_advance_lt (ne_eof_of_opening? kind)
    obtain ⟨r, es, opening⟩ := h.opening (s := s) o (by omega)
    have later := opening.pending_le
    cases r with
    | error d t => exact ⟨_, _, .openingFails kind opening⟩
    | ok left t =>
      replace later : t.window.pending ≤ s.window.pending := later
      obtain ⟨r, fs, rest⟩ := h.climb (s := t) p left (by omega)
      exact ⟨_, _, .opened kind opening rest⟩

theorem ends (n : Nat) : Ends n := by
  induction n with
  | zero => exact fun p s none => absurd none (Nat.not_lt_zero _)
  | succ n ih =>
    intro p s enough
    obtain ⟨r, es, body⟩ := ih.body (s := s.enter) p (Nat.le_of_lt_succ enough)
    exact ⟨_, _, .whole body⟩

/-- Every part is read to an end, at every token. -/
theorem enters_total (part : Part) (s : State) : ∃ r es, Enters part s r es := by
  cases part with
  | whole p => exact ends _ p s (Nat.lt_succ_self _)
  | body p => exact (ends _).body p (Nat.le_refl _)
  | opening o => exact (ends _).opening o (Nat.lt_succ_self _)
  | binary left => exact (ends _).binary left (Nat.lt_succ_self _)
  | climb p left => exact (ends _).climb p left (Nat.le_refl _)

/-! ### The unlimited reader runs -/

/-- Whole expressions are read without a limit from the states with fewer than `n` moves to the end. -/
def Frees (operand : Power → Reader Expr) (n : Nat) : Prop :=
  ∀ p s r es, Enters (.whole p) s r es → s.window.pending < n → operand p s = r

theorem Frees.opening (h : Frees operand n) {o : Opening} (run : Enters (.opening o) s r es)
    (enough : s.advance.window.pending < n) : parseOpening operand o s = r := by
  cases run with
  | ident | int | bool => rfl
  | unary inner => rw [parseOpening, parseUnary_eq, h _ _ _ _ inner enough]
  | group inner => rw [parseOpening, parseGroup_eq, h _ _ _ _ inner enough]

theorem Frees.binary (h : Frees operand n) (run : Enters (.binary left) s r es)
    (enough : s.advance.window.pending < n) : parseBinary operand left s = r := by
  cases run with
  | binary inner => rw [parseBinary_eq, h _ _ _ _ inner enough]

theorem Frees.climb (h : Frees operand n) {moves : Nat} (run : Enters (.climb p left) s r es)
    (enough : s.window.pending ≤ n) (bound : s.window.pending ≤ moves) : climb operand p moves left s = r := by
  -- With no moves left no operator can follow; an operator leaves fewer of them behind it.
  induction moves generalizing left s r es with
  | zero =>
    have last := (Window.eof_of_pending (Nat.le_zero.1 bound)).2
    cases run with
    | stop weak => exact climb_stop weak 0
    | stepFails tight _ | step tight _ _ => exact absurd last (ahead_ne_eof tight)
  | succ moves ih =>
    have onto : p < s.ahead.kind.power → s.advance.advance.window.pending < n := fun tight =>
      Nat.lt_of_lt_of_le (Window.pending_advance_lt (ahead_ne_eof tight))
        (Nat.le_trans s.window.pending_advance_le enough)
    cases run with
    | stop weak => exact climb_stop weak _
    | stepFails tight operator => rw [climb_succ_apply, if_pos tight, h.binary operator (onto tight)]
    | @step _ _ _ both t _ _ _ tight operator rest =>
      have less : t.window.pending < s.window.pending := operator.pending_lt_of_binary tight
      rw [climb_succ_apply, if_pos tight, h.binary operator (onto tight)]
      exact ih rest (by omega) (by omega)

theorem Frees.body (h : Frees operand n) (run : Enters (.body p) s r es) (enough : s.window.pending ≤ n) :
    parseWith operand p s = r := by
  have onto : ∀ {o}, s.current.kind.opening? = some o → s.advance.window.pending < n := fun kind =>
    Nat.lt_of_lt_of_le (Window.pending_advance_lt (ne_eof_of_opening? kind)) enough
  rw [parseWith_apply]
  cases run with
  | noOpening none => rw [none]
  | openingFails kind opening => simp only [kind, h.opening opening (onto kind)]
  | @opened _ _ o left t _ _ _ kind opening rest =>
    have later : t.window.pending ≤ s.window.pending := opening.pending_le
    simp only [kind, h.opening opening (onto kind)]
    exact h.climb rest (by omega) t.window.pending_le_moves

/-- With enough levels the bottom is never met. -/
theorem frees_unlimitedWithin (bottom : Power → Reader Expr) (levels : Nat) :
    Frees (unlimitedWithin bottom levels) levels := by
  induction levels with
  | zero => exact fun _ _ _ _ _ none => absurd none (Nat.not_lt_zero _)
  | succ levels ih =>
    intro p s r es run enough
    cases run with
    | whole body =>
      rw [unlimitedWithin, Reader.unguarded, ih.body body (Nat.le_of_lt_succ enough)]
      rename_i r _
      cases r <;> rfl

theorem frees_unlimited (n : Nat) : Frees unlimited n :=
  fun _ _ _ _ run _ => frees_unlimitedWithin _ _ _ _ _ _ run (Nat.lt_succ_self _)

theorem Enters.reader_eq (h : Enters part s r es) : part.reader unlimited s = r := by
  cases part with
  | whole p => exact frees_unlimited _ _ _ _ _ h (Nat.lt_succ_self _)
  | body p => exact (frees_unlimited _).body h (Nat.le_refl _)
  | opening o => exact (frees_unlimited _).opening h (Nat.lt_succ_self _)
  | binary left => exact (frees_unlimited _).binary h (Nat.lt_succ_self _)
  | climb p left => exact (frees_unlimited _).climb h (Nat.le_refl _) s.window.pending_le_moves

theorem enters_reader (part : Part) (s : State) : ∃ es, Enters part s (part.reader unlimited s) es := by
  obtain ⟨r, es, run⟩ := enters_total part s
  exact ⟨es, by rwa [run.reader_eq]⟩

theorem unlimitedWithin_eq (bottom : Power → Reader Expr) {levels : Nat} (enough : s.window.pending < levels) :
    unlimitedWithin bottom levels p s = unlimited p s := by
  obtain ⟨es, run⟩ := enters_reader (.whole p) s
  exact frees_unlimitedWithin bottom levels _ _ _ _ run enough

theorem unlimited_eq (p : Power) : unlimited p = Reader.unguarded (parseWith unlimited p) := by
  funext s
  obtain ⟨es, run⟩ := enters_reader (.whole p) s
  have inside : ∃ r fs, Enters (.body p) s.enter r fs ∧ unlimited p s = Outcome.leave r := by
    generalize result : (Part.whole p).reader unlimited s = r at run
    cases run with
    | whole body => exact ⟨_, _, body, result⟩
  obtain ⟨r, fs, body, same⟩ := inside
  have shown : parseWith unlimited p s.enter = r := body.reader_eq
  rw [same, Reader.unguarded, shown]
  cases r <;> rfl

end Expr

end LetLang
