import LetLang.Proofs.Expr.Unlimited

/-!
# The limit on nesting cuts readings off

Reading with the limit is reading without it, cut off where the first expression that is one too
many would be opened (`Enters.cut`). `Truncates` says so of any reader.
-/

namespace LetLang.Expr

open Parse (Reader State andThen)

variable {part : Part} {p : Power} {left : Expr} {s t : State} {r : Outcome} {es es' : List Entry}

theorem parse_eq (p : Power) : parse p = Reader.nested (parseWith parse p) := by
  funext s
  refine run_iff.1 ?_
  have serves : Serves parse s.enter.depth := fun p s _ => run_parse p s
  rw [Reader.nested_apply]
  by_cases room : s.depth < Parse.maxDepth
  · have body := run_parseWith (p := p) serves
    rw [if_pos room]
    cases result : parseWith parse p s.enter with
    | ok e t => exact .whole room (result ▸ body)
    | error d t => exact .whole room (result ▸ body)
  · rw [if_neg room]
    exact .tooDeep room

theorem parseWith_of_opening {o : Opening} (kind : s.current.kind.opening? = some o) (p : Power) :
    parseWith parse p s = andThen (parseOpening parse o s) fun left t => climbAll parse p left t := by
  rw [parseWith_apply]
  simp only [kind]
  cases parseOpening parse o s <;> rfl

theorem climbAll_of_tight (tight : p < s.ahead.kind.power) (left : Expr) :
    climbAll parse p left s =
      andThen (parseBinary parse left s.advance) fun both t => climbAll parse p both t := by
  rw [climbAll_apply fun q => (local_parse q).forward, if_pos tight]
  cases parseBinary parse left s.advance <;> rfl

/-- What the limit makes of a run: it ends where the first expression that is one too many would be
opened. -/
def cutOff {α : Type} (depth : Nat) (r : EStateM.Result Diagnostic State α) (es : List Entry) :
    EStateM.Result Diagnostic State α :=
  match es.find? (Parse.maxDepth ≤ ·.state.depth) with
  | none => r
  | some e => .error ⟨.nestingTooDeep Parse.maxDepth, e.state.current.span⟩ { e.state with depth }

theorem cutOff_andThen {α β : Type} (depth : Nat) (r : EStateM.Result Diagnostic State α) (es : List Entry)
    (next : α → State → EStateM.Result Diagnostic State β) :
    andThen (cutOff depth r es) next = cutOff depth (andThen r next) es := by
  unfold cutOff
  cases es.find? _ <;> rfl

/-- Cut off, two runs in sequence are the first one cut off and, if that one ends, the second. -/
theorem cutOff_append {α β : Type} {depth : Nat} {a : α} {r : EStateM.Result Diagnostic State β}
    {next : α → State → EStateM.Result Diagnostic State β} (second : next a t = cutOff depth r es') :
    andThen (cutOff depth (.ok a t) es) next = cutOff depth r (es ++ es') := by
  unfold cutOff at second ⊢
  rw [List.find?_append]
  cases es.find? _ with
  | none => exact second
  | some e => rfl

theorem cutOff_inside (s : State) (r : Outcome) (es : List Entry) :
    cutOff s.depth (Outcome.leave r) (es.map .inside) = Outcome.leave (cutOff (s.depth + 1) r es) := by
  have same : (fun e : Entry => decide (Parse.maxDepth ≤ e.state.depth)) ∘ Entry.inside =
      fun e => decide (Parse.maxDepth ≤ e.state.depth) := rfl
  unfold cutOff
  rw [List.find?_map, same]
  cases es.find? _ <;> rfl

/-- With the limit, each part is read as without it, cut off. -/
theorem Enters.cut (h : Enters part s r es) : part.reader parse s = cutOff s.depth r es := by
  induction h with
  | @whole s p r es body ih =>
    -- The expression itself is the first one that is opened: with no room for it, nothing is read.
    rw [Part.reader, parse_eq, Reader.nested_apply]
    by_cases room : s.depth < Parse.maxDepth
    · have inside : parseWith parse p s.enter = cutOff (s.depth + 1) r es := ih
      have head : ¬ Parse.maxDepth ≤ s.depth := Nat.not_le.2 room
      have rest : cutOff s.depth (Outcome.leave r) (⟨1, s⟩ :: es.map .inside) =
          cutOff s.depth (Outcome.leave r) (es.map .inside) := by
        simp only [cutOff, List.find?_cons, head, decide_false]
      rw [if_pos room, inside, rest, cutOff_inside]
      cases cutOff (s.depth + 1) r es <;> rfl
    · have head : Parse.maxDepth ≤ s.depth := Nat.not_lt.1 room
      rw [if_neg room]
      simp only [cutOff, List.find?_cons, head, decide_true]
  | @noOpening s p none =>
    rw [Part.reader, parseWith_apply, none]
    rfl
  | @openingFails s p o d t es kind opening ih =>
    rw [Part.reader, parseWith_of_opening kind, show parseOpening parse o s = _ from ih, cutOff_andThen]
    rfl
  | @opened s p o left t r es fs kind opening rest first second =>
    rw [Part.reader, parseWith_of_opening kind, show parseOpening parse o s = _ from first]
    refine cutOff_append ?_
    rw [← show t.depth = s.depth from opening.depth_eq]
    exact second
  | ident | int | bool => rfl
  | @unary s r es operand ih =>
    rw [Part.reader, parseOpening, parseUnary_eq, show parse .unary s.advance = _ from ih, cutOff_andThen]
    rfl
  | @group s r es inner ih =>
    rw [Part.reader, parseOpening, parseGroup_eq, show parse .lowest s.advance = _ from ih, cutOff_andThen]
    rfl
  | @binary s left r es operand ih =>
    rw [Part.reader, parseBinary_eq, show parse s.current.kind.power s.advance = _ from ih, cutOff_andThen]
    rfl
  | @stop s p left weak =>
    rw [Part.reader, climbAll, climb_stop weak]
    rfl
  | @stepFails s p left d t es tight operator ih =>
    rw [Part.reader, climbAll_of_tight tight, show parseBinary parse left s.advance = _ from ih, cutOff_andThen]
    rfl
  | @step s p left both t r es fs tight operator rest first second =>
    rw [Part.reader, climbAll_of_tight tight, show parseBinary parse left s.advance = _ from first]
    refine cutOff_append ?_
    rw [← show t.depth = s.advance.depth from operator.depth_eq]
    exact second

/-! ### Readers with and without the limit -/

/-- The expressions that a part opens without a limit. -/
def Part.enters (part : Part) (s : State) (es : List Entry) : Prop := Enters part s (part.reader unlimited s) es

/-- `real` is `free` with the limit: it reads the same as long as `free` opens no expression too many,
and otherwise it fails where the first one would be opened. `enters` tells what `free` opens. -/
structure Truncates {α : Type} (real free : Reader α) (enters : State → List Entry → Prop) : Prop where
  once (s : State) : ∃! es, enters s es
  level {s : State} {es : List Entry} (entries : enters s es) : ∀ e ∈ es, e.state.depth + 1 = s.depth + e.level
  same {s : State} {es : List Entry} (entries : enters s es) (start : s.depth ≤ Parse.maxDepth)
    (fit : ∀ e ∈ es, e.level ≤ Parse.maxDepth - s.depth) : real s = free s
  cut {s : State} {es : List Entry} {e : Entry} (entries : enters s es) (start : s.depth ≤ Parse.maxDepth)
    (first : es.find? (Parse.maxDepth - s.depth < ·.level) = some e) :
    real s = .error ⟨.nestingTooDeep Parse.maxDepth, e.state.current.span⟩ { e.state with depth := s.depth }

theorem Truncates.of_cutOff {α : Type} {real free : Reader α} {enters : State → List Entry → Prop}
    (once : ∀ s, ∃! es, enters s es)
    (level : ∀ {s es}, enters s es → ∀ e ∈ es, e.state.depth + 1 = s.depth + e.level)
    (cut : ∀ {s es}, enters s es → real s = cutOff s.depth (free s) es) : Truncates real free enters := by
  have find : ∀ {s es}, enters s es → s.depth ≤ Parse.maxDepth →
      es.find? (Parse.maxDepth ≤ ·.state.depth) = es.find? (Parse.maxDepth - s.depth < ·.level) := by
    intro s es entries start
    rw [← List.head?_filter, ← List.head?_filter]
    refine congrArg List.head? (List.filter_congr fun e he => ?_)
    have := level entries e he
    rw [decide_eq_decide]
    omega
  refine ⟨once, level, fun {s es} entries start fit => ?_, fun {s es e} entries start first => ?_⟩
  · have none : es.find? (Parse.maxDepth - s.depth < ·.level) = none :=
      List.find?_eq_none.2 fun e he beyond => Nat.not_lt.2 (fit e he) (of_decide_eq_true beyond)
    rw [cut entries, cutOff, find entries start, none]
  · rw [cut entries, cutOff, find entries start, first]

theorem truncates (part : Part) : Truncates (part.reader parse) (part.reader unlimited) part.enters := by
  refine .of_cutOff (fun s => ?_) (fun entries => entries.level) (fun entries => entries.cut)
  obtain ⟨es, run⟩ := enters_reader part s
  exact ⟨es, run, fun fs run' => (run'.unique run).2⟩

end LetLang.Expr
