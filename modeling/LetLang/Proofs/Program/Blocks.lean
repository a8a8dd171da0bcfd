import LetLang.Proofs.Parse.Position
import LetLang.Proofs.Program.Calls
import LetLang.Proofs.Program.Flat

/-!
# The tokens of each attempt

The attempts of a program cut the tokens into blocks, one for each (`ofText_blocks`). An attempt that
gives a statement has read just the tokens of its block, and the tree keeps them in order
(`ofText_flat`).
-/

namespace LetLang

open Parse (State finalState value? fault?)
open Token (Kind Window)

/-- A failure blames one of the two tokens in view. -/
def Parse.Located {α : Type} : EStateM.Result Diagnostic State α → Prop
  | .ok .. => True
  | .error d t => d.span = t.current.span ∨ d.span = t.ahead.span

open Parse (Located)

theorem Expr.Run.located {task : Expr.Task} {s : State} {r : Expr.Outcome} (h : Expr.Run task s r) : Located r := by
  induction h with
  | tooDeep | noOpening | badInt => exact .inl rfl
  | unclosed => exact .inr rfl
  | @whole s p r room body ih => cases r <;> exact ih
  | openingFails opening ih | opened opening rest _ ih => exact ih
  | unaryFails kind operand ih | groupFails kind inner ih => exact ih
  | step tight operand rest _ ih | stepFails tight operand ih => exact ih
  | ident | int | bool | unary | group | stop => trivial

theorem Stmt.Run.located {s : State} {r : EStateM.Result Diagnostic State Stmt} (h : Stmt.Run s r) : Located r := by
  cases h with
  | noName | noEquals => exact .inr rfl
  | done => trivial
  | fails lead value =>
    cases value with
    | fails run => exact run.located

/-- From the end on every index stands for the end. -/
theorem Token.Window.At.settle {w : Window} {source : String} {i : Nat} (h : w.At source i) :
    w.At source (min i (Token.body source).length) := by
  intro k
  rw [h k, ← Token.nth_min source (min i _ + k), ← Token.nth_min source (i + k)]
  congr 1
  omega

namespace Program

/-- The tokens of a source from one index up to another. -/
def block (source : String) (i j : Nat) : List Token := ((Token.body source).drop i).take (j - i)

/-- `Takes source i j r`: an attempt from the `i`-th token on with outcome `r` leaves the `j`-th one
current. It has read what lies between for a statement, or it blames a token there or the next one. -/
def Takes (source : String) (i j : Nat) : EStateM.Result Diagnostic State Stmt → Prop
  | .ok x t => (∃ l, j = l + 1 ∧ t.Stands source l) ∧ x.Fills (block source i j)
  | .error d _ => ∃ l, i ≤ l ∧ l ≤ j ∧ d.span = (Token.nth source l).span

variable {source : String} {i j moves : Nat} {s : State}

theorem attempt_takes (standing : s.window.At source i) (before : i < (Token.body source).length) :
    ∃ j, i < j ∧ j ≤ (Token.body source).length ∧ (attempt s).2.window.At source j ∧
      Takes source i j (Stmt.parse s) := by
  have run := Stmt.run_parse s
  have inside : s.current.kind ≠ .eof := standing.ne_eof_iff.2 before
  unfold attempt
  cases result : Stmt.parse s with
  | ok x t =>
    rw [result] at run
    obtain ⟨ts, moved, fills⟩ := run.fills standing.numeric inside
    obtain ⟨there, taken, bound⟩ := standing.passes moved.passes
    obtain ⟨front, shape, -, passed⟩ := moved
    have count : ts.length = front.length + 1 := by rw [shape, List.length_append, List.length_singleton]
    have last := (standing.passes passed).1
    refine ⟨i + ts.length, by omega, bound (by simp [shape]), there,
      ⟨i + front.length, by omega, Parse.State.stands_of_at last⟩, ?_⟩
    rw [block, Nat.add_sub_cancel_left, taken]
    exact fills
  | error d t =>
    rw [result] at run
    obtain ⟨ts, passed⟩ := run.passes inside
    obtain ⟨there, -, bound⟩ := standing.passes passed
    have last : i + ts.length ≤ (Token.body source).length := by
      cases ts with
      | nil => exact Nat.le_of_lt before
      | cons => exact bound (by simp)
    -- An attempt that fails at the end token has nothing left to move over.
    refine ⟨min (i + ts.length + 1) (Token.body source).length, by omega, by omega, (there.iterate 1).settle, ?_⟩
    rcases run.located with here | next
    · exact ⟨i + ts.length, by omega, by omega, by rw [here, ← there.current]; rfl⟩
    · refine ⟨min (i + ts.length + 1) (Token.body source).length, by omega, Nat.le_refl _, ?_⟩
      rw [next, Token.nth_min, ← there.ahead]
      rfl

/-- `Blocks source i states cuts`: from the `i`-th token on, the calls cut the tokens at these indices. -/
inductive Blocks (source : String) : Nat → List State → List Nat → Prop where
  | nil : Blocks source (Token.body source).length [] []
  | cons {i j : Nat} {s : State} {states cuts} (stands : s.Stands source i) (forward : i < j)
      (takes : Takes source i j (Stmt.parse s)) (rest : Blocks source j states cuts) :
      Blocks source i (s :: states) (j :: cuts)

variable {states : List State} {cuts : List Nat}

theorem exists_blocks (standing : s.window.At source i) (within : i ≤ (Token.body source).length)
    (enough : (Token.body source).length ≤ i + moves) : ∃ cuts, Blocks source i (calls moves s) cuts := by
  have finished : s.isFinished = true ↔ (Token.body source).length ≤ i := Parse.isFinished_iff_of_at standing
  induction moves generalizing s i with
  | zero =>
    obtain rfl : i = (Token.body source).length := by omega
    exact ⟨[], .nil⟩
  | succ moves ih =>
    cases more : s.isFinished with
    | true =>
      obtain rfl : i = (Token.body source).length := Nat.le_antisymm within (finished.1 more)
      rw [calls_of_finished more]
      exact ⟨[], .nil⟩
    | false =>
      have before : i < (Token.body source).length := Nat.not_le.1 fun last => by
        rw [finished.2 last] at more
        contradiction
      obtain ⟨j, forward, bound, there, takes⟩ := attempt_takes standing before
      obtain ⟨cuts, rest⟩ := ih there bound (by omega) (Parse.isFinished_iff_of_at there)
      rw [calls_succ more]
      exact ⟨j :: cuts, .cons (Parse.State.stands_of_at standing) forward takes rest⟩

theorem blocks_callsOf (source : String) : ∃ cuts, Blocks source 0 (callsOf source) cuts := by
  have standing : (State.ofText source).window.At source 0 := Window.at_ofText source
  exact exists_blocks standing (Nat.zero_le _) (length_body_le_moves standing)

/-! ### The cuts -/

theorem Blocks.length_eq (h : Blocks source i states cuts) : cuts.length = states.length := by
  induction h with
  | nil => rfl
  | cons stands forward takes rest ih => rw [List.length_cons, List.length_cons, ih]

theorem Blocks.length_le (h : Blocks source i states cuts) :
    i + states.length ≤ (Token.body source).length := by
  induction h with
  | nil => exact Nat.le_refl _
  | cons stands forward takes rest ih =>
    rw [List.length_cons]
    omega

theorem Blocks.last (h : Blocks source i states cuts) :
    (i :: cuts).getLast? = some (Token.body source).length := by
  induction h with
  | nil => rfl
  | cons stands forward takes rest ih => exact ih

/-- Without a call the only cut is both the first and the last one. -/
theorem Blocks.length_eq_zero_iff (h : Blocks source 0 states cuts) :
    states.length = 0 ↔ (Token.body source).length = 0 := by
  constructor
  · intro empty
    rw [← h.length_eq, List.length_eq_zero_iff] at empty
    have last := h.last
    rw [empty] at last
    exact (Option.some.inj last).symm
  · intro empty
    have := h.length_le
    omega

theorem Blocks.rising (h : Blocks source i states cuts) : (i :: cuts).IsChain (· < ·) := by
  induction h with
  | nil => exact .singleton _
  | cons stands forward takes rest ih => exact .cons_cons forward ih

theorem Blocks.takes (h : Blocks source i states cuts) {k a b : Nat} (call : states[k]? = some s)
    (first : (i :: cuts)[k]? = some a) (next : (i :: cuts)[k + 1]? = some b) :
    s.Stands source a ∧ a < b ∧ Takes source a b (Stmt.parse s) := by
  induction h generalizing k with
  | nil => simp at call
  | cons stands forward takes rest ih =>
    cases k with
    | zero =>
      obtain rfl := Option.some.inj call
      obtain rfl := Option.some.inj first
      obtain rfl := Option.some.inj next
      exact ⟨stands, forward, takes⟩
    | succ k => exact ih call first next

/-- Each token lies between two neighbouring cuts, and between no others. -/
theorem Blocks.covers (h : Blocks source i states cuts) {l : Nat} (low : i ≤ l)
    (high : l < (Token.body source).length) :
    ∃! k, ∃ a b, (i :: cuts)[k]? = some a ∧ (i :: cuts)[k + 1]? = some b ∧ a ≤ l ∧ l < b := by
  induction h with
  | nil => omega
  | @cons i j s states cuts stands forward takes rest ih =>
    by_cases here : l < j
    · refine ⟨0, ⟨i, j, rfl, rfl, low, here⟩, ?_⟩
      rintro (_ | k) ⟨a, b, first, next, below, above⟩
      · rfl
      · -- The cuts after the first one are not below `j`.
        have least : ∀ c ∈ j :: cuts, j ≤ c := by
          have sorted := List.isChain_iff_pairwise.1 rest.rising
          intro c member
          rcases List.mem_cons.1 member with rfl | member
          · exact Nat.le_refl _
          · exact Nat.le_of_lt ((List.pairwise_cons.1 sorted).1 c member)
        have := least a (List.mem_of_getElem? first)
        omega
    · obtain ⟨k, ⟨a, b, first, next, below, above⟩, only⟩ := ih (Nat.not_lt.1 here)
      refine ⟨k + 1, ⟨a, b, first, next, below, above⟩, ?_⟩
      rintro (_ | m) ⟨a', b', first', next', below', above'⟩
      · obtain rfl := Option.some.inj next'
        omega
      · rw [only m ⟨a', b', first', next', below', above'⟩]

/-! ### The statements -/

theorem Blocks.call (h : Blocks source i states cuts) (member : s ∈ states) :
    ∃ a b, a < b ∧ b ≤ (Token.body source).length ∧ s.Stands source a ∧ Takes source a b (Stmt.parse s) := by
  induction h with
  | nil => simp at member
  | @cons i j s' states cuts stands forward takes rest ih =>
    rcases List.mem_cons.1 member with rfl | member
    · have := rest.length_le
      exact ⟨i, j, forward, by omega, stands, takes⟩
    · exact ih member

theorem body_drop (low : i ≤ j) : (Token.body source).drop i = block source i j ++ (Token.body source).drop j := by
  have rest : (Token.body source).drop j = ((Token.body source).drop i).drop (j - i) := by
    rw [List.drop_drop]
    congr 1
    omega
  rw [block, rest, List.take_append_drop]

theorem Blocks.flat_eq (h : Blocks source i states cuts) (silent : states.filterMap (fault? <| Stmt.parse ·) = []) :
    (states.filterMap (value? <| Stmt.parse ·)).flatMap Stmt.flat =
      ((Token.body source).drop i).filter (·.kind.isKept) := by
  induction h with
  | nil => simp
  | @cons i j s states cuts stands forward takes rest ih =>
    rw [List.filterMap_cons] at silent ⊢
    cases result : Stmt.parse s with
    | error d t => simp [result, fault?] at silent
    | ok x t =>
      rw [result] at takes
      simp only [result, fault?] at silent
      rw [body_drop (Nat.le_of_lt forward), List.filter_append, ← takes.2.flat_eq, ← ih silent]
      rfl

/-- A source without tokens has only gaps. -/
theorem body_eq_nil_iff (source : String) :
    Token.body source = [] ↔ ∀ c ∈ source.toList, c ∈ [' ', '\t', '\n', '\r'] := by
  have first : Token.nth source 0 = (Token.Cursor.ofText source).next.1 := (Window.at_ofText source).current.symm
  have last := Token.nth_eof_iff source 0
  rw [Nat.le_zero, List.length_eq_zero_iff, first, Token.Cursor.next, Token.Cursor.readToken_eof_iff,
    Token.Cursor.skipGap_rest, List.dropWhile_eq_nil_iff] at last
  rw [← last]
  exact forall₂_congr fun c _ => Text.isGap_iff

theorem isFinished_parse (source : String) : (parse (.ofText source)).2.isFinished = true := by
  have standing : (State.ofText source).window.At source 0 := Window.at_ofText source
  have run := run_attempts standing (length_body_le_moves standing)
  unfold parse
  generalize State.ofText source = s at run
  exact (State.isFinished_iff _).2 run.finishes

/-- A statement has its tokens in the block from one index up to another; a diagnostic is located there or at
the next token. -/
def Confined (source : String) (i j : Nat) : EStateM.Result Diagnostic State Stmt → Prop
  | .ok x _ => ∀ t ∈ x.token :: x.flat, t ∈ block source i j
  | .error d _ => ∃ l, i ≤ l ∧ l ≤ j ∧ d.span = (Token.nth source l).span

theorem Takes.confined {r : EStateM.Result Diagnostic State Stmt} (h : Takes source i j r) :
    Confined source i j r := by
  cases r with
  | error d t => exact h
  | ok x t =>
    refine List.forall_mem_cons.2 ⟨h.2.token_mem, ?_⟩
    rw [h.2.flat_eq]
    exact fun t member => (List.mem_filter.1 member).1

/-- Indices that cut the tokens of a source into one block for each attempt. -/
structure CutsBlocks (source : String) (cuts : List Nat) : Prop where
  length : cuts.length = (callsOf source).length + 1
  first : cuts.head? = some 0
  last : cuts.getLast? = some (Token.body source).length
  rising : cuts.IsChain (· < ·)
  covers : ∀ l < (Token.body source).length,
    ∃! k, ∃ i j, cuts[k]? = some i ∧ cuts[k + 1]? = some j ∧ i ≤ l ∧ l < j
  attempt : ∀ k s i j, (callsOf source)[k]? = some s → cuts[k]? = some i → cuts[k + 1]? = some j →
    s.Stands source i ∧ Confined source i j (Stmt.parse s)

theorem Blocks.cutsBlocks (h : Blocks source 0 (callsOf source) cuts) : CutsBlocks source (0 :: cuts) where
  length := by rw [List.length_cons, h.length_eq]
  first := rfl
  last := h.last
  rising := h.rising
  covers l := h.covers (Nat.zero_le l)
  attempt k s i j call start stop := by
    obtain ⟨stands, -, takes⟩ := h.takes call start stop
    exact ⟨stands, takes.confined⟩

/-- The attempts of a source share out its tokens, and each of them has one outcome. -/
structure SharesTokens (source : String) : Prop where
  cuts : ∃ cuts, CutsBlocks source cuts
  calls_le : (callsOf source).length ≤ (Token.body source).length
  calls_eq_zero : (callsOf source).length = 0 ↔ (Token.body source).length = 0
  statements : (ofText source).program.statements = (callsOf source).filterMap (value? <| Stmt.parse ·)
  diagnostics : (ofText source).diagnostics = (callsOf source).filterMap (fault? <| Stmt.parse ·)
  outcomes : (ofText source).program.statements.length + (ofText source).diagnostics.length =
    (callsOf source).length
  finishes : (parse (.ofText source)).2.isFinished = true
  empty : (ofText source).program.statements = [] ∧ (ofText source).diagnostics = [] ↔
    ∀ c ∈ source.toList, c ∈ [' ', '\t', '\n', '\r']

/-- The attempts on a source cut its tokens into blocks. Each gives a statement out of tokens of its
block, or a diagnostic located there or at the next token. Only a source without tokens has none. -/
theorem ofText_blocks (source : String) : SharesTokens source := by
  obtain ⟨cuts, blocks⟩ := blocks_callsOf source
  obtain ⟨statements, diagnostics⟩ := ofText_eq source
  have bound := blocks.length_le
  have none := blocks.length_eq_zero_iff
  have outcomes : (ofText source).program.statements.length + (ofText source).diagnostics.length =
      (callsOf source).length := by
    rw [statements, diagnostics]
    exact length_add_length _
  refine ⟨⟨0 :: cuts, blocks.cutsBlocks⟩, by omega, none, statements, diagnostics, outcomes,
    isFinished_parse source, ?_⟩
  rw [← body_eq_nil_iff]
  simp only [← List.length_eq_zero_iff]
  omega

example : (callsOf "let x = ;) a").map (·.current.text) = ["let", ")", "a"] := by decide

/-- A statement of a source keeps, in order, the tokens that its attempt has read, without balanced
parentheses, the equals sign and the semicolon. Where nothing fails, no other token is missing. -/
theorem ofText_flat (source : String) :
    (ofText source).program.statements = (callsOf source).filterMap (value? <| Stmt.parse ·) ∧
    (∀ s ∈ callsOf source, ∀ x t, Stmt.parse s = .ok x t →
      ∃ i l, i ≤ l ∧ l < (Token.body source).length ∧ s.Stands source i ∧ t.Stands source l ∧
        x.Fills (block source i (l + 1)) ∧
        x.flat = (block source i (l + 1)).filter
          (·.kind ∉ [.openParen, .closeParen, .assign, .semicolon])) ∧
    ((ofText source).diagnostics = [] → (ofText source).program.statements.flatMap Stmt.flat =
      (Token.ofText source).filter (·.kind ∉ [.openParen, .closeParen, .assign, .semicolon, .eof])) := by
  obtain ⟨cuts, blocks⟩ := blocks_callsOf source
  obtain ⟨statements, diagnostics⟩ := ofText_eq source
  refine ⟨statements, fun s member x t result => ?_, fun silent => ?_⟩
  · obtain ⟨i, j, forward, bound, stands, takes⟩ := blocks.call member
    rw [result] at takes
    obtain ⟨⟨l, rfl, there⟩, fills⟩ := takes
    refine ⟨i, l, Nat.le_of_lt_succ forward, bound, stands, there, fills, ?_⟩
    rw [fills.flat_eq]
    refine List.filter_congr fun t _ => ?_
    cases t.kind <;> rfl
  · rw [diagnostics] at silent
    obtain ⟨e, whole, last, others⟩ := Token.ofText_eq source
    rw [statements, blocks.flat_eq silent, List.drop_zero, whole, List.filter_append]
    have none : [e].filter (·.kind ∉ [.openParen, .closeParen, .assign, .semicolon, .eof]) = [] := by
      simp [last]
    rw [none, List.append_nil]
    refine List.filter_congr fun t member => ?_
    have inside := others t member
    cases kind : t.kind <;> first | rfl | exact absurd kind inside

example : (Program.ofText "let x = -(a + 1); y)").program.statements.map (·.flat.map Token.text) =
    [["let", "x", "-", "a", "+", "1"], ["y"]] ∧ ¬ Token.Balanced (Token.body "let x = -(a + 1); y)") := by
  decide +kernel

end Program

end LetLang
