import LetLang.Proofs.Program.Run
import LetLang.Proofs.Token.Number

/-!
# What the diagnostics blame

Every diagnostic of a source is true of one of its tokens, and the diagnostics go through the tokens
in order. A token is blamed twice only where it is not of the kind due and, tried again as the first
token of a statement, is no operand either (`diagnostics_fit_tokens`).
-/

namespace LetLang

open Parse (State finalState)
open Token (Kind Window)

namespace Fault

/-- The cause is the token ahead of a reader, not the current one. -/
def isUnexpected : Fault → Bool
  | unexpectedToken .. => true
  | _ => false

/-- The cause is a token that is no operand by itself. -/
def isUnreadable : Fault → Bool
  | noOpening _ | badNumber _ => true
  | _ => false

theorem not_unreadable {f : Fault} (h : f.isUnexpected = true) : f.isUnreadable = false := by
  cases f <;> first | rfl | contradiction

/-- What the cause says of a token is true. -/
def Fits : Fault → Token → Prop
  | unexpectedToken expected actual, t => actual = t.kind ∧ expected ≠ t.kind
  | noOpening kind, t => kind = t.kind ∧ kind.opening? = none
  | badNumber text, t =>
    t.kind = .int ∧ text = t.text ∧ ∃ n, Decimal.natural? text.toList = some n ∧ 9223372036854775807 < n
  | nestingTooDeep limit, _ => limit = 256

end Fault

/-- The diagnostic stands at the token and is true of it. -/
structure Diagnostic.Fits (d : Diagnostic) (t : Token) : Prop where
  place : d.span = t.span
  cause : d.fault.Fits t

/-- The diagnostic of a reader that stopped at the window fits the token ahead, if another one was due
there, and else the current token. -/
inductive Diagnostic.Blames (d : Diagnostic) (w : Window) : Prop where
  | ahead (cause : d.fault.isUnexpected = true) (inside : w.current.kind ≠ .eof) (fits : d.Fits w.ahead)
  | here (cause : d.fault.isUnexpected = false) (fits : d.Fits w.current)

/-- A move that leaves the first window. -/
def Token.Window.Leaves (w v : Window) : Prop := w.current.kind ≠ .eof ∧ ∃ ts, w.advance.Passes ts v

variable {d : Diagnostic} {p : Power}

theorem Token.Window.Passes.leaves {w u v : Window} {ts : List Token} (first : w.Passes ts u)
    (h : u.Leaves v) : w.Leaves v := by
  obtain ⟨inside, us, second⟩ := h
  cases ts with
  | nil =>
    obtain rfl : u = w := first
    exact ⟨inside, us, second⟩
  | cons t ts =>
    obtain ⟨rfl, kind, rest⟩ := first
    exact ⟨kind, _, rest.trans (.cons inside second)⟩

theorem Token.Numeric.fits {t : Token} (h : t.Numeric) (kind : t.kind = .int)
    (value : Decimal.read? t.text = none) : Diagnostic.Fits ⟨.badNumber t.text, t.span⟩ t := by
  obtain ⟨nonempty, digits⟩ := h kind
  refine ⟨rfl, kind, rfl, Decimal.value t.text.toList, by rw [Decimal.natural?, if_pos ⟨nonempty, digits⟩], ?_⟩
  have large := (h.read?_eq_none_iff kind).1 value
  unfold Decimal.maximum at large
  omega

/-! ### Expressions -/

namespace Expr

variable {task : Task} {s t : State} {r : Outcome} {left : Expr}

def Outcome.Blamed : Outcome → Prop
  | .ok _ _ => True
  | .error d t => d.Blames t.window

theorem Run.blamed (h : Run task s r) (numeric : s.window.Numeric) : r.Blamed := by
  induction h with
  | tooDeep => exact .here rfl ⟨rfl, rfl⟩
  | @whole s p r room body ih =>
    have inner := ih numeric
    cases r <;> exact inner
  | noOpening none => exact .here rfl ⟨rfl, rfl, none⟩
  | openingFails opening ih => exact ih numeric
  | opened opening rest first second =>
    obtain ⟨-, ts, -, -, moved⟩ := opening.reached trivial
    exact second (numeric.passes moved)
  | badInt kind value =>
    have digits := numeric.current
    exact .here rfl (digits.fits (opening?_eq_int.1 kind) value)
  | unaryFails kind operand ih => exact ih numeric.advance
  | groupFails kind inner ih => exact ih numeric.advance
  | unclosed kind inner unclosed ih =>
    obtain ⟨ts, moved⟩ := inner.reached trivial
    exact .ahead rfl moved.last_ne_eof ⟨rfl, rfl, Ne.symm unclosed⟩
  | step tight operand rest first second =>
    obtain ⟨-, ts, -, -, moved⟩ := operand.reached trivial
    exact second (numeric.advance.advance.passes moved)
  | stepFails tight operand ih => exact ih numeric.advance.advance
  | _ => trivial

theorem Run.opening_leaves (h : Run .opening s (.error d t)) :
    s.window.Leaves t.window ∨ d.fault.isUnreadable = true := by
  cases h with
  | badInt => exact .inr rfl
  | unaryFails kind inner | groupFails kind inner =>
    exact .inl ⟨ne_eof_of_opening? kind, inner.reached trivial⟩
  | unclosed kind inner =>
    obtain ⟨-, ts, -, -, moved⟩ := inner.reached trivial
    exact .inl ⟨ne_eof_of_opening? kind, ts, moved⟩

theorem Run.climb_leaves (h : Run (.climb p left) s (.error d t)) (started : s.current.kind ≠ .eof) :
    s.window.Leaves t.window := by
  cases h with
  | step tight operand rest =>
    obtain ⟨ts, moved⟩ := operand.reached trivial
    have further := (rest.reached moved.last_ne_eof).of_reads moved
    exact ⟨started, further.of_passes (.step (ne_eof_of_power_lt tight))⟩
  | stepFails tight operand =>
    exact ⟨started, (operand.reached trivial).of_passes (.step (ne_eof_of_power_lt tight))⟩

theorem Run.body_leaves (h : Run (.body p) s (.error d t)) :
    s.window.Leaves t.window ∨ d.fault.isUnreadable = true := by
  cases h with
  | noOpening => exact .inr rfl
  | openingFails opening => exact opening.opening_leaves
  | opened opening rest =>
    obtain ⟨-, ts, -, inside, moved⟩ := opening.reached trivial
    exact .inl (moved.leaves (rest.climb_leaves inside))

/-- An expression that fails at its first token fails because of that token. -/
theorem Run.leaves (h : Run (.whole p) s (.error d t)) (room : s.depth < Parse.maxDepth) :
    s.window.Leaves t.window ∨ d.fault.isUnreadable = true := by
  generalize same : EStateM.Result.error d t = r at h
  cases h with
  | tooDeep full => exact absurd room full
  | @whole _ _ r _ body =>
    cases r with
    | ok => exact nomatch same
    | error d' t' =>
      obtain ⟨rfl, rfl⟩ := EStateM.Result.error.inj same
      exact body.body_leaves

end Expr

/-! ### Statements -/

namespace Stmt

/-- What an attempt at a statement from the `i`-th token of a source on does when it fails: it blames the
`k`-th token, and the next attempt starts at the `j`-th one. -/
structure Failure (source : String) (d : Diagnostic) (i k j : Nat) : Prop where
  fits : d.Fits (Token.nth source k)
  started : i < (Token.body source).length
  low : i ≤ k
  high : k ≤ (Token.body source).length
  first : k = i → d.fault.isUnreadable = true
  next : k = j ∧ d.fault.isUnexpected = true ∨ k < j
  moves : i < j

variable {s t : State} {source : String} {i : Nat}

theorem Run.blamed (h : Run s (.error d t)) (numeric : s.window.Numeric) (inside : s.current.kind ≠ .eof) :
    d.Blames t.window := by
  cases h with
  | noName form name => exact .ahead rfl inside ⟨rfl, rfl, Ne.symm name⟩
  | noEquals form name sign =>
    have named : s.window.advance.current.kind ≠ .eof := by
      rw [Window.current_advance, ← State.ahead, name]
      decide
    exact .ahead rfl named ⟨rfl, rfl, Ne.symm sign⟩
  | fails lead value =>
    obtain ⟨ts, moved⟩ := lead.passes inside
    cases value with
    | fails run => exact run.blamed (numeric.passes moved)

theorem Run.leaves (h : Run s (.error d t)) (inside : s.current.kind ≠ .eof)
    (room : s.depth < Parse.maxDepth) (here : d.fault.isUnexpected = false) :
    s.window.Leaves t.window ∨ d.fault.isUnreadable = true := by
  cases h with
  | noName | noEquals => exact nomatch here
  | fails lead value =>
    obtain ⟨ts, moved⟩ := lead.passes inside
    cases value with
    | fails run => exact (run.leaves (by rwa [lead.keeps.1])).imp_left moved.leaves

/-- The next attempt starts at the blamed token, if that was the one ahead, and else behind it. -/
theorem Run.failure (h : Run s (.error d t)) (standing : s.window.At source i)
    (inside : s.current.kind ≠ .eof) (room : s.depth < Parse.maxDepth) :
    ∃ k j, Failure source d i k j ∧ t.window.advance.At source j := by
  have started := standing.ne_eof_iff.1 inside
  obtain ⟨ts, moved⟩ : ∃ ts, s.window.Passes ts t.window := h.passes inside
  obtain ⟨there, -, bound⟩ := standing.passes moved
  have next := there.iterate 1
  cases h.blamed standing.numeric inside with
  | ahead cause kind fits =>
    have before := there.ne_eof_iff.1 kind
    rw [there.ahead] at fits
    exact ⟨_, _, ⟨fits, started, by omega, before, by omega, .inl ⟨rfl, cause⟩, by omega⟩, next⟩
  | here cause fits =>
    have high : i + ts.length ≤ (Token.body source).length := by
      cases ts with
      | nil => exact Nat.le_of_lt started
      | cons => exact bound (List.cons_ne_nil _ _)
    have first : i + ts.length = i → d.fault.isUnreadable = true := by
      intro same
      refine (h.leaves inside room cause).resolve_left ?_
      -- A window that has moved on stands at a later index, and before the end there is one index only.
      rintro ⟨-, us, further⟩
      rw [same] at there
      have away := there.index_unique ((standing.iterate 1).passes further).1 started
      omega
    rw [there.current] at fits
    exact ⟨_, _, ⟨fits, started, by omega, high, first, .inr (Nat.lt_succ_self _), by omega⟩, next⟩

end Stmt

/-! ### Programs -/

namespace Program

/-- Diagnostics with the index of the token that each one blames, from the `i`-th token of a source on. -/
structure InOrder (source : String) (i : Nat) (blamed : List (Diagnostic × Nat)) : Prop where
  fits : ∀ x ∈ blamed, x.1.Fits (Token.nth source x.2)
  within : ∀ x ∈ blamed, i < (Token.body source).length ∧ i ≤ x.2 ∧ x.2 ≤ (Token.body source).length
  first : ∀ x ∈ blamed, x.2 = i → x.1.fault.isUnreadable = true
  ordered : blamed.Pairwise fun x y => x.2 < (Token.body source).length ∧
    (x.2 < y.2 ∨ x.2 = y.2 ∧ x.1.fault.isUnexpected = true ∧ y.1.fault.isUnreadable = true)

namespace InOrder

variable {source : String} {i j k : Nat} {blamed : List (Diagnostic × Nat)} {x : Diagnostic × Nat}

theorem nil (source : String) (i : Nat) : InOrder source i [] := ⟨by simp, by simp, by simp, .nil⟩

theorem later (h : InOrder source j blamed) (before : i < j) : InOrder source i blamed := by
  refine ⟨h.fits, fun x member => ?_, fun x member => ?_, h.ordered⟩
  · have := h.within x member
    omega
  · have := h.within x member
    omega

theorem cons (failure : Stmt.Failure source d i k j) (h : InOrder source j blamed) :
    InOrder source i ((d, k) :: blamed) := by
  have rest := h.later failure.moves
  refine ⟨List.forall_mem_cons.2 ⟨failure.fits, rest.fits⟩,
    List.forall_mem_cons.2 ⟨⟨failure.started, failure.low, failure.high⟩, rest.within⟩,
    List.forall_mem_cons.2 ⟨failure.first, rest.first⟩, .cons (fun x member => ?_) rest.ordered⟩
  obtain ⟨started, low, -⟩ := h.within x member
  have next := failure.next
  refine ⟨by simp only; omega, ?_⟩
  by_cases same : k = x.2
  · obtain ⟨again, cause⟩ := next.resolve_right (by omega)
    exact .inr ⟨same, cause, h.first x member (by omega)⟩
  · exact .inl (by simp only; omega)

/-- Of three diagnostics for one token, the second would be of both sorts. -/
theorem count_le (h : InOrder source i blamed) (k : Nat) : (blamed.map Prod.snd).count k ≤ 2 := by
  by_contra more
  have three : (List.replicate 3 k).Sublist (blamed.map Prod.snd) := List.replicate_sublist_iff.2 (by omega)
  obtain ⟨part, inside, same⟩ := List.sublist_map_iff.1 three
  have length : part.length = 3 := by rw [← List.length_map Prod.snd, ← same, List.length_replicate]
  obtain ⟨x, y, z, rfl⟩ := List.length_eq_three.1 length
  have equal : x.2 = k ∧ y.2 = k ∧ z.2 = k := by simpa [eq_comm] using same
  obtain ⟨first, ordered⟩ := List.pairwise_cons.1 (h.ordered.sublist inside)
  obtain ⟨second, -⟩ := List.pairwise_cons.1 ordered
  obtain ⟨-, -, unreadable⟩ := (first y List.mem_cons_self).2.resolve_left (by omega)
  obtain ⟨-, unexpected, -⟩ := (second z List.mem_cons_self).2.resolve_left (by omega)
  rw [Fault.not_unreadable unexpected] at unreadable
  contradiction

theorem before_of_mem_dropLast (h : InOrder source i blamed) (member : x ∈ blamed.dropLast) :
    x.2 < (Token.body source).length := by
  obtain ⟨front, last, rfl⟩ := List.eq_nil_or_concat blamed |>.resolve_left (by rintro rfl; simp at member)
  rw [List.concat_eq_append] at h member
  rw [List.dropLast_concat] at member
  exact ((List.pairwise_append.1 h.ordered).2.2 x member last (List.mem_singleton_self _)).1

end InOrder

variable {s u : State} {xs : List Stmt} {source : String} {i : Nat}

theorem Run.inOrder (h : Run s xs u) (standing : s.window.At source i) (room : s.depth < Parse.maxDepth) :
    ∃ blamed, u.diagnostics = (blamed.map Prod.fst).reverse ++ s.diagnostics ∧ InOrder source i blamed := by
  induction h generalizing i with
  | finished => exact ⟨[], rfl, .nil source i⟩
  | @parsed s x t xs u more stmt rest ih =>
    obtain ⟨ts, moved⟩ := stmt.passes (ne_eof_of_isFinished more)
    obtain ⟨depth, kept⟩ := stmt.keeps
    have next := (standing.passes moved).1.iterate 1
    obtain ⟨blamed, new, inOrder⟩ := ih next (by rw [← depth] at room; exact room)
    exact ⟨blamed, by rw [new, ← kept]; rfl, inOrder.later (by omega)⟩
  | @failed s d t xs u more stmt rest ih =>
    obtain ⟨depth, kept⟩ := stmt.keeps
    obtain ⟨k, j, failure, next⟩ := stmt.failure standing (ne_eof_of_isFinished more) room
    obtain ⟨blamed, new, inOrder⟩ := ih next (by rw [← depth] at room; exact room)
    refine ⟨(d, k) :: blamed, ?_, .cons failure inOrder⟩
    rw [new, ← kept, List.map_cons, List.reverse_cons, List.append_assoc]
    rfl

/-- Every diagnostic stands at a token. -/
theorem exists_token_of_mem {d : Diagnostic} (member : d ∈ (ofText source).diagnostics) :
    ∃ k, d.span = (Token.nth source k).span := by
  obtain ⟨u, run, same⟩ := run_ofText source
  obtain ⟨blamed, new, inOrder⟩ := run.inOrder (Window.at_ofText source) (by decide : 0 < Parse.maxDepth)
  have kept : (State.ofText source).diagnostics = [] := rfl
  rw [same, new, kept, List.append_nil, List.reverse_reverse] at member
  obtain ⟨x, listed, rfl⟩ := List.mem_map.1 member
  exact ⟨x.2, (inOrder.fits x listed).place⟩

/-- Every diagnostic is true of a token, and the spans tell the tokens apart. The blamed tokens come in
order. No token is blamed three times, and of two that blame the same one the first expected another
token there and the second cannot read it. Only the last diagnostic may stand at the end. -/
theorem diagnostics_fit_tokens (source : String) :
    ((Token.ofText source).map Token.span).Nodup ∧
    ∃ blamed : List (Diagnostic × Nat), blamed.map Prod.fst = (ofText source).diagnostics ∧
      (∀ x ∈ blamed, ∃ t, (Token.ofText source)[x.2]? = some t ∧ x.1.Fits t) ∧
      (blamed.map Prod.snd).Pairwise (· ≤ ·) ∧ (∀ k, (blamed.map Prod.snd).count k ≤ 2) ∧
      (blamed.Pairwise fun x y => x.2 = y.2 →
        x.1.fault.isUnexpected = true ∧ y.1.fault.isUnreadable = true) ∧
      ∀ x ∈ blamed.dropLast, ∀ t, (Token.ofText source)[x.2]? = some t → t.kind ≠ .eof := by
  obtain ⟨u, run, same⟩ := run_ofText source
  obtain ⟨blamed, new, inOrder⟩ := run.inOrder (Window.at_ofText source) (by decide : 0 < Parse.maxDepth)
  have kept : (State.ofText source).diagnostics = [] := rfl
  rw [kept, List.append_nil] at new
  have found := fun x member => Token.getElem?_ofText source x.2 (inOrder.within x member).2.2
  refine ⟨(Token.laid_ofText source).spans_nodup, blamed, ?_, fun x member => ?_, ?_, inOrder.count_le, ?_,
    fun x member t shown => ?_⟩
  · rw [same, new, List.reverse_reverse]
  · exact ⟨_, found x member, inOrder.fits x member⟩
  · exact List.pairwise_map.2 (inOrder.ordered.imp fun ⟨_, order⟩ => by omega)
  · exact inOrder.ordered.imp fun ⟨_, order⟩ equal => (order.resolve_left (by omega)).2
  · obtain rfl := Option.some.inj ((found x (List.dropLast_subset _ member)).symm.trans shown)
    rw [ne_eq, Token.nth_eof_iff]
    have := inOrder.before_of_mem_dropLast member
    omega

example : (ofText "let )").diagnostics =
    [⟨.unexpectedToken .ident .closeParen, ⟨4, 5⟩⟩, ⟨.noOpening .closeParen, ⟨4, 5⟩⟩] := by
  decide +kernel

end Program

end LetLang
