import LetLang.Token.Window
import Mathlib.Logic.Function.Iterate

/-!
# The tokens that a window shows

A window that is moved on shows the tokens of its source in order and then the end token for ever
(`at_ofText`). `Window.Passes` and `Window.Reads` describe such moves by the tokens moved over.
-/

namespace LetLang.Token

/-- The tokens of a source without the end token. -/
def body (source : String) : List Token := (ofText source).dropLast

/-- The `k`-th token of a source. From the end on it is the end token. -/
def nth (source : String) (k : Nat) : Token :=
  (ofText source).getD (min k (body source).length) default

/-! ### Cursors -/

namespace Cursor

theorem next_of_eof {c : Cursor} (h : c.next.1.kind = .eof) : c.next.2.next = c.next := by
  have rest : c.skipGap.rest = [] := (readToken_eof_iff _).1 h
  have stays : c.next = (⟨.eof, "", ⟨c.skipGap.offset, c.skipGap.offset⟩⟩, c.skipGap) := by
    unfold next readToken
    rw [rest]
    rfl
  have again : c.skipGap.skipGap = c.skipGap := by
    unfold skipGap at rest ⊢
    rw [rest]
    simp only [skip, List.takeWhile_nil, List.length_nil, List.take_zero, List.drop_zero,
      Text.byteLength_nil, Nat.add_zero] at rest ⊢
  rw [stays]
  change c.skipGap.skipGap.readToken = _
  rw [again]
  exact stays

theorem next_iterate_of_eof {c : Cursor} (h : c.next.1.kind = .eof) (k : Nat) :
    ((fun d => d.next.2)^[k] c).next = c.next := by
  induction k with
  | zero => rfl
  | succ k ih =>
    rw [Function.iterate_succ_apply', next_of_eof (by rw [ih]; exact h), ih]

theorem tokens_eq_append (c : Cursor) :
    ∃ ts e, c.tokens = ts ++ [e] ∧ e.kind = .eof ∧ ∀ t ∈ ts, t.kind ≠ .eof := by
  fun_induction tokens c with
  | case1 c h => exact ⟨[], c.next.1, rfl, h, by simp⟩
  | case2 c h ih =>
    obtain ⟨ts, e, same, last, others⟩ := ih
    exact ⟨c.next.1 :: ts, e, by rw [same]; rfl, last, List.forall_mem_cons.2 ⟨h, others⟩⟩

theorem tokens_ne_nil (c : Cursor) : c.tokens ≠ [] := by
  obtain ⟨ts, e, same, -, -⟩ := tokens_eq_append c
  simp [same]

theorem next_iterate (c : Cursor) (k : Nat) :
    ((fun d => d.next.2)^[k] c).next.1 = c.tokens.getD (min k (c.tokens.length - 1)) default := by
  fun_induction tokens c generalizing k with
  | case1 c h => simp [next_iterate_of_eof h k]
  | case2 c h ih =>
    have pos := List.length_pos_iff.2 (tokens_ne_nil c.next.2)
    cases k with
    | zero => simp
    | succ k =>
      rw [Function.iterate_succ_apply, ih, List.length_cons, Nat.add_sub_cancel,
        show min (k + 1) c.next.2.tokens.length = min k (c.next.2.tokens.length - 1) + 1 by omega,
        List.getD_cons_succ]

end Cursor

/-! ### The tokens of a source -/

theorem ofText_eq (source : String) :
    ∃ e, ofText source = body source ++ [e] ∧ e.kind = .eof ∧ ∀ t ∈ body source, t.kind ≠ .eof := by
  obtain ⟨ts, e, same, last, others⟩ := Cursor.tokens_eq_append (.ofText source)
  have front : body source = ts := by rw [body, ofText, same, List.dropLast_concat]
  exact ⟨e, by rw [front]; exact same, last, by rw [front]; exact others⟩

theorem length_ofText (source : String) : (ofText source).length = (body source).length + 1 := by
  obtain ⟨e, same, -, -⟩ := ofText_eq source
  rw [same, List.length_append, List.length_singleton]

theorem getElem?_ofText (source : String) (k : Nat) (h : k ≤ (body source).length) :
    (ofText source)[k]? = some (nth source k) := by
  have bound := length_ofText source
  rw [nth, Nat.min_eq_left h, List.getD_eq_getElem?_getD,
    List.getElem?_eq_getElem (by omega : k < (ofText source).length)]
  rfl

theorem getElem?_body (source : String) (k : Nat) (h : k < (body source).length) :
    (body source)[k]? = some (nth source k) := by
  obtain ⟨e, same, -, -⟩ := ofText_eq source
  rw [← getElem?_ofText source k (Nat.le_of_lt h), same, List.getElem?_append_left h]

theorem nth_eof_iff (source : String) (k : Nat) :
    (nth source k).kind = .eof ↔ (body source).length ≤ k := by
  obtain ⟨e, same, last, others⟩ := ofText_eq source
  constructor
  · intro h
    by_contra before
    have found := getElem?_body source k (by omega)
    exact others _ (List.mem_of_getElem? found) h
  · intro h
    rw [nth, Nat.min_eq_right h, same]
    simpa using last

theorem nth_min (source : String) (k : Nat) : nth source (min k (body source).length) = nth source k := by
  simp only [nth, Nat.min_assoc, Nat.min_self]

theorem nth_mem (source : String) (k : Nat) : nth source k ∈ ofText source := by
  have found := getElem?_ofText source (min k (body source).length) (Nat.min_le_right ..)
  rw [← nth_min]
  exact List.mem_of_getElem? found

theorem next_iterate_ofText (source : String) (k : Nat) :
    ((fun c : Cursor => c.next.2)^[k] (.ofText source)).next.1 = nth source k := by
  have bound := length_ofText source
  rw [nth, show (body source).length = (ofText source).length - 1 by omega]
  exact Cursor.next_iterate (.ofText source) k

/-! ### Moves -/

namespace Window

theorem advance_ofCursor (c : Cursor) : (ofCursor c).advance = ofCursor c.next.2 := rfl

theorem iterate_ofCursor (c : Cursor) (k : Nat) :
    advance^[k] (ofCursor c) = ofCursor ((fun d => d.next.2)^[k] c) := by
  induction k with
  | zero => rfl
  | succ k ih => rw [Function.iterate_succ_apply', ih, advance_ofCursor, Function.iterate_succ_apply']

/-- The window shows the tokens of a source from the `i`-th one on. -/
def At (source : String) (i : Nat) (w : Window) : Prop :=
  ∀ k, (advance^[k] w).current = nth source (i + k)

theorem at_ofText (source : String) : (ofText source).At source 0 := by
  intro k
  rw [ofText, iterate_ofCursor, Nat.zero_add]
  exact next_iterate_ofText source k

/-- A move over the given tokens, none of which is the end token. -/
def Passes (w : Window) : List Token → Window → Prop
  | [], v => v = w
  | t :: ts, v => w.current = t ∧ t.kind ≠ .eof ∧ w.advance.Passes ts v

/-- A move to the last one of the given tokens. -/
def Reads (w : Window) (ts : List Token) (v : Window) : Prop :=
  ∃ before, ts = before ++ [v.current] ∧ v.current.kind ≠ .eof ∧ w.Passes before v

variable {w v u : Window} {t : Token} {as bs ts : List Token} {source : String} {i j : Nat}

theorem Passes.refl (w : Window) : w.Passes [] w := rfl

theorem Passes.step (h : w.current.kind ≠ .eof) : w.Passes [w.current] w.advance := ⟨rfl, h, rfl⟩

theorem Passes.cons (h : w.current.kind ≠ .eof) (rest : w.advance.Passes ts v) :
    w.Passes (w.current :: ts) v := ⟨rfl, h, rest⟩

theorem passes_append : w.Passes (as ++ bs) v ↔ ∃ u, w.Passes as u ∧ u.Passes bs v := by
  induction as generalizing w with
  | nil => simp [Passes]
  | cons t as ih =>
    simp only [List.cons_append, Passes, ih]
    constructor
    · rintro ⟨same, kind, u, first, second⟩
      exact ⟨u, ⟨same, kind, first⟩, second⟩
    · rintro ⟨u, ⟨same, kind, first⟩, second⟩
      exact ⟨same, kind, u, first, second⟩

theorem Passes.trans (first : w.Passes as u) (second : u.Passes bs v) : w.Passes (as ++ bs) v :=
  passes_append.2 ⟨u, first, second⟩

theorem Passes.eq_iterate (h : w.Passes ts v) : v = advance^[ts.length] w := by
  induction ts generalizing w with
  | nil => exact h
  | cons t ts ih =>
    obtain ⟨-, -, rest⟩ := h
    rw [List.length_cons, Function.iterate_succ_apply]
    exact ih rest

theorem Passes.remaining_le (h : w.Passes ts v) : v.cursor.remaining ≤ w.cursor.remaining := by
  induction ts generalizing w with
  | nil =>
    obtain rfl : v = w := h
    exact Nat.le_refl _
  | cons t ts ih =>
    obtain ⟨-, -, rest⟩ := h
    exact Nat.le_trans (ih rest) (Cursor.remaining_next_le w.cursor)

theorem Reads.passes (h : w.Reads ts v) : w.Passes ts v.advance := by
  obtain ⟨before, rfl, kind, moved⟩ := h
  exact moved.trans (.step kind)

theorem Reads.last_ne_eof (h : w.Reads ts v) : v.current.kind ≠ .eof := by
  obtain ⟨-, -, kind, -⟩ := h
  exact kind

theorem Reads.first_ne_eof (h : w.Reads ts v) : w.current.kind ≠ .eof := by
  obtain ⟨before, -, kind, moved⟩ := h
  cases before with
  | nil => rw [show v = w from moved] at kind; exact kind
  | cons t before =>
    obtain ⟨same, first, -⟩ := moved
    rw [same]
    exact first

theorem Reads.remaining_le (h : w.Reads ts v) : v.cursor.remaining ≤ w.cursor.remaining := by
  obtain ⟨before, -, -, moved⟩ := h
  exact moved.remaining_le

theorem reads_single (h : w.current.kind ≠ .eof) : w.Reads [w.current] w := ⟨[], rfl, h, rfl⟩

theorem Passes.reads (first : w.Passes as u) (second : u.Reads bs v) : w.Reads (as ++ bs) v := by
  obtain ⟨before, rfl, kind, moved⟩ := second
  exact ⟨as ++ before, by simp, kind, first.trans moved⟩

theorem Reads.cons (h : w.current.kind ≠ .eof) (rest : w.advance.Reads ts v) :
    w.Reads (w.current :: ts) v := (Passes.step h).reads rest

theorem Reads.concat (h : w.Reads ts v) (kind : v.ahead.kind ≠ .eof) :
    w.Reads (ts ++ [v.ahead]) v.advance := h.passes.reads (reads_single kind)

theorem reads_append (h : w.Reads (as ++ bs) v) (nonempty : bs ≠ []) :
    ∃ u, w.Passes as u ∧ u.Reads bs v := by
  obtain ⟨before, same, kind, moved⟩ := h
  obtain ⟨front, last, rfl⟩ := List.eq_nil_or_concat bs |>.resolve_left nonempty
  rw [List.concat_eq_append, ← List.append_assoc] at same
  obtain ⟨rfl, single⟩ := List.append_inj' same rfl
  obtain rfl := List.singleton_inj.1 single
  obtain ⟨u, first, second⟩ := passes_append.1 moved
  exact ⟨u, first, front, List.concat_eq_append, kind, second⟩

theorem Passes.exists_reads (h : w.Passes ts u) (nonempty : ts ≠ []) :
    ∃ v, w.Reads ts v ∧ u = v.advance := by
  obtain ⟨front, last, rfl⟩ := List.eq_nil_or_concat ts |>.resolve_left nonempty
  rw [List.concat_eq_append] at h ⊢
  obtain ⟨v, first, same, kind, rfl⟩ := passes_append.1 h
  exact ⟨v, ⟨front, by rw [same], by rw [same]; exact kind, first⟩, rfl⟩

theorem Reads.binary (first : w.Reads as u) (kind : u.ahead.kind ≠ .eof)
    (second : u.advance.advance.Reads bs v) : w.Reads (as ++ u.ahead :: bs) v :=
  first.passes.reads (.cons kind second)

theorem reads_singleton (h : w.Reads [t] v) : v = w ∧ w.current = t := by
  obtain ⟨before, same, -, moved⟩ := h
  obtain ⟨rfl, single⟩ := List.append_inj' ((List.nil_append [t]).trans same) rfl
  obtain rfl : v = w := moved
  exact ⟨rfl, (List.singleton_inj.1 single).symm⟩

theorem reads_cons (h : w.Reads (t :: ts) v) (nonempty : ts ≠ []) :
    w.current = t ∧ w.advance.Reads ts v := by
  rw [← List.singleton_append] at h
  obtain ⟨u, ⟨same, -, moved⟩, second⟩ := reads_append h nonempty
  obtain rfl : u = w.advance := moved
  exact ⟨same, second⟩

theorem reads_binary (h : w.Reads (as ++ t :: bs) v) (left : as ≠ []) (right : bs ≠ []) :
    ∃ u, w.Reads as u ∧ u.ahead = t ∧ u.advance.advance.Reads bs v := by
  obtain ⟨next, first, second⟩ := reads_append h (by simp)
  obtain ⟨u, moved, rfl⟩ := first.exists_reads left
  obtain ⟨same, third⟩ := reads_cons second right
  exact ⟨u, moved, same, third⟩

theorem reads_concat (h : w.Reads (as ++ [t]) v) (left : as ≠ []) :
    ∃ u, w.Reads as u ∧ u.ahead = t ∧ v = u.advance := by
  obtain ⟨before, same, -, moved⟩ := h
  obtain ⟨rfl, single⟩ := List.append_inj' same rfl
  obtain ⟨u, first, rfl⟩ := moved.exists_reads left
  exact ⟨u, first, (List.singleton_inj.1 single).symm, rfl⟩

/-! ### Moves through a source -/

theorem At.current (h : w.At source i) : w.current = nth source i := h 0

theorem At.ahead (h : w.At source i) : w.ahead = nth source (i + 1) := h 1

theorem At.iterate (h : w.At source i) (k : Nat) : (advance^[k] w).At source (i + k) := by
  intro m
  rw [← Function.iterate_add_apply, Nat.add_comm m k, h (k + m), Nat.add_assoc]

theorem At.ne_eof_iff (h : w.At source i) : w.current.kind ≠ .eof ↔ i < (body source).length := by
  rw [h.current, ne_eq, nth_eof_iff, Nat.not_le]

/-- Before the end, the tokens still to come tell the index. -/
theorem At.index_unique (hi : w.At source i) (hj : w.At source j) (before : i < (body source).length) :
    i = j := by
  have same : ∀ k, (body source).length ≤ i + k ↔ (body source).length ≤ j + k := by
    intro k
    rw [← nth_eof_iff, ← nth_eof_iff, ← hi k, ← hj k]
  have first := same ((body source).length - i)
  have second := same ((body source).length - j)
  have third := same 0
  omega

theorem At.drop_eq (h : w.At source i) (before : i < (body source).length) :
    (body source).drop i = w.current :: (body source).drop (i + 1) := by
  have head := getElem?_body source i before
  rw [List.getElem?_eq_getElem before] at head
  rw [List.drop_eq_getElem_cons before, h.current, Option.some.inj head]

theorem At.passes (h : w.At source i) (moved : w.Passes ts v) :
    v.At source (i + ts.length) ∧ ((body source).drop i).take ts.length = ts ∧
      (ts ≠ [] → i + ts.length ≤ (body source).length) := by
  refine ⟨?_, ?_⟩
  · rw [moved.eq_iterate]
    exact h.iterate _
  · induction ts generalizing w i with
    | nil => simp
    | cons t ts ih =>
      obtain ⟨rfl, kind, rest⟩ := moved
      have before := h.ne_eof_iff.1 kind
      obtain ⟨tail, bound⟩ := ih (h.iterate 1) rest
      refine ⟨by rw [h.drop_eq before, List.length_cons, List.take_succ_cons, tail], fun _ => ?_⟩
      cases ts with
      | nil => exact before
      | cons t ts =>
        have := bound (by simp)
        simp only [List.length_cons] at this ⊢
        omega

theorem At.passes_slice (h : w.At source i) (k : Nat) (bound : i + k ≤ (body source).length) :
    w.Passes (((body source).drop i).take k) (advance^[k] w) := by
  induction k generalizing w i with
  | zero => exact .refl w
  | succ k ih =>
    have before : i < (body source).length := by omega
    rw [h.drop_eq before, List.take_succ_cons]
    exact .cons (h.ne_eof_iff.2 before) (ih (h.iterate 1) (by omega))

theorem At.reads_iff (h : w.At source i) :
    (∃ v, w.Reads ts v ∧ v.At source j) ↔
      i ≤ j ∧ j < (body source).length ∧ ((body source).drop i).take (j + 1 - i) = ts := by
  have last : ∀ {ts v}, w.Reads ts v → v.At source (i + (ts.length - 1)) := by
    rintro ts v ⟨before, rfl, -, moved⟩
    simpa using (h.passes moved).1
  constructor
  · rintro ⟨v, moved, standing⟩
    have there := last moved
    have before := there.ne_eof_iff.1 moved.last_ne_eof
    have same := there.index_unique standing before
    have taken := (h.passes moved.passes).2.1
    obtain ⟨front, shape, -, -⟩ := moved
    have count : ts.length = front.length + 1 := by rw [shape, List.length_append, List.length_singleton]
    refine ⟨by omega, by omega, ?_⟩
    rw [show j + 1 - i = ts.length by omega]
    exact taken
  · rintro ⟨low, high, rfl⟩
    have count : (((body source).drop i).take (j + 1 - i)).length = j + 1 - i := by
      rw [List.length_take, List.length_drop]
      omega
    obtain ⟨v, moved, -⟩ := (h.passes_slice (j + 1 - i) (by omega)).exists_reads
      (List.ne_nil_of_length_pos (by omega))
    refine ⟨v, moved, ?_⟩
    have there := last moved
    rwa [count, show i + (j + 1 - i - 1) = j by omega] at there

end Window

end LetLang.Token
