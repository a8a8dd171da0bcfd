import LetLang.Proofs.Token.Longest
import Mathlib.Data.List.Chain

/-!
# The layout of a source

A source is the texts of its tokens in order, with gaps around them (`Cursor.laid_tokens`), and the
spans say where each one stands. So nothing is lost and nothing is made up (`ofText_covers`). Each token
is as long as it can be, and no other cut of the source is of such tokens (`ofText_longest`).
-/

namespace LetLang

/-- Of two ways to cut a text in two, the later cut goes through the second part of the other one. -/
theorem Text.append_eq_append_of_le {as bs cs ds : List Char} (same : as ++ bs = cs ++ ds)
    (le : byteLength as ≤ byteLength cs) : ∃ more, cs = as ++ more ∧ bs = more ++ ds := by
  rcases List.append_eq_append_iff.1 same with ⟨more, rfl, rfl⟩ | ⟨more, rfl, rfl⟩
  · exact ⟨more, rfl, rfl⟩
  · cases more with
    | nil => exact ⟨[], by simp, rfl⟩
    | cons c more =>
      have := c.utf8Size_pos
      simp only [byteLength_append, byteLength_cons] at le
      omega

theorem Text.isGap_iff {c : Char} : isGap c = true ↔ c ∈ [' ', '\t', '\n', '\r'] := by
  simp [isGap, or_assoc]

namespace Token

open Text (byteLength isGap)
open Lexeme (Longest longest_iff)

/-- The end token at a place. -/
def endAt (p : Nat) : Token := ⟨.eof, "", ⟨p, p⟩⟩

/-- The token of a text that starts at a place. -/
def placed (k : Kind) (text : List Char) (p : Nat) : Token :=
  ⟨k, String.ofList text, ⟨p, p + byteLength text⟩⟩

/-- The text from place `p` on is laid out as the tokens: each is the longest lexeme behind a gap, and the
end token stands behind the last gap. -/
inductive Laid : Nat → List Char → List Token → Prop where
  | ended {p gap} (blank : ∀ c ∈ gap, isGap c = true) : Laid p gap [endAt (p + byteLength gap)]
  | token {p gap k text rest ts} (blank : ∀ c ∈ gap, isGap c = true) (longest : Longest k text rest)
      (later : Laid (p + byteLength gap + byteLength text) rest ts) :
      Laid p (gap ++ text ++ rest) (placed k text (p + byteLength gap) :: ts)

/-! ### One token -/

namespace Cursor

variable {c : Cursor} {gap rest text : List Char} {k : Kind} {n : Nat}

theorem skipGap_of_gap (h : c.rest = gap ++ rest) (blank : ∀ x ∈ gap, isGap x = true)
    (solid : ∀ x ∈ rest.head?, isGap x = false) :
    c.skipGap.offset = c.offset + byteLength gap ∧ c.skipGap.rest = rest := by
  have run := Text.takeWhile_run blank solid
  refine ⟨?_, ?_⟩
  · show c.offset + byteLength (c.rest.take _) = _
    rw [h, run, List.take_left]
  · show c.rest.drop _ = rest
    rw [h, run, List.drop_left]

theorem next_of_gap (h : ∀ x ∈ c.rest, isGap x = true) : c.next.1 = endAt (c.offset + byteLength c.rest) := by
  obtain ⟨place, spent⟩ := skipGap_of_gap (List.append_nil c.rest).symm h (by simp)
  unfold next readToken
  rw [spent, place]
  rfl

theorem next_of_scan? (h : c.rest = gap ++ rest) (blank : ∀ x ∈ gap, isGap x = true)
    (solid : ∀ x ∈ rest.head?, isGap x = false) (found : Lexeme.scan? rest = some (k, n)) :
    c.next.1 = placed k (rest.take n) (c.offset + byteLength gap) ∧
      c.next.2.offset = c.offset + byteLength gap + byteLength (rest.take n) ∧
      c.next.2.rest = rest.drop n := by
  obtain ⟨place, behind⟩ := skipGap_of_gap h blank solid
  unfold next readToken
  rw [behind, found]
  refine ⟨?_, ?_, ?_⟩
  · simp only [skip, behind, place, placed]
  · simp only [skip, behind, place]
  · simp only [skip, behind]

theorem next_of_gap_lexeme (h : c.rest = gap ++ text ++ rest) (blank : ∀ x ∈ gap, isGap x = true)
    (lexeme : Lexeme k text) (clear : ∀ x ∈ rest.head?, k.absorbs x = false) :
    c.next.1 = placed k text (c.offset + byteLength gap) ∧
      c.next.2.offset = c.offset + byteLength gap + byteLength text ∧ c.next.2.rest = rest := by
  have solid : ∀ x ∈ (text ++ rest).head?, isGap x = false := by
    obtain ⟨y, ys, rfl⟩ := List.exists_cons_of_ne_nil lexeme.ne_nil
    rintro x ⟨⟩
    exact lexeme.head_not_gap
  rw [List.append_assoc] at h
  have read := next_of_scan? h blank solid (Lexeme.scan?_lexeme lexeme clear)
  rwa [List.take_left, List.drop_left] at read

theorem next_of_lexeme (h : c.rest = text ++ rest) (lexeme : Lexeme k text)
    (clear : ∀ x ∈ rest.head?, k.absorbs x = false) :
    c.next.1 = placed k text c.offset ∧ c.next.2.rest = rest := by
  have alone : c.rest = [] ++ text ++ rest := h
  obtain ⟨shown, -, behind⟩ := next_of_gap_lexeme alone (by simp) lexeme clear
  exact ⟨shown, behind⟩

theorem gaps_of_eof (h : c.next.1.kind = .eof) : ∀ x ∈ c.rest, isGap x = true := by
  have spent : c.skipGap.rest = [] := (readToken_eof_iff _).1 h
  rwa [skipGap_rest, List.dropWhile_eq_nil_iff] at spent

/-- A token is read behind a gap, as the longest lexeme there. -/
theorem exists_longest (more : c.next.1.kind ≠ .eof) :
    ∃ gap k text rest, c.rest = gap ++ text ++ rest ∧ (∀ x ∈ gap, isGap x = true) ∧
      Longest k text rest ∧ c.next.1 = placed k text (c.offset + byteLength gap) ∧
      c.next.2.offset = c.offset + byteLength gap + byteLength text ∧ c.next.2.rest = rest := by
  have shape := (List.takeWhile_append_dropWhile (p := isGap) (l := c.rest)).symm
  have blank : ∀ x ∈ c.rest.takeWhile isGap, isGap x = true := fun x => List.mem_takeWhile_imp
  generalize c.rest.takeWhile isGap = gap at shape blank
  have solid : ∀ x ∈ (c.rest.dropWhile isGap).head?, isGap x = false := by
    intro x first
    have stops := List.head?_dropWhile_not isGap c.rest
    rw [first] at stops
    exact stops
  rw [← skipGap_rest] at shape solid
  cases found : Lexeme.scan? c.skipGap.rest with
  | none => exact absurd ((readToken_eof_iff _).2 ((Lexeme.scan?_eq_none_iff _).1 found)) more
  | some lexeme =>
    obtain ⟨k, n⟩ := lexeme
    obtain ⟨shown, place, behind⟩ := next_of_scan? shape blank solid found
    refine ⟨gap, k, c.skipGap.rest.take n, c.skipGap.rest.drop n, ?_, blank,
      longest_iff.2 ⟨Lexeme.lexeme_of_scan? found solid, Lexeme.clear_of_scan? found⟩, shown, place, behind⟩
    rwa [List.append_assoc, List.take_append_drop]

theorem skip_skip (c : Cursor) (m n : Nat) : (c.skip m).skip n = c.skip (m + n) := by
  simp only [skip, List.take_add, List.drop_drop, Text.byteLength_append, Nat.add_assoc]

/-- Moving over gaps does not change the token that is read next. -/
theorem next_skip (h : c.rest = gap ++ rest) (blank : ∀ x ∈ gap, isGap x = true) :
    (c.skip gap.length).next = c.next := by
  have behind : (c.skip gap.length).rest = rest := by
    show c.rest.drop _ = rest
    rw [h, List.drop_left]
  have same : (c.skip gap.length).skipGap = c.skipGap := by
    unfold skipGap
    rw [behind, skip_skip, h, List.takeWhile_append_of_pos blank, List.length_append]
  unfold next
  rw [same]

theorem laid_tokens (c : Cursor) : Laid c.offset c.rest c.tokens := by
  fun_induction tokens c with
  | case1 c last =>
    have blank := gaps_of_eof last
    rw [next_of_gap blank]
    exact .ended blank
  | case2 c more ih =>
    obtain ⟨gap, k, text, rest, shape, blank, longest, shown, place, behind⟩ := exists_longest more
    rw [place, behind] at ih
    rw [shape, shown]
    exact .token blank longest ih

end Cursor

theorem laid_ofText (source : String) : Laid 0 source.toList (ofText source) :=
  (Cursor.ofText source).laid_tokens

/-! ### What a layout says -/

namespace Laid

variable {p : Nat} {cs text rest before after : List Char} {c : Char} {ts : List Token} {t : Token} {k : Kind}

theorem nil (p : Nat) : Laid p [] [endAt p] :=
  have blank : ∀ c ∈ ([] : List Char), isGap c = true := by simp
  .ended blank

theorem lexeme (lexeme : Lexeme k text) (clear : ∀ c ∈ rest.head?, k.absorbs c = false)
    (later : Laid (p + byteLength text) rest ts) : Laid p (text ++ rest) (placed k text p :: ts) :=
  have blank : ∀ c ∈ ([] : List Char), isGap c = true := by simp
  .token blank (longest_iff.2 ⟨lexeme, clear⟩) later

theorem ends (h : Laid p cs ts) :
    ∃ front, ts = front ++ [endAt (p + byteLength cs)] ∧ ∀ t ∈ front, t.kind ≠ .eof := by
  induction h with
  | ended => exact ⟨[], rfl, by simp⟩
  | @token p gap k text rest ts blank longest later ih =>
    obtain ⟨front, rfl, others⟩ := ih
    refine ⟨placed k text (p + byteLength gap) :: front, ?_,
      List.forall_mem_cons.2 ⟨longest.lexeme.kind_ne_eof, others⟩⟩
    simp only [Text.byteLength_append, List.cons_append, Nat.add_assoc]

theorem longest (h : Laid p cs ts) (member : t ∈ ts) (inside : t.kind ≠ .eof) :
    ∃ before rest, cs = before ++ t.text.toList ++ rest ∧ Longest t.kind t.text.toList rest ∧
      t.span = ⟨p + byteLength before, p + byteLength before + byteLength t.text.toList⟩ := by
  induction h with
  | ended =>
    obtain rfl := List.mem_singleton.1 member
    exact absurd rfl inside
  | @token p gap k text rest ts blank longest later ih =>
    rcases List.mem_cons.1 member with rfl | further
    · simp only [placed, String.toList_ofList]
      exact ⟨gap, rest, rfl, longest, rfl⟩
    · obtain ⟨before, after, rfl, inner, place⟩ := ih further
      refine ⟨gap ++ text ++ before, after, by simp only [List.append_assoc], inner, ?_⟩
      rw [place]
      simp only [Text.byteLength_append, Nat.add_assoc]

theorem cut (h : Laid p cs ts) (member : t ∈ ts) (inside : t.kind ≠ .eof) :
    Lexeme t.kind t.text.toList ∧ ∃ before after, cs = before ++ t.text.toList ++ after ∧
      t.span = ⟨p + byteLength before, p + byteLength before + byteLength t.text.toList⟩ := by
  obtain ⟨before, after, whole, longest, place⟩ := h.longest member inside
  exact ⟨longest.lexeme, before, after, whole, place⟩

theorem start_ge (h : Laid p cs ts) (member : t ∈ ts) : p ≤ t.span.start := by
  induction h with
  | ended =>
    obtain rfl := List.mem_singleton.1 member
    exact Nat.le_add_right ..
  | token blank longest later ih =>
    rcases List.mem_cons.1 member with rfl | further
    · exact Nat.le_add_right ..
    · have := ih further
      omega

theorem ordered (h : Laid p cs ts) : ts.Pairwise fun t u => t.span.stop ≤ u.span.start := by
  induction h with
  | ended => exact List.pairwise_singleton ..
  | token blank longest later ih => exact .cons (fun u member => later.start_ge member) ih

/-- A span belongs to one token. -/
theorem spans_nodup (h : Laid p cs ts) : (ts.map span).Nodup := by
  induction h with
  | ended => exact List.pairwise_singleton ..
  | @token p gap k text rest ts blank longest later ih =>
    refine List.nodup_cons.2 ⟨fun again => ?_, ih⟩
    obtain ⟨t, member, same⟩ := List.mem_map.1 again
    have start := later.start_ge member
    have pos := List.length_pos_iff.2 longest.lexeme.ne_nil
    have bytes := Text.length_le_byteLength text
    simp only [same, placed] at start
    omega

/-- A character outside all the tokens is one of a gap. -/
theorem gap_of_outside (h : Laid p cs ts) (split : cs = before ++ c :: after)
    (outside : ∀ t ∈ ts, p + byteLength before < t.span.start ∨ t.span.stop ≤ p + byteLength before) :
    isGap c = true := by
  induction h generalizing before with
  | ended blank => exact blank c (by rw [split]; simp)
  | @token p gap k text rest ts blank longest later ih =>
    have beside := outside (placed k text (p + byteLength gap)) List.mem_cons_self
    have others := fun t member => outside t (List.mem_cons_of_mem _ member)
    simp only [placed] at beside
    rcases beside with early | late
    · rw [List.append_assoc] at split
      obtain ⟨more, rfl, same⟩ := Text.append_eq_append_of_le split.symm (by omega)
      cases more with
      | nil => simp at early
      | cons x more =>
        obtain ⟨rfl, -⟩ := List.cons.inj same
        exact blank c (by simp)
    · have size := Text.byteLength_append gap text
      obtain ⟨more, rfl, same⟩ := Text.append_eq_append_of_le split (by omega)
      refine ih same fun t member => ?_
      have := others t member
      simp only [Text.byteLength_append] at this
      omega

theorem length_le (h : Laid p cs ts) : ts.length ≤ byteLength cs + 1 := by
  induction h with
  | ended => exact Nat.le_add_left ..
  | @token p gap k text rest ts blank longest later ih =>
    have pos := List.length_pos_iff.2 longest.lexeme.ne_nil
    have bytes := Text.length_le_byteLength text
    simp only [List.length_cons, Text.byteLength_append]
    omega

/-- A text is laid out in one way. -/
theorem tokens_eq {c : Cursor} (h : Laid p cs ts) (place : c.offset = p) (rest : c.rest = cs) :
    c.tokens = ts := by
  induction h generalizing c with
  | @ended p gap blank =>
    subst place rest
    have shown := Cursor.next_of_gap blank
    rw [Cursor.tokens, if_pos (by rw [shown]; rfl), shown]
  | @token p gap k text rest' ts blank longest later ih =>
    subst place
    obtain ⟨shown, place, behind⟩ := Cursor.next_of_gap_lexeme rest blank longest.lexeme longest.clear
    rw [Cursor.tokens, if_neg (by rw [shown]; exact longest.lexeme.kind_ne_eof), shown, ih place behind]

theorem eq_ofText {source : String} (h : Laid 0 source.toList ts) : ts = ofText source :=
  (h.tokens_eq rfl rfl).symm

/-- The text is the tokens' texts with gaps in front of them and behind the last one. -/
theorem recovers (h : Laid p cs ts) :
    ∃ gaps : List (List Char), gaps.length = ts.length ∧ (∀ gap ∈ gaps, ∀ x ∈ gap, isGap x = true) ∧
      cs = (List.zipWith (fun gap t => gap ++ t.text.toList) gaps ts).flatten := by
  induction h with
  | @ended p gap blank => exact ⟨[gap], rfl, by simpa using blank, by simp [endAt]⟩
  | @token p gap k text rest ts blank longest later ih =>
    obtain ⟨gaps, count, blanks, whole⟩ := ih
    refine ⟨gap :: gaps, congrArg (· + 1) count, List.forall_mem_cons.2 ⟨blank, blanks⟩, ?_⟩
    rw [List.zipWith_cons_cons, List.flatten_cons, ← whole, placed, String.toList_ofList]

end Laid

theorem eq_endAt_of_eof {source : String} {t : Token} (member : t ∈ ofText source) (last : t.kind = .eof) :
    t = endAt (byteLength source.toList) := by
  obtain ⟨front, whole, others⟩ := (laid_ofText source).ends
  rw [whole, Nat.zero_add] at member
  exact List.mem_singleton.1 ((List.mem_append.1 member).resolve_left fun earlier => others t earlier last)

/-- A source is its tokens and the gaps around them: every token but the last one is cut out of the
source by its span, the spans do not overlap, and nothing but gaps stands outside them. -/
theorem ofText_covers (source : String) :
    ∃ ts, ofText source = ts ++ [⟨.eof, "", ⟨byteLength source.toList, byteLength source.toList⟩⟩] ∧
      (∀ t ∈ ts, t.kind ≠ .eof ∧ t.span.start < t.span.stop ∧
        Text.slice? t.span.start t.span.stop source.toList = some t.text.toList ∧
        ∃ before after, source.toList = before ++ t.text.toList ++ after ∧
          t.span = ⟨byteLength before, byteLength (before ++ t.text.toList)⟩) ∧
      (ofText source).IsChain (fun t u => t.span.stop ≤ u.span.start) ∧
      (∀ before c after, source.toList = before ++ c :: after →
        (∀ t ∈ ts, byteLength before < t.span.start ∨ t.span.stop ≤ byteLength before) →
        c ∈ [' ', '\t', '\n', '\r']) ∧
      (∃ gaps : List (List Char), gaps.length = (ofText source).length ∧
        (∀ gap ∈ gaps, ∀ c ∈ gap, c ∈ [' ', '\t', '\n', '\r']) ∧
        source.toList = (List.zipWith (fun gap t => gap ++ t.text.toList) gaps (ofText source)).flatten) ∧
      (ofText source).length ≤ byteLength source.toList + 1 := by
  have laid := laid_ofText source
  obtain ⟨ts, shape, inside⟩ := laid.ends
  rw [Nat.zero_add] at shape
  refine ⟨ts, shape, ?_, laid.ordered.isChain, ?_, ?_, laid.length_le⟩
  · intro t member
    have kind := inside t member
    obtain ⟨lexeme, before, after, whole, place⟩ := laid.cut (by simp [shape, member]) kind
    rw [Nat.zero_add] at place
    have pos := List.length_pos_iff.2 lexeme.ne_nil
    have bytes := Text.length_le_byteLength t.text.toList
    refine ⟨kind, ?_, ?_, before, after, whole, by rw [place, Text.byteLength_append]⟩
    · rw [place]
      show byteLength before < byteLength before + _
      omega
    · rw [place, whole]
      exact Text.slice?_append ..
  · intro before c after split outside
    refine Text.isGap_iff.1 (laid.gap_of_outside split ?_)
    rw [Nat.zero_add, shape]
    have last : byteLength before < byteLength source.toList := by
      have := c.utf8Size_pos
      rw [split, Text.byteLength_append, Text.byteLength_cons]
      omega
    exact List.forall_mem_append.2 ⟨outside, List.forall_mem_singleton.2 (.inl last)⟩
  · obtain ⟨gaps, count, blanks, whole⟩ := laid.recovers
    exact ⟨gaps, count, fun gap member c inner => Text.isGap_iff.1 (blanks gap member c inner), whole⟩

/-- Each token of a source is the longest lexeme at its place and has the kind of that lexeme, and no
other cut of the source has only such tokens. -/
theorem ofText_longest (source : String) :
    (∀ t ∈ ofText source, t.kind ≠ .eof → ∃ text rest,
      Text.slice? t.span.start t.span.stop source.toList = some text ∧ t.text = String.ofList text ∧
      Text.dropBytes? t.span.start source.toList = some (text ++ rest) ∧ Longest t.kind text rest) ∧
    ∀ ts, Laid 0 source.toList ts ↔ ts = ofText source := by
  refine ⟨fun t member inside => ?_, fun ts => ⟨Laid.eq_ofText, ?_⟩⟩
  · obtain ⟨before, rest, whole, longest, place⟩ := (laid_ofText source).longest member inside
    refine ⟨t.text.toList, rest, ?_, String.ofList_toList.symm, ?_, longest⟩
    · rw [place, Nat.zero_add, whole]
      exact Text.slice?_append ..
    · rw [place, Nat.zero_add, whole, List.append_assoc]
      exact Text.dropBytes?_byteLength ..
  · rintro rfl
    exact laid_ofText source

example : (ofText "iff=1x===!é").map Token.text = ["iff", "=", "1", "x", "==", "=", "!", "é", ""] := by
  decide +kernel

end Token

end LetLang
