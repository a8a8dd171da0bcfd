import LetLang.Proofs.Text.Line
import LetLang.Proofs.Token.Lexeme
import Mathlib.Data.List.DropRight
import Mathlib.Order.Monotone.Basic

/-!
# Positions and their lines

The place of a position is found by a walk over the lines. It is the one that the bytes in front of the
position tell (`ofPosition_counts`): so many line feeds, and so many bytes behind the last of them. The
lines share out the positions, and a later position is in no earlier line. All positions in a line show one
text, but for a carriage return at the end of the source (`text_eq_iff`).
-/

namespace LetLang.Text

/-- The bytes of a text in UTF-8. -/
def utf8 (cs : List Char) : List UInt8 := cs.flatMap String.utf8EncodeChar

/-- The line feeds in the first `p` bytes. -/
def feedsBefore (cs : List Char) (p : Nat) : Nat := ((utf8 cs).take p).count 10

/-- The byte behind the last line feed in the first `p` bytes, or else the first byte of the text. -/
def lineStart (cs : List Char) (p : Nat) : Nat := (((utf8 cs).take p).rdropWhile (· ≠ 10)).length

/-- The position is in the `n`-th line, counted from 1. The last line has no end. -/
structure OnLine (cs : List Char) (p n : Nat) : Prop where
  pos : 1 ≤ n
  le : n ≤ cs.count '\n' + 1
  starts : byteLength ((lines cs).take (n - 1)).flatten ≤ p
  stops : n ≤ cs.count '\n' → p < byteLength ((lines cs).take n).flatten

variable {cs front line rest after source : List Char} {c : Char} {p m n : Nat}

/-! ### Bytes -/

theorem utf8_append (cs ds : List Char) : utf8 (cs ++ ds) = utf8 cs ++ utf8 ds := List.flatMap_append

theorem length_utf8 (cs : List Char) : (utf8 cs).length = byteLength cs := by
  induction cs with
  | nil => rfl
  | cons c cs ih =>
    rw [utf8, List.flatMap_cons, List.length_append, String.length_utf8EncodeChar, byteLength_cons, ← ih, utf8]

/-- No other character has the byte of the line feed in it. -/
theorem mem_utf8EncodeChar : 10 ∈ String.utf8EncodeChar c ↔ c = '\n' := by
  have code : c = '\n' ↔ c.val.toNat = 10 := by
    rw [Char.ext_iff, ← UInt32.toNat_inj]
    rfl
  have ten : (10 : UInt8).toNat = 10 := rfl
  rw [code]
  unfold String.utf8EncodeChar
  generalize c.val.toNat = v
  dsimp only
  -- In a longer form, every byte is 128 or more.
  split
  · simp only [List.mem_singleton, ← UInt8.toNat_inj, UInt8.toNat_ofNat', ten]
    omega
  · repeat' split
    all_goals
      simp only [List.mem_cons, List.not_mem_nil, or_false, ← UInt8.toNat_inj, UInt8.toNat_ofNat', ten]
      omega

theorem mem_utf8 : 10 ∈ utf8 cs ↔ '\n' ∈ cs := by
  simp [utf8, mem_utf8EncodeChar]

theorem count_utf8 (cs : List Char) : (utf8 cs).count 10 = cs.count '\n' := by
  induction cs with
  | nil => rfl
  | cons c cs ih =>
    rw [utf8, List.flatMap_cons, List.count_append, ← utf8, ih, List.count_cons, Nat.add_comm]
    by_cases feed : c = '\n'
    · subst feed
      rfl
    · rw [List.count_eq_zero_of_not_mem (mt mem_utf8EncodeChar.1 feed), if_neg (by simpa using feed)]

theorem take_lines (h : Complete front) (rest : List Char) :
    ((lines (front ++ rest)).take (front.count '\n')).flatten = front := by
  rw [lines_append h, List.take_left' (length_lines h), flatten_lines]

theorem Complete.eq_nil_or_concat (h : Complete front) : front = [] ∨ ∃ before, front = before ++ ['\n'] := by
  induction h with
  | nil => exact .inl rfl
  | @line line rest plain later ih =>
    refine .inr ?_
    rcases ih with rfl | ⟨before, rfl⟩
    · exact ⟨line, rfl⟩
    · exact ⟨line ++ '\n' :: before, by simp⟩

theorem Complete.rdropWhile_utf8 (h : Complete front) : (utf8 front).rdropWhile (· ≠ 10) = utf8 front := by
  rcases h.eq_nil_or_concat with rfl | ⟨before, rfl⟩
  · rfl
  · rw [utf8_append]
    exact List.rdropWhile_concat_neg _ _ _ (by decide)

/-! ### The line of a position -/

/-- The cut of a text at the line of a position: the lines in front, this line, and what follows from its
line feed on. A position past the end is in the last line. -/
structure LineAt (source : List Char) (p : Nat) (front line rest : List Char) : Prop where
  whole : source = front ++ (line ++ rest)
  complete : Complete front
  plain : '\n' ∉ line
  stop : ∀ c ∈ rest.head?, c = '\n'
  starts : byteLength front ≤ p
  stops : rest ≠ [] → p ≤ byteLength front + byteLength line

theorem exists_cut (cs : List Char) (p : Nat) : ∃ before after, cs = before ++ after ∧ byteLength before ≤ p ∧
    ∀ c ∈ after.head?, p < byteLength before + c.utf8Size := by
  induction cs generalizing p with
  | nil => exact ⟨[], [], rfl, Nat.zero_le p, by simp⟩
  | cons c cs ih =>
    by_cases inside : p < c.utf8Size
    · exact ⟨[], c :: cs, rfl, Nat.zero_le p, by simpa using inside⟩
    · obtain ⟨before, after, rfl, low, high⟩ := ih (p - c.utf8Size)
      refine ⟨c :: before, after, rfl, ?_, fun d first => ?_⟩
      · rw [byteLength_cons]
        omega
      · have := high d first
        rw [byteLength_cons]
        omega

/-- The line that begins in front of a position goes on up to the next line feed. -/
theorem lineAt_of_cut (complete : Complete front) (plain : '\n' ∉ line)
    (low : byteLength front + byteLength line ≤ p)
    (high : ∀ c ∈ after.head?, p < byteLength front + byteLength line + c.utf8Size) :
    LineAt (front ++ line ++ after) p front (line ++ after.takeWhile (· ≠ '\n')) (after.dropWhile (· ≠ '\n')) := by
  constructor
  case whole => simp only [List.append_assoc, List.takeWhile_append_dropWhile]
  case complete => exact complete
  case plain =>
    rw [List.mem_append, not_or]
    exact ⟨plain, fun member => by simpa using List.mem_takeWhile_imp member⟩
  case stop => exact fun c first => by simpa using head?_dropWhile _ after c first
  case starts => omega
  case stops =>
    intro more
    cases after with
    | nil => exact absurd rfl more
    | cons c after =>
      have near := high c rfl
      rw [byteLength_append]
      by_cases feed : c = '\n'
      · subst feed
        have size : '\n'.utf8Size = 1 := rfl
        omega
      · rw [List.takeWhile_cons_of_pos (by simpa using feed), byteLength_cons]
        omega

theorem exists_lineAt (source : List Char) (p : Nat) : ∃ front line rest, LineAt source p front line rest := by
  obtain ⟨before, after, rfl, low, high⟩ := exists_cut source p
  obtain ⟨front, line, rfl, complete, plain⟩ := exists_complete before
  rw [byteLength_append] at low high
  exact ⟨front, _, _, lineAt_of_cut complete plain low high⟩

namespace LineAt

theorem size_eq (h : LineAt source p front line rest) :
    byteLength source = byteLength front + byteLength line + byteLength rest := by
  rw [h.whole, byteLength_append, byteLength_append, Nat.add_assoc]

theorem feed_of_ne_nil (h : LineAt source p front line rest) (more : rest ≠ []) : ∃ later, rest = '\n' :: later := by
  obtain ⟨c, later, rfl⟩ := List.exists_cons_of_ne_nil more
  exact ⟨later, by rw [h.stop c rfl]⟩

theorem lt_size_of_ne_nil (h : LineAt source p front line rest) (more : rest ≠ []) : p < byteLength source := by
  have low := h.stops more
  obtain ⟨later, rfl⟩ := h.feed_of_ne_nil more
  have size : '\n'.utf8Size = 1 := rfl
  rw [h.size_eq, byteLength_cons]
  omega

theorem ofPosition_eq (h : LineAt source p front line rest) :
    Location.ofPosition source p =
      if p < byteLength source then ⟨1 + front.count '\n', trimEnd isLineEnd line, p - byteLength front⟩
      else ⟨1 + front.count '\n', line, byteLength line⟩ := by
  have moved := Location.ofPosition_append h.complete (line ++ rest) (p - byteLength front)
  rw [Nat.add_sub_cancel' h.starts, ← h.whole] at moved
  have size := h.size_eq
  have low := h.starts
  by_cases inside : p < byteLength source
  -- In the source, the position is in the line itself or on its line feed.
  · have near : p - byteLength front < byteLength (line ++ rest.take 1) := by
      rw [byteLength_append]
      by_cases last : rest = []
      · subst last
        rw [byteLength_nil] at size
        rw [List.take_nil, byteLength_nil]
        omega
      · have high := h.stops last
        obtain ⟨later, rfl⟩ := h.feed_of_ne_nil last
        have one : byteLength (('\n' :: later).take 1) = 1 := rfl
        omega
    rw [moved, if_pos inside, Location.ofPosition_of_lt h.plain h.stop near]
  · have last : rest = [] := by
      by_contra more
      exact inside (h.lt_size_of_ne_nil more)
    subst last
    rw [byteLength_nil] at size
    rw [moved, if_neg inside, List.append_nil, Location.ofPosition_of_le h.plain (by omega)]

theorem take_utf8 (h : LineAt source p front line rest) :
    (utf8 source).take p = utf8 front ++ (utf8 line).take (p - byteLength front) := by
  rw [h.whole, utf8_append, List.take_append, length_utf8,
    List.take_of_length_le (by rw [length_utf8]; exact h.starts), utf8_append]
  by_cases last : rest = []
  · subst last
    rw [show utf8 [] = [] from rfl, List.append_nil]
  · have high := h.stops last
    rw [List.take_append_of_le_length (by rw [length_utf8]; omega)]

theorem not_mem_take (h : LineAt source p front line rest) (n : Nat) : 10 ∉ (utf8 line).take n := fun member =>
  h.plain (mem_utf8.1 (List.mem_of_mem_take member))

theorem feedsBefore_eq (h : LineAt source p front line rest) : feedsBefore source p = front.count '\n' := by
  rw [feedsBefore, h.take_utf8, List.count_append, count_utf8, List.count_eq_zero_of_not_mem (h.not_mem_take _),
    Nat.add_zero]

theorem line_eq (h : LineAt source p front line rest) :
    (Location.ofPosition source p).line = 1 + front.count '\n' := by
  rw [h.ofPosition_eq]
  split <;> rfl

theorem lineStart_eq (h : LineAt source p front line rest) : lineStart source p = byteLength front := by
  have part : ∀ b ∈ ((utf8 line).take (p - byteLength front)).reverse, decide (b ≠ 10) = true := by
    intro b member
    refine decide_eq_true ?_
    rintro rfl
    exact h.not_mem_take _ (List.mem_reverse.1 member)
  -- What is dropped at the end is the part of the line. The complete lines stay.
  have stays := h.complete.rdropWhile_utf8
  unfold lineStart
  unfold List.rdropWhile at stays ⊢
  rw [h.take_utf8, List.reverse_append, List.dropWhile_append_of_pos part, stays, length_utf8]

theorem dropBytes?_eq (h : LineAt source p front line rest) :
    dropBytes? (lineStart source p) source = some (line ++ rest) := by
  rw [h.lineStart_eq, h.whole, dropBytes?_byteLength]

theorem takeWhile_eq (h : LineAt source p front line rest) : (line ++ rest).takeWhile (· ≠ '\n') = line := by
  refine takeWhile_run (fun c member => decide_eq_true ?_) fun c first => ?_
  · rintro rfl
    exact h.plain member
  · simpa using h.stop c first

theorem take_lines_succ (h : LineAt source p front line rest) (more : rest ≠ []) :
    ((lines source).take (1 + front.count '\n')).flatten = front ++ (line ++ ['\n']) := by
  obtain ⟨later, rfl⟩ := h.feed_of_ne_nil more
  have split : lines source = (lines front ++ [line ++ ['\n']]) ++ lines later := by
    rw [h.whole, lines_append h.complete, lines_line h.plain, List.append_assoc, List.singleton_append]
  have count : (lines front ++ [line ++ ['\n']]).length = 1 + front.count '\n' := by
    rw [List.length_append, length_lines h.complete, List.length_singleton, Nat.add_comm]
  rw [split, List.take_left' count, List.flatten_append, flatten_lines, List.flatten_singleton]

theorem count_eq (h : LineAt source p front line rest) : source.count '\n' = front.count '\n' + rest.count '\n' := by
  rw [h.whole, List.count_append, List.count_append, List.count_eq_zero_of_not_mem h.plain, Nat.zero_add]

theorem onLine (h : LineAt source p front line rest) : OnLine source p (1 + front.count '\n') := by
  constructor
  case pos => exact Nat.le_add_right 1 _
  case le =>
    rw [h.count_eq]
    omega
  case starts =>
    rw [Nat.add_sub_cancel_left, h.whole, take_lines h.complete]
    exact h.starts
  case stops =>
    intro further
    have more : rest ≠ [] := by
      rintro rfl
      rw [h.count_eq, List.count_nil] at further
      omega
    have high := h.stops more
    have size : byteLength ['\n'] = 1 := rfl
    rw [h.take_lines_succ more, byteLength_append, byteLength_append]
    omega

end LineAt

/-- A cut at the end of a text or in front of the line end, which is all the carriage returns in front of
the next line feed or of the end of the text. -/
def Shown (before after : List Char) : Prop :=
  after = [] ∨ (∃ c ∈ after.takeWhile (· ≠ '\n'), c ≠ '\r') ∨ before.getLast? ≠ some '\r'

theorem shown_of_solid {before : List Char} (solid : ∀ c ∈ cs, isGap c = false) (nonempty : cs ≠ [])
    (rest : List Char) : Shown before (cs ++ rest) := by
  obtain ⟨c, cs, rfl⟩ := List.exists_cons_of_ne_nil nonempty
  have gapless : isGap c = false := solid c List.mem_cons_self
  have feed : c ≠ '\n' := by
    rintro rfl
    contradiction
  refine .inr (.inl ⟨c, ?_, ?_⟩)
  · rw [List.cons_append, List.takeWhile_cons_of_pos (by simpa using feed)]
    exact List.mem_cons_self
  · rintro rfl
    contradiction

theorem not_lineEnd (feed : c ≠ '\n') (carriage : c ≠ '\r') : isLineEnd c = false := by
  simp [isLineEnd, feed, carriage]

theorem Shown.trimEnd_eq (h : Shown (front ++ line) after) (plain : '\n' ∉ line) (more : after ≠ []) :
    trimEnd isLineEnd (line ++ after.takeWhile (· ≠ '\n')) =
      line ++ trimEnd isLineEnd (after.takeWhile (· ≠ '\n')) := by
  rcases h with none | ⟨c, member, other⟩ | last
  · exact absurd none more
  · exact trimEnd_append_of_mem member (not_lineEnd (by simpa using List.mem_takeWhile_imp member) other) line
  · refine trimEnd_append (fun c last' => not_lineEnd ?_ ?_) _
    · rintro rfl
      exact plain (List.mem_of_getLast? last')
    · rintro rfl
      exact last (by rw [List.getLast?_append, show line.getLast? = some '\r' from last', Option.some_or])

theorem lineAt_cut (complete : Complete front) (plain : '\n' ∉ line) (after : List Char) :
    LineAt (front ++ line ++ after) (byteLength (front ++ line)) front (line ++ after.takeWhile (· ≠ '\n'))
      (after.dropWhile (· ≠ '\n')) :=
  lineAt_of_cut complete plain (Nat.le_of_eq (byteLength_append ..).symm) fun c _ => by
    rw [byteLength_append]
    exact Nat.lt_add_of_pos_right c.utf8Size_pos

theorem byteLength_lt_append (more : after ≠ []) : byteLength front < byteLength (front ++ after) := by
  have pos := List.length_pos_iff.2 more
  have bytes := length_le_byteLength after
  rw [byteLength_append]
  omega

/-- In front of a line end, the text of the line has all that stands before the cut. -/
theorem ofPosition_of_shown (complete : Complete front) (plain : '\n' ∉ line) (shown : Shown (front ++ line) after) :
    Location.ofPosition (front ++ line ++ after) (byteLength (front ++ line)) =
      ⟨1 + front.count '\n', line ++ trimEnd isLineEnd (after.takeWhile (· ≠ '\n')), byteLength line⟩ := by
  have offset : byteLength (front ++ line) - byteLength front = byteLength line := by
    rw [byteLength_append, Nat.add_sub_cancel_left]
  rw [(lineAt_cut complete plain after).ofPosition_eq]
  by_cases last : after = []
  · subst last
    rw [if_neg (by simp), List.takeWhile_nil, trimEnd, List.reverse_nil, List.dropWhile_nil, List.reverse_nil]
    simp only [List.append_nil]
  · rw [if_pos (byteLength_lt_append last), shown.trimEnd_eq plain last, offset]

/-! ### Lines in order -/

theorem byteLength_take_lines_le (le : m ≤ n) :
    byteLength ((lines cs).take m).flatten ≤ byteLength ((lines cs).take n).flatten := by
  obtain ⟨more, same⟩ := List.take_prefix_take_left (l := lines cs) le
  rw [← same, List.flatten_append, byteLength_append]
  exact Nat.le_add_right ..

theorem OnLine.not_lt (h : OnLine cs p m) (h' : OnLine cs p n) : ¬ m < n := by
  intro before
  have bound := h'.le
  have last := h.stops (by omega)
  have next := h'.starts
  have between : byteLength ((lines cs).take m).flatten ≤ byteLength ((lines cs).take (n - 1)).flatten :=
    byteLength_take_lines_le (by omega)
  omega

/-- The line of a position is the number that its place tells. -/
theorem onLine_iff (source : List Char) (p n : Nat) : OnLine source p n ↔ n = (Location.ofPosition source p).line := by
  obtain ⟨front, line, rest, cut⟩ := exists_lineAt source p
  rw [cut.line_eq]
  constructor
  · intro on
    exact Nat.le_antisymm (Nat.not_lt.1 (cut.onLine.not_lt on)) (Nat.not_lt.1 (on.not_lt cut.onLine))
  · rintro rfl
    exact cut.onLine

theorem line_ofPosition (source : List Char) (p : Nat) :
    (Location.ofPosition source p).line = 1 + feedsBefore source p := by
  obtain ⟨front, line, rest, cut⟩ := exists_lineAt source p
  rw [cut.line_eq, cut.feedsBefore_eq]

theorem monotone_line (source : List Char) : Monotone fun p => (Location.ofPosition source p).line := by
  intro p q le
  have more : feedsBefore source p ≤ feedsBefore source q := (List.take_prefix_take_left le).sublist.count_le 10
  simpa only [line_ofPosition] using Nat.add_le_add_left more 1

/-- A position is looked up as the bytes in front of it tell. The line is one more than the line feeds
there. In the source, its text is what stands from the byte behind the last of them up to the next line feed,
without the line ends there; past the end, it is all that stands behind the last line feed. So a later
position is in no earlier line, and each position is in one line. -/
theorem ofPosition_counts (source : List Char) :
    (∀ p, ∃ behind, dropBytes? (lineStart source p) source = some behind ∧
      Location.ofPosition source p =
        if p < byteLength source then
          ⟨1 + feedsBefore source p, trimEnd isLineEnd (behind.takeWhile (· ≠ '\n')), p - lineStart source p⟩
        else ⟨1 + source.count '\n', behind, byteLength behind⟩) ∧
    (Monotone fun p => (Location.ofPosition source p).line) ∧
    ∀ p n, OnLine source p n ↔ n = (Location.ofPosition source p).line := by
  refine ⟨fun p => ?_, monotone_line source, onLine_iff source⟩
  obtain ⟨front, line, rest, cut⟩ := exists_lineAt source p
  refine ⟨line ++ rest, cut.dropBytes?_eq, ?_⟩
  rw [cut.ofPosition_eq, cut.feedsBefore_eq, cut.takeWhile_eq, cut.lineStart_eq]
  by_cases inside : p < byteLength source
  · rw [if_pos inside, if_pos inside]
  · have last : rest = [] := by
      by_contra more
      exact inside (cut.lt_size_of_ne_nil more)
    subst last
    rw [if_neg inside, if_neg inside, cut.count_eq, List.count_nil, Nat.add_zero, List.append_nil]

example : (List.range 7).map (fun p => (Location.ofPosition "é\n\r\nx".toList p).line) = [1, 1, 1, 2, 2, 3, 3] := by
  decide +kernel

/-! ### The text of a line -/

theorem trimEnd_eq_self_iff {p : Char → Bool} : trimEnd p cs = cs ↔ ∀ c ∈ cs.getLast?, p c = false := by
  show cs.rdropWhile p = cs ↔ _
  rw [List.rdropWhile_eq_self_iff]
  constructor
  · intro stays c last
    obtain ⟨front, rfl⟩ := List.getLast?_eq_some_iff.1 last
    simpa using stays (by simp)
  · intro stays nonempty
    simpa using stays _ (List.getLast?_eq_some_getLast nonempty)

namespace LineAt

variable {front' line' rest' : List Char} {q : Nat}

theorem rest_eq_nil (h : LineAt source p front line rest) (past : ¬ p < byteLength source) : rest = [] := by
  by_contra more
  exact past (h.lt_size_of_ne_nil more)

/-- The number of a line tells where the line is. -/
theorem unique (h : LineAt source p front line rest) (h' : LineAt source q front' line' rest')
    (same : front.count '\n' = front'.count '\n') : front = front' ∧ line = line' ∧ rest = rest' := by
  have before : front = front' := by
    rw [← take_lines h.complete (line ++ rest), ← h.whole, same, h'.whole, take_lines h'.complete]
  have behind := h.whole.symm.trans h'.whole
  rw [before] at behind
  have behind := List.append_cancel_left behind
  have here : line = line' := by rw [← h.takeWhile_eq, ← h'.takeWhile_eq, behind]
  rw [here] at behind
  exact ⟨before, here, List.append_cancel_left behind⟩

theorem text_eq (h : LineAt source p front line rest) :
    (Location.ofPosition source p).text = if p < byteLength source then trimEnd isLineEnd line else line := by
  rw [h.ofPosition_eq]
  split <;> rfl

/-- Of a last line that is not empty, only a carriage return is trimmed. -/
theorem trimEnd_eq_iff (h : LineAt source p front line []) (inside : p < byteLength source) :
    trimEnd isLineEnd line = line ↔ source.getLast? ≠ some '\r' := by
  have nonempty : line ≠ [] := by
    rintro rfl
    have size := h.size_eq
    have low := h.starts
    simp only [byteLength_nil] at size
    omega
  have last : source.getLast? = line.getLast? := by
    rw [h.whole, List.append_nil, List.getLast?_append_of_ne_nil _ nonempty]
  rw [trimEnd_eq_self_iff, last]
  constructor
  · intro stays carriage
    exact absurd (stays '\r' carriage) (by decide)
  · intro other c shown
    refine not_lineEnd ?_ ?_
    · rintro rfl
      exact h.plain (List.mem_of_getLast? shown)
    · rintro rfl
      exact other shown

end LineAt

/-- Two positions in one line show the same text, if both are in the source or both past its end. If only one
of them is in the source, they do so unless the source ends with a carriage return. -/
theorem text_eq_iff (source : List Char) (p q : Nat)
    (same : (Location.ofPosition source p).line = (Location.ofPosition source q).line) :
    (Location.ofPosition source p).text = (Location.ofPosition source q).text ↔
      (p < byteLength source ↔ q < byteLength source) ∨ source.getLast? ≠ some '\r' := by
  obtain ⟨front, line, rest, cut⟩ := exists_lineAt source p
  obtain ⟨front', line', rest', cut'⟩ := exists_lineAt source q
  rw [cut.line_eq, cut'.line_eq] at same
  obtain ⟨rfl, rfl, rfl⟩ := cut.unique cut' (Nat.add_left_cancel same)
  rw [cut.text_eq, cut'.text_eq]
  by_cases first : p < byteLength source
  · rw [if_pos first]
    by_cases second : q < byteLength source
    · rw [if_pos second]
      exact iff_of_true rfl (.inl (iff_of_true first second))
    · obtain rfl := cut'.rest_eq_nil second
      rw [if_neg second, cut.trimEnd_eq_iff first]
      simp [first, second]
  · rw [if_neg first]
    by_cases second : q < byteLength source
    · obtain rfl := cut.rest_eq_nil first
      rw [if_pos second, eq_comm, cut'.trimEnd_eq_iff second]
      simp [first, second]
    · rw [if_neg second]
      exact iff_of_true rfl (.inl (iff_of_false first second))

/-- In the second line, the character in front of the carriage return and the end. -/
theorem text_eq_iff_carriage :
    (Location.ofPosition "\r\né\r".toList 2).line = (Location.ofPosition "\r\né\r".toList 5).line ∧
      ((Location.ofPosition "\r\né\r".toList 2).text = (Location.ofPosition "\r\né\r".toList 5).text ↔
        (2 < byteLength "\r\né\r".toList ↔ 5 < byteLength "\r\né\r".toList) ∨
          "\r\né\r".toList.getLast? ≠ some '\r') :=
  have same : (Location.ofPosition "\r\né\r".toList 2).line = (Location.ofPosition "\r\né\r".toList 5).line := by
    decide +kernel
  ⟨same, text_eq_iff _ 2 5 same⟩

/-- A carriage return at the end is shown past it and not in front of it. -/
theorem text_of_carriage :
    Location.ofPosition "a\r".toList 0 = ⟨1, ['a'], 0⟩ ∧ Location.ofPosition "a\r".toList 2 = ⟨1, ['a', '\r'], 2⟩ ∧
      (Location.ofPosition "a\r".toList 0).line = (Location.ofPosition "a\r".toList 2).line ∧
      (Location.ofPosition "a\r".toList 0).text ≠ (Location.ofPosition "a\r".toList 2).text := by
  decide +kernel

end LetLang.Text
