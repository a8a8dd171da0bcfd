import LetLang.Proofs.Text.Position
import LetLang.Proofs.Token.Layout

/-!
# Lines and columns of tokens

A line and a column tell the position that they were found for, unless it is within a line end
(`position_eq_iff`). So lines and columns are in the order of the positions (`coordinates_lt`). Tokens
start in front of line ends, so this holds of them (`coordinates_invertible`).
-/

namespace LetLang

namespace Text

/-- The line and the column of a position. -/
def coordinates (source : List Char) (p : Nat) : Nat × Nat :=
  let place := Location.ofPosition source p
  (place.line, column place.text place.offset)

/-- The bytes of the lines in front of a place and of the characters in front of its column. -/
def Location.position (source : List Char) (place : Location) : Nat :=
  byteLength ((lines source).take (place.line - 1)).flatten +
    byteLength (place.text.take (column place.text place.offset))

variable {front line before after before' after' more source : List Char}

theorem column_line (line ds : List Char) : column (line ++ ds) (byteLength line) = line.length := by
  rw [column_byteLength, column_zero, Nat.add_zero]

/-! ### Back to the position -/

theorem position_of_shown (shown : Shown before after) :
    (Location.ofPosition (before ++ after) (byteLength before)).position (before ++ after) = byteLength before := by
  obtain ⟨front, line, rfl, complete, plain⟩ := exists_complete before
  rw [ofPosition_of_shown complete plain shown, Location.position]
  simp only
  rw [column_line, List.take_left, Nat.add_sub_cancel_left, List.append_assoc, take_lines complete, byteLength_append]

theorem byteLength_take_trimEnd_le (p : Char → Bool) (cs : List Char) (n : Nat) :
    byteLength ((trimEnd p cs).take n) ≤ byteLength cs := by
  obtain ⟨ends, same⟩ := List.reverse_prefix.2 (List.dropWhile_suffix (l := cs.reverse) p)
  rw [List.reverse_reverse, ← trimEnd] at same
  have first := byteLength_take_add_drop n (trimEnd p cs)
  have second := congrArg byteLength same
  rw [byteLength_append] at second
  omega

theorem exists_of_not_shown (hidden : ¬ Shown before after) : ∃ front line, before = front ++ (line ++ ['\r']) ∧
    Complete front ∧ '\n' ∉ line ++ ['\r'] ∧ after ≠ [] ∧ ∀ c ∈ after.takeWhile (· ≠ '\n'), c = '\r' := by
  simp only [Shown, not_or, not_exists, not_and, not_not] at hidden
  obtain ⟨more, carriages, last⟩ := hidden
  obtain ⟨front, line, rfl, complete, plain⟩ := exists_complete before
  -- The carriage return is in the line of the cut, since complete lines end with a line feed.
  rcases List.eq_nil_or_concat line with rfl | ⟨line, c, rfl⟩
  · rw [List.append_nil] at last
    rcases complete.eq_nil_or_concat with rfl | ⟨before, rfl⟩
    · contradiction
    · rw [List.getLast?_concat] at last
      exact absurd last (by decide)
  · rw [List.concat_eq_append] at last plain ⊢
    rw [← List.append_assoc, List.getLast?_concat] at last
    obtain rfl := Option.some.inj last
    exact ⟨front, line, rfl, complete, plain, more, carriages⟩

/-- Within a line end, the column is the one of its start. -/
theorem position_lt_of_not_shown (hidden : ¬ Shown before after) :
    (Location.ofPosition (before ++ after) (byteLength before)).position (before ++ after) < byteLength before := by
  obtain ⟨front, line, rfl, complete, plain, more, carriages⟩ := exists_of_not_shown hidden
  have ends : ∀ c ∈ ['\r'] ++ after.takeWhile (· ≠ '\n'), isLineEnd c = true := by
    intro c member
    rcases List.mem_append.1 member with member | member
    · rw [List.mem_singleton.1 member]
      rfl
    · rw [carriages c member]
      rfl
  have short := byteLength_take_trimEnd_le isLineEnd line
  have size : byteLength ['\r'] = 1 := rfl
  rw [(lineAt_cut complete plain after).ofPosition_eq, if_pos (byteLength_lt_append more), List.append_assoc line,
    trimEnd_append_of_forall ends, Location.position]
  simp only
  rw [Nat.add_sub_cancel_left, List.append_assoc front, take_lines complete, byteLength_append, byteLength_append, size]
  exact Nat.add_lt_add_left (Nat.lt_succ_of_le (short _)) _

theorem position_eq_iff (whole : source = before ++ after) :
    (Location.ofPosition source (byteLength before)).position source = byteLength before ↔ Shown before after := by
  subst whole
  constructor
  · intro same
    by_contra hidden
    exact Nat.ne_of_lt (position_lt_of_not_shown hidden) same
  · exact position_of_shown

/-! ### In the order of the positions -/

theorem coordinates_of_shown (complete : Complete front) (plain : '\n' ∉ line) (shown : Shown (front ++ line) after) :
    coordinates (front ++ line ++ after) (byteLength (front ++ line)) = (1 + front.count '\n', line.length) := by
  rw [coordinates, ofPosition_of_shown complete plain shown]
  simp only [column_line]

theorem Complete.append (h : Complete front) (h' : Complete more) : Complete (front ++ more) := by
  induction h with
  | nil => exact h'
  | line plain later ih =>
    rw [List.append_assoc, List.cons_append]
    exact .line plain ih

theorem Complete.behind (h : Complete more) (plain : '\n' ∉ line) (nonempty : more ≠ []) : Complete (line ++ more) := by
  cases h with
  | nil => exact absurd rfl nonempty
  | @line first rest plain' later =>
    rw [← List.append_assoc]
    exact .line (by simp [plain, plain']) later

theorem Complete.count_pos (h : Complete more) (nonempty : more ≠ []) : 0 < more.count '\n' := by
  rcases h.eq_nil_or_concat with rfl | ⟨before, rfl⟩
  · exact absurd rfl nonempty
  · exact List.count_pos_iff.2 (by simp)

theorem coordinates_lt (whole : source = before ++ after) (whole' : source = before' ++ after')
    (shown : Shown before after) (shown' : Shown before' after') (lt : byteLength before < byteLength before') :
    Prod.Lex (· < ·) (· < ·) (coordinates source (byteLength before)) (coordinates source (byteLength before')) := by
  subst whole
  obtain ⟨more, rfl, rfl⟩ := append_eq_append_of_le whole' (Nat.le_of_lt lt)
  have further : more ≠ [] := by
    rintro rfl
    rw [List.append_nil] at lt
    exact Nat.lt_irrefl _ lt
  obtain ⟨front, line, rfl, complete, plain⟩ := exists_complete before
  obtain ⟨passed, tail, rfl, complete', plain'⟩ := exists_complete more
  rw [coordinates_of_shown complete plain shown, whole']
  -- The text between the two cuts stays in the line or has complete lines in it.
  by_cases same : passed = []
  · subst same
    have shape : front ++ line ++ ([] ++ tail) = front ++ (line ++ tail) := List.append_assoc ..
    rw [shape] at shown' ⊢
    rw [coordinates_of_shown complete (by simp [plain, plain']) shown', List.length_append]
    exact .right _ (Nat.lt_add_of_pos_right (List.length_pos_iff.2 further))
  · have shape : front ++ line ++ (passed ++ tail) = front ++ (line ++ passed) ++ tail := by
      simp only [List.append_assoc]
    rw [shape] at shown' ⊢
    rw [coordinates_of_shown (complete.append (complete'.behind plain same)) plain' shown', List.count_append,
      List.count_append]
    have feeds := complete'.count_pos same
    exact .left _ _ (by omega)

end Text

namespace Token

open Text (byteLength coordinates Location Shown)

variable {p : Nat} {cs : List Char} {ts : List Token} {source : String} {t : Token}

theorem Laid.starts_lt (h : Laid p cs ts) : ts.Pairwise fun t u => t.span.start < u.span.start := by
  induction h with
  | ended => exact List.pairwise_singleton ..
  | @token p gap k text rest ts blank longest later ih =>
    refine .cons (fun u member => ?_) ih
    have low := later.start_ge member
    have pos := List.length_pos_iff.2 longest.lexeme.ne_nil
    have bytes := Text.length_le_byteLength text
    show p + byteLength gap < u.span.start
    omega

theorem exists_shown (member : t ∈ ofText source) :
    ∃ before after, source.toList = before ++ after ∧ byteLength before = t.span.start ∧ Shown before after := by
  by_cases last : t.kind = .eof
  · obtain rfl := eq_endAt_of_eof member last
    exact ⟨source.toList, [], (List.append_nil _).symm, rfl, .inl rfl⟩
  · obtain ⟨lexeme, before, rest, whole, place⟩ := (laid_ofText source).cut member last
    exact ⟨before, t.text.toList ++ rest, by rw [whole, List.append_assoc], by rw [place, Nat.zero_add],
      Text.shown_of_solid lexeme.gapless lexeme.ne_nil rest⟩

/-- The line and the column of a character boundary give it back, exactly if it is at the end of the source
or in front of a line end. So those of the start of a token do, and a later token has a later line or, in
the same line, a greater column. -/
theorem coordinates_invertible (source : String) :
    (∀ before after, source.toList = before ++ after →
      ((Location.ofPosition source.toList (byteLength before)).position source.toList = byteLength before ↔
        Shown before after)) ∧
    (∀ t ∈ ofText source, (Location.ofPosition source.toList t.span.start).position source.toList = t.span.start) ∧
    (ofText source).Pairwise fun t u => Prod.Lex (· < ·) (· < ·)
      (coordinates source.toList t.span.start) (coordinates source.toList u.span.start) := by
  refine ⟨fun before after => Text.position_eq_iff, fun t member => ?_, ?_⟩
  · obtain ⟨before, after, whole, place, shown⟩ := exists_shown member
    rw [← place]
    exact (Text.position_eq_iff whole).2 shown
  · refine (laid_ofText source).starts_lt.imp_of_mem fun {t u} member member' lt => ?_
    obtain ⟨before, after, whole, place, shown⟩ := exists_shown member
    obtain ⟨before', after', whole', place', shown'⟩ := exists_shown member'
    rw [← place, ← place'] at lt ⊢
    exact Text.coordinates_lt whole whole' shown shown' lt

/-- Between a carriage return and its line feed, the position is lost. -/
theorem coordinates_invertible_crlf :
    (ofText "é\r\n x").map (fun t => coordinates "é\r\n x".toList t.span.start) = [(1, 0), (2, 1), (2, 2)] ∧
      (Location.ofPosition "é\r\n x".toList 2).position "é\r\n x".toList = 2 ∧
      (Location.ofPosition "é\r\n x".toList 3).position "é\r\n x".toList ≠ 3 := by
  obtain ⟨inverse, -, -⟩ := coordinates_invertible "é\r\n x"
  refine ⟨by decide +kernel, (inverse ['é'] ['\r', '\n', ' ', 'x'] rfl).2 (.inr (.inr (by decide))), fun same => ?_⟩
  have shown := (inverse ['é', '\r'] ['\n', ' ', 'x'] rfl).1 same
  simp [Shown] at shown

end Token

end LetLang
