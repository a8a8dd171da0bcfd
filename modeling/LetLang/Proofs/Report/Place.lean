import LetLang.Proofs.Text.Position
import LetLang.Proofs.Token.Layout
import LetLang.Report

/-!
# Tokens in their lines

A report looks up the line of a token and cuts off the indent. `exists_inLine` says what stands in front
of the token there and what behind it.
-/

namespace LetLang

open Text (byteLength isGap isBlank isLineEnd trimEnd Complete Location)
open Report (isIndent)

namespace Text

theorem not_indent_of_not_gap {c : Char} (h : isGap c = false) : isIndent c = false := by
  simp_all [isIndent, isGap]

theorem not_lineEnd_of_not_gap {c : Char} (h : isGap c = false) : isLineEnd c = false := by
  simp_all [isLineEnd, isGap]

/-- A position in front of text without gaps is in the line that this text belongs to. -/
theorem ofPosition_line {front line cs : List Char} (complete : Complete front) (plain : '\n' ∉ line)
    (solid : ∀ c ∈ cs, isGap c = false) (nonempty : cs ≠ []) (rest : List Char) :
    Location.ofPosition (front ++ line ++ cs ++ rest) (byteLength (front ++ line)) =
      ⟨front.count '\n' + 1, line ++ cs ++ trimEnd isLineEnd (rest.takeWhile (· ≠ '\n')), byteLength line⟩ := by
  have feedless : ∀ c ∈ cs, decide (c ≠ '\n') = true := by
    intro c member
    refine decide_eq_true ?_
    rintro rfl
    exact absurd (solid _ member) (by decide)
  have last : ∀ c ∈ cs.getLast?, isLineEnd c = false := fun c last =>
    not_lineEnd_of_not_gap (solid c (List.mem_of_getLast? last))
  rw [List.append_assoc (front ++ line), ofPosition_of_shown complete plain (shown_of_solid solid nonempty rest),
    List.takeWhile_append_of_pos feedless, trimEnd_append last, Nat.add_comm 1, List.append_assoc]

end Text

namespace Token

variable {source : String} {t : Token}

theorem toList_text_of_eof (member : t ∈ ofText source) (last : t.kind = .eof) : t.text.toList = [] := by
  rw [eq_endAt_of_eof member last]
  rfl

/-- A token stands in the line that the text in front of it begins. -/
theorem exists_line (member : t ∈ ofText source) :
    ∃ front line rest, source.toList = front ++ line ++ t.text.toList ++ rest ∧ Complete front ∧
      '\n' ∉ line ∧ byteLength (front ++ line) = t.span.start ∧
      Location.ofPosition source.toList t.span.start = ⟨front.count '\n' + 1,
        line ++ t.text.toList ++ trimEnd isLineEnd (rest.takeWhile (· ≠ '\n')), byteLength line⟩ ∧
      ∀ c ∈ (t.text.toList ++ trimEnd isLineEnd (rest.takeWhile (· ≠ '\n'))).head?, isIndent c = false := by
  by_cases inside : t.kind = .eof
  · obtain rfl := eq_endAt_of_eof member inside
    obtain ⟨front, line, whole, complete, plain⟩ := Text.exists_complete source.toList
    have place := Text.ofPosition_of_shown complete plain (.inl (rfl : [] = []))
    rw [Nat.add_comm 1] at place
    rw [whole]
    exact ⟨front, line, [], by simp [endAt], complete, plain, rfl, by simpa [endAt] using place,
      by simp [endAt, trimEnd]⟩
  · obtain ⟨lexeme, before, rest, whole, place⟩ := (laid_ofText source).cut member inside
    obtain ⟨front, line, rfl, complete, plain⟩ := Text.exists_complete before
    rw [place, whole, Nat.zero_add]
    refine ⟨front, line, rest, rfl, complete, plain, rfl,
      Text.ofPosition_line complete plain lexeme.gapless lexeme.ne_nil rest, fun c first => ?_⟩
    rw [List.head?_append_of_ne_nil _ lexeme.ne_nil] at first
    exact Text.not_indent_of_not_gap (lexeme.gapless c (List.mem_of_mem_head? first))

/-- The line of a token, as it is shown: an indent, more text, the token and what stands behind it. -/
structure InLine (source : String) (t : Token) (indent before after : List Char) : Prop where
  place : ∃ front rest, source.toList = front ++ (indent ++ before) ++ t.text.toList ++ rest ∧ Complete front ∧
    byteLength (front ++ (indent ++ before)) = t.span.start ∧ after = trimEnd isLineEnd (rest.takeWhile (· ≠ '\n')) ∧
    (Location.ofPosition source.toList t.span.start).line = front.count '\n' + 1
  plain : '\n' ∉ indent ++ before
  text : (Location.ofPosition source.toList t.span.start).text = indent ++ (before ++ t.text.toList ++ after)
  offset : (Location.ofPosition source.toList t.span.start).offset = byteLength (indent ++ before)
  blank : ∀ c ∈ indent, isIndent c = true
  solid : ∀ c ∈ (before ++ t.text.toList ++ after).head?, isIndent c = false

theorem exists_inLine (member : t ∈ ofText source) : ∃ indent before after, t.InLine source indent before after := by
  obtain ⟨front, line, rest, whole, complete, plain, start, located, stop⟩ := exists_line member
  have parts : line = line.takeWhile isIndent ++ line.dropWhile isIndent := List.takeWhile_append_dropWhile.symm
  refine ⟨line.takeWhile isIndent, line.dropWhile isIndent, trimEnd isLineEnd (rest.takeWhile (· ≠ '\n')), ?_⟩
  constructor
  case place =>
    rw [← parts, located]
    exact ⟨front, rest, whole, complete, start, rfl, rfl⟩
  case plain => rwa [← parts]
  case text =>
    rw [located]
    simp only [← List.append_assoc, ← parts]
  case offset => rw [located, ← parts]
  case blank => exact fun c => List.mem_takeWhile_imp
  case solid =>
    rw [List.append_assoc, ← Text.dropWhile_append_of_stop stop]
    exact Text.head?_dropWhile _ _

variable {indent before after : List Char}

theorem InLine.after_eq_nil (h : t.InLine source indent before after) (member : t ∈ ofText source)
    (last : t.kind = .eof) : after = [] := by
  obtain ⟨front, rest, whole, -, start, rfl, -⟩ := h.place
  have place : t.span.start = byteLength source.toList := by rw [eq_endAt_of_eof member last]; rfl
  have spent : rest = [] := by
    rw [← List.length_eq_zero_iff]
    have bytes := Text.length_le_byteLength rest
    rw [place, whole] at start
    simp only [Text.byteLength_append] at start
    omega
  rw [spent]
  rfl

end Token

end LetLang
