import LetLang.Proofs.Program.Blame
import LetLang.Proofs.Report.Place

/-!
# Carets below a token

The last row of a report has its carets in the columns of the token's characters in the line
(`rows_aligned`). The row above, where blanks are trimmed, shows them but for one case
(`marked_row_iff`).
-/

namespace LetLang

open Text (byteLength isBlank trimEnd Location)

namespace Report

/-- The characters of a row that stand above the carets of another one. -/
def marked (row marks : List Char) : List Char := ((row.zip marks).filter (·.2 = '^')).map Prod.fst

/-- The row below the source row: a margin as wide as the number, dashes, and carets. -/
def pointer (number : String) (dashes carets : Nat) : String :=
  fill ' ' number.length ++ " | " ++ fill '-' dashes ++ fill '^' carets

variable {row marks plain lead before cs more : List Char} {number : String}

theorem marked_append (same : row.length = plain.length) (cs marks : List Char) :
    marked (row ++ cs) (plain ++ marks) = marked row plain ++ marked cs marks := by
  rw [marked, List.zip_append same, List.filter_append, List.map_append, marked, marked]

theorem marked_of_clear (clear : '^' ∉ marks) (row : List Char) : marked row marks = [] := by
  rw [marked, List.map_eq_nil_iff, List.filter_eq_nil_iff]
  rintro ⟨c, m⟩ member caret
  obtain rfl : m = '^' := by simpa using caret
  exact clear (List.of_mem_zip member).2

/-- A row that ends in front of the first caret has nothing marked. -/
theorem marked_of_length_le (clear : '^' ∉ plain) (short : row.length ≤ plain.length) :
    marked row (plain ++ marks) = [] := by
  have parts := List.take_append_drop row.length plain
  have same : row.length = (plain.take row.length).length := by simp [short]
  have front := marked_append same [] (plain.drop row.length ++ marks)
  rw [List.append_nil, ← List.append_assoc, parts] at front
  rw [front, marked_of_clear (fun member => clear (List.mem_of_mem_take member))]
  rfl

theorem marked_carets (cs more : List Char) : marked (cs ++ more) (List.replicate cs.length '^') = cs := by
  have alone : marked cs (List.replicate cs.length '^') = cs := by
    induction cs with
    | nil => rfl
    | cons c cs ih =>
      unfold marked at ih ⊢
      rw [List.length_cons, List.replicate_succ, List.zip_cons_cons, List.filter_cons_of_pos (by simp),
        List.map_cons, ih]
  have same : cs.length = (List.replicate cs.length '^').length := by simp
  have rest := marked_append same more []
  rw [List.append_nil, alone] at rest
  rw [rest, marked, List.zip_nil_right]
  exact List.append_nil cs

theorem toList_pointer (number : String) (dashes carets : Nat) :
    (pointer number dashes carets).toList =
      List.replicate number.length ' ' ++ " | ".toList ++ List.replicate dashes '-' ++ List.replicate carets '^' := by
  simp only [pointer, fill, String.toList_append, String.toList_ofList]

theorem clear_pointer (number : String) (dashes : Nat) :
    '^' ∉ List.replicate number.length ' ' ++ " | ".toList ++ List.replicate dashes '-' := by
  simp only [List.mem_append, List.mem_replicate, not_or]
  exact ⟨⟨by simp, by decide⟩, by simp⟩

theorem gutter_append (r : Report) : r.gutter ++ " " = fill ' ' r.number.length ++ " | " := by
  apply String.toList_injective
  simp [gutter, fill, List.replicate_succ']

/-- The carets mark the token behind the text that the dashes are as long as. -/
theorem marked_pointer (number : String) (before cs more : List Char) :
    marked ((number ++ " | ").toList ++ (before ++ cs ++ more))
      (pointer number before.length cs.length).toList = cs := by
  rw [toList_pointer, List.append_assoc before, ← List.append_assoc, marked_append (by simp [String.length_toList]),
    marked_of_clear (clear_pointer _ _), marked_carets, List.nil_append]

theorem marked_pointer_of_le (short : cs.length ≤ before.length) (number : String) (carets : Nat) :
    marked ((number ++ " | ").toList ++ cs) (pointer number before.length carets).toList = [] := by
  rw [toList_pointer]
  apply marked_of_length_le (clear_pointer _ _)
  simp only [List.length_append, String.toList_append, String.length_toList, List.length_replicate]
  omega

end Report

namespace Token.InLine

open Report (isIndent ofDiagnostic)

variable {source label : String} {t : Token} {d : Diagnostic} {indent before after : List Char}

theorem dropWhile_text (h : t.InLine source indent before after) :
    (Location.ofPosition source.toList t.span.start).text.dropWhile isIndent = before ++ t.text.toList ++ after := by
  rw [h.text, List.dropWhile_append_of_pos h.blank]
  exact Text.dropWhile_of_stop h.solid

theorem dashes_eq (h : t.InLine source indent before after) (place : d.span = t.span) :
    (ofDiagnostic source.toList label d).dashes = before.length := by
  rw [Report.dashes, ofDiagnostic, place]
  simp only
  rw [h.text, h.offset, Text.takeWhile_run h.blank h.solid, List.append_assoc, ← List.append_assoc indent,
    Text.column_byteLength, Text.column_zero, List.length_append]
  omega

theorem carets_eq (member : t ∈ ofText source) (place : d.span = t.span) :
    (ofDiagnostic source.toList label d).carets = if t.kind = .eof then 1 else t.text.length := by
  rw [Report.carets, ofDiagnostic, place]
  by_cases inside : t.kind = .eof
  · rw [if_pos inside, eq_endAt_of_eof member inside]
    simp [endAt, Span.isEmpty]
  · obtain ⟨lexeme, before, after, whole, cut⟩ := (laid_ofText source).cut member inside
    have pos := List.length_pos_iff.2 lexeme.ne_nil
    have bytes := Text.length_le_byteLength t.text.toList
    have solid : t.span.isEmpty = false := by
      rw [← Bool.not_eq_true, Span.isEmpty_iff, cut]
      simp only
      omega
    have slice := Text.slice?_append before t.text.toList after
    rw [← whole, ← Nat.zero_add (byteLength before)] at slice
    rw [if_neg inside, solid, cut]
    simp only [slice, Bool.false_eq_true, if_false]
    rw [String.length_toList, Nat.max_eq_right (String.length_toList ▸ pos)]

theorem rows_eq (h : t.InLine source indent before after) (member : t ∈ ofText source) (place : d.span = t.span) :
    (ofDiagnostic source.toList label d).rows.drop 3 =
      [(ofDiagnostic source.toList label d).number ++ " | " ++
          String.ofList (trimEnd isBlank (before ++ t.text.toList ++ after)),
        Report.pointer (ofDiagnostic source.toList label d).number before.length
          (if t.kind = .eof then 1 else t.text.length)] := by
  have shown := h.dropWhile_text
  rw [← place] at shown
  rw [Report.rows, h.dashes_eq place, carets_eq member place, Report.gutter_append, ← shown]
  rfl

end Token.InLine

namespace Report

variable {source label : String} {r : Report}

theorem exists_token (reported : r ∈ (Program.ofText source).diagnostics.map (ofDiagnostic source.toList label)) :
    ∃ d t, r = ofDiagnostic source.toList label d ∧ t ∈ Token.ofText source ∧ d.span = t.span := by
  obtain ⟨d, member, rfl⟩ := List.mem_map.1 reported
  obtain ⟨k, place⟩ := Program.exists_token_of_mem member
  exact ⟨d, _, rfl, Token.nth_mem source k, place⟩

/-- A lexeme in a line stays there, unless it and all that follows are blanks. -/
theorem trimEnd_lexeme {k : Token.Kind} (lexeme : Token.Lexeme k cs) (before : List Char)
    (shown : ¬ ∀ c ∈ cs ++ more, isBlank c = true) :
    trimEnd isBlank (before ++ cs ++ more) = before ++ cs ++ trimEnd isBlank more := by
  obtain ⟨c, member, stays⟩ : ∃ c ∈ cs ++ more, isBlank c = false := by simpa using shown
  rcases List.mem_append.1 member with member | member
  · refine Text.trimEnd_append (fun l last => ?_) more
    rw [List.getLast?_append_of_ne_nil _ lexeme.ne_nil] at last
    rw [← Bool.not_eq_true]
    intro blank
    -- A lexeme that ends with a blank is that one character.
    obtain ⟨-, rfl⟩ := lexeme.eq_illegal_of_blank (List.mem_of_getLast? last) blank
    obtain rfl := List.mem_singleton.1 member
    rw [blank] at stays
    contradiction
  · exact Text.trimEnd_append_of_mem member stays _

/-- The row of the line loses the blanks at its end. Of the token it loses a foreign character that is a
blank itself, if nothing else follows in the line. -/
theorem marked_row_iff (reported : r ∈ (Program.ofText source).diagnostics.map (ofDiagnostic source.toList label)) :
    ∃ t ∈ Token.ofText source, r.diagnostic.span = t.span ∧
      ∃ indent before after, t.InLine source indent before after ∧
      ∃ row marks, r.rows.drop 3 = [row, marks] ∧ (marked row.toList marks.toList = t.text.toList ↔
        ¬ (t.kind = .illegal ∧ ∀ c ∈ t.text.toList ++ after, isBlank c = true)) := by
  obtain ⟨d, t, rfl, member, place⟩ := exists_token reported
  obtain ⟨indent, before, after, inLine⟩ := Token.exists_inLine member
  refine ⟨t, member, place, indent, before, after, inLine, _, _, inLine.rows_eq member place, ?_⟩
  rw [String.toList_append, String.toList_ofList]
  by_cases last : t.kind = .eof
  · rw [if_pos last, Token.toList_text_of_eof member last, marked_pointer_of_le, last]
    · exact iff_of_true rfl (by simp)
    · rw [inLine.after_eq_nil member last]
      exact (Text.length_trimEnd_le ..).trans (by simp)
  · obtain ⟨lexeme, -⟩ := (Token.laid_ofText source).cut member last
    rw [if_neg last, ← String.length_toList]
    by_cases blank : ∀ c ∈ t.text.toList ++ after, isBlank c = true
    · obtain ⟨c, inside⟩ := List.exists_mem_of_ne_nil _ lexeme.ne_nil
      obtain ⟨kind, -⟩ := lexeme.eq_illegal_of_blank inside (blank c (List.mem_append_left _ inside))
      rw [List.append_assoc, Text.trimEnd_append_of_forall blank, marked_pointer_of_le (Text.length_trimEnd_le ..)]
      exact iff_of_false lexeme.ne_nil.symm (not_not_intro ⟨kind, blank⟩)
    · rw [trimEnd_lexeme lexeme before blank]
      exact iff_of_true (marked_pointer _ before _ _) fun hidden => blank hidden.2

/-- A no-break space in front of a semicolon. -/
theorem marked_row_iff_semicolon :
    ∃ r ∈ (Program.ofText "let x = \u00a0 ;").diagnostics.map (ofDiagnostic "let x = \u00a0 ;".toList "f"),
      r.rows.drop 3 = ["1 | let x = \u00a0 ;", "  | --------^"] ∧
      ∃ t ∈ Token.ofText "let x = \u00a0 ;", r.diagnostic.span = t.span ∧
        ∃ indent before after, t.InLine "let x = \u00a0 ;" indent before after ∧
        ∃ row marks, r.rows.drop 3 = [row, marks] ∧ (marked row.toList marks.toList = t.text.toList ↔
          ¬ (t.kind = .illegal ∧ ∀ c ∈ t.text.toList ++ after, isBlank c = true)) := by
  have reported := List.mem_map_of_mem (f := ofDiagnostic "let x = \u00a0 ;".toList "f")
    (by decide +kernel : (⟨.noOpening .illegal, ⟨8, 10⟩⟩ : Diagnostic) ∈
      (Program.ofText "let x = \u00a0 ;").diagnostics)
  exact ⟨_, reported, by decide +kernel, marked_row_iff reported⟩

/-- A no-break space at the end of the line is not shown. -/
theorem row_without_token :
    (Program.ofText "let x = \u00a0").diagnostics = [⟨.noOpening .illegal, ⟨8, 10⟩⟩] ∧
      Text.slice? 8 10 "let x = \u00a0".toList = some ['\u00a0'] ∧
      (ofDiagnostic "let x = \u00a0".toList "f" ⟨.noOpening .illegal, ⟨8, 10⟩⟩).rows.drop 3 =
        ["1 | let x =", "  | --------^"] ∧
      marked "1 | let x =".toList "  | --------^".toList = [] := by
  decide +kernel

end Report

end LetLang
