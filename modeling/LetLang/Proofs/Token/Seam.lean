import LetLang.Proofs.Token.Shift

/-!
# Where two sources meet

Two sources in sequence have the tokens of the one and then of the other exactly when no lexeme
reaches over the place where they meet (`ofText_append_iff`).
-/

namespace LetLang.Token

open Text (byteLength isGap)
open Lexeme (isLetter)

/-! ### Characters that go on with a lexeme -/

theorem Kind.absorbs_iff_of_notMem {k : Kind} (h : k ∉ int :: ident :: keywords.map Prod.snd) (y : Char) :
    k.absorbs y = true ↔ (k = .assign ∨ k = .bang) ∧ y = '=' := by
  cases k <;> first | exact absurd (by decide) h | simp [absorbs]

/-- The last character of a lexeme tells what goes on with it; of a sign, the kind does. -/
theorem Lexeme.absorbs_iff {k : Kind} {text : List Char} {x y : Char} (h : Lexeme k text)
    (last : text.getLast? = some x) :
    k.absorbs y = true ↔ isLetter x = true ∧ isLetter y = true ∨ x.isDigit = true ∧ y.isDigit = true ∨
      (k = .assign ∨ k = .bang) ∧ y = '=' := by
  cases h with
  | word _ letters =>
    have letter := letters x (List.mem_of_getLast? last)
    have assign : Kind.ofWord (String.ofList text) ≠ .assign := Kind.ofWord_ne (by decide) _
    have bang : Kind.ofWord (String.ofList text) ≠ .bang := Kind.ofWord_ne (by decide) _
    rw [Kind.absorbs_ofWord]
    simp [letter, not_digit_of_isLetter letter, assign, bang]
  | number _ digits =>
    have digit := digits x (List.mem_of_getLast? last)
    simp [Kind.absorbs, digit, not_letter_of_isDigit digit]
  | equal | notEqual =>
    obtain rfl : '=' = x := Option.some.inj last
    simp [Kind.absorbs, isLetter]
  | @symbol c solid letter digit =>
    obtain rfl : c = x := Option.some.inj last
    simp [Kind.absorbs_iff_of_notMem (Kind.ofSymbol_notMem c), letter, digit]

/-! ### The last token of a source -/

namespace Laid

variable {p : Nat} {cs : List Char} {ts : List Token} {t : Token} {x : Char}

/-- A token that ends where the text does stands in front of nothing. -/
theorem cut_last (h : Laid p cs ts) (member : t ∈ ts) (inside : t.kind ≠ .eof)
    (ends : t.span.stop = p + byteLength cs) :
    Lexeme t.kind t.text.toList ∧ t.text.toList.getLast? = cs.getLast? := by
  obtain ⟨before, rest, rfl, longest, place⟩ := h.longest member inside
  have lexeme := longest.lexeme
  have bytes := Text.length_le_byteLength rest
  simp only [place, Text.byteLength_append] at ends
  obtain rfl : rest = [] := List.eq_nil_of_length_eq_zero (by omega)
  refine ⟨lexeme, ?_⟩
  rw [List.append_nil, List.getLast?_append_of_ne_nil _ lexeme.ne_nil]

/-- A text that does not end with a gap ends with a token. -/
theorem exists_last (h : Laid p cs ts) (last : cs.getLast? = some x) (solid : isGap x = false) :
    ∃ t ∈ ts.dropLast.getLast?, t.span.stop = p + byteLength cs := by
  induction h with
  | ended blank =>
    rw [blank x (List.mem_of_getLast? last)] at solid
    contradiction
  | @token p gap k text rest ts blank longest later ih =>
    rw [List.dropLast_cons_of_ne_nil later.ne_nil]
    simp only [Text.byteLength_append, ← Nat.add_assoc]
    cases rest with
    | nil =>
      obtain rfl := later.eq_of_nil
      exact ⟨_, rfl, rfl⟩
    | cons c rest =>
      rw [List.getLast?_append_of_ne_nil _ (List.cons_ne_nil c rest)] at last
      obtain ⟨t, found, ends⟩ := ih last
      obtain ⟨front, same⟩ := List.getLast?_eq_some_iff.1 found
      exact ⟨t, by rw [same]; exact List.getLast?_concat (l := _ :: front), ends⟩

end Laid

/-! ### Two sources -/

/-- A lexeme would reach from the one source into the other: letters on both sides, digits on both
sides, or a sign in front of `=` that is not yet a part of a longer one. -/
inductive Merges (a b : String) : Prop where
  | letters {x y} (last : a.toList.getLast? = some x) (next : b.toList.head? = some y)
      (left : isLetter x = true) (right : isLetter y = true)
  | digits {x y} (last : a.toList.getLast? = some x) (next : b.toList.head? = some y)
      (left : x.isDigit = true) (right : y.isDigit = true)
  | sign {t} (last : (body a).getLast? = some t) (kind : t.kind = .assign ∨ t.kind = .bang)
      (ends : t.span.stop = byteLength a.toList) (next : b.toList.head? = some '=')

/-- The last token of the one source ends with it, and the other one goes on with that token. -/
def GoesOn (a b : String) : Prop :=
  ∃ t ∈ (body a).getLast?, t.span.stop = byteLength a.toList ∧
    ∃ y ∈ b.toList.head?, t.kind.absorbs y = true

variable {a b : String} {t : Token} {x y : Char}

theorem mem_of_last (last : (body a).getLast? = some t) : t ∈ ofText a ∧ t.kind ≠ .eof := by
  have member := List.mem_of_getLast? last
  obtain ⟨e, -, -, others⟩ := ofText_eq a
  exact ⟨List.dropLast_subset _ member, others t member⟩

theorem cut_last_of_body (last : (body a).getLast? = some t) (ends : t.span.stop = byteLength a.toList) :
    Lexeme t.kind t.text.toList ∧ t.text.toList.getLast? = a.toList.getLast? := by
  obtain ⟨member, inside⟩ := mem_of_last last
  exact (laid_ofText a).cut_last member inside (by omega)

theorem goesOn_of_alike (last : a.toList.getLast? = some x) (next : b.toList.head? = some y)
    (solid : isGap x = false)
    (alike : isLetter x = true ∧ isLetter y = true ∨ x.isDigit = true ∧ y.isDigit = true) : GoesOn a b := by
  obtain ⟨t, found, ends⟩ := (laid_ofText a).exists_last last solid
  rw [Nat.zero_add] at ends
  obtain ⟨lexeme, same⟩ := cut_last_of_body found ends
  exact ⟨t, found, ends, y, next, (lexeme.absorbs_iff (same.trans last)).2 (or_assoc.1 (.inl alike))⟩

theorem goesOn_iff : GoesOn a b ↔ Merges a b := by
  constructor
  · rintro ⟨t, last, ends, y, next, absorbs⟩
    obtain ⟨lexeme, same⟩ := cut_last_of_body last ends
    obtain ⟨x, final⟩ := Option.ne_none_iff_exists'.1 (mt List.getLast?_eq_none_iff.1 lexeme.ne_nil)
    rcases (lexeme.absorbs_iff final).1 absorbs with ⟨left, right⟩ | ⟨left, right⟩ | ⟨kind, rfl⟩
    · exact .letters (same ▸ final) next left right
    · exact .digits (same ▸ final) next left right
    · exact .sign last kind ends next
  · intro h
    cases h with
    | letters last next left right =>
      exact goesOn_of_alike last next (Lexeme.not_gap_of_isLetter left) (.inl ⟨left, right⟩)
    | digits last next left right =>
      exact goesOn_of_alike last next (Lexeme.not_gap_of_isDigit left) (.inr ⟨left, right⟩)
    | sign last kind ends next =>
      refine ⟨_, last, ends, '=', next, ?_⟩
      rcases kind with kind | kind <;> rw [kind] <;> rfl

/-- Where the tokens of the one source stay what they are, nothing goes on with the last of them. -/
theorem Separate.clear (h : Separate a b) (last : (body a).getLast? = some t)
    (ends : t.span.stop = byteLength a.toList) : ∀ y ∈ b.toList.head?, t.kind.absorbs y = false := by
  have member : t ∈ ofText (a ++ b) := by
    rw [h]
    exact List.mem_append_left _ (List.mem_of_getLast? last)
  obtain ⟨before, rest, split, longest, place⟩ :=
    (laid_ofText (a ++ b)).longest member (mem_of_last last).2
  have reach : byteLength (before ++ t.text.toList) = byteLength a.toList := by
    rw [Text.byteLength_append, ← ends, place, Nat.zero_add]
  rw [String.toList_append] at split
  obtain ⟨more, whole, behind⟩ := Text.append_eq_append_of_le split (Nat.le_of_eq reach.symm)
  rw [whole, Text.byteLength_append] at reach
  have least := Text.length_le_byteLength more
  obtain rfl : more = [] := List.eq_nil_of_length_eq_zero (by omega)
  rw [behind]
  exact longest.clear

theorem separate_iff : Separate a b ↔ ¬ GoesOn a b := by
  constructor
  · rintro h ⟨t, last, ends, y, next, absorbs⟩
    rw [h.clear last ends y next] at absorbs
    contradiction
  · intro none
    refine separate_of_clear fun t last ends y next => ?_
    rw [← Bool.not_eq_true]
    exact fun absorbs => none ⟨t, last, ends, y, next, absorbs⟩

/-- Two sources in sequence have the tokens of the first and, moved by its bytes, those of the second,
unless a lexeme reaches from the one into the other. -/
theorem ofText_append_iff (a b : String) :
    ofText (a ++ b) = body a ++ (ofText b).map (mapSpan (Span.shift (byteLength a.toList))) ↔ ¬ Merges a b := by
  rw [← goesOn_iff]
  exact separate_iff

example : ofText ("é==" ++ "=x") = body "é==" ++ (ofText "=x").map (mapSpan (Span.shift 4)) := by
  decide +kernel

end LetLang.Token
