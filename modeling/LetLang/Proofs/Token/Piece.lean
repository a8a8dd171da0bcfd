import LetLang.Proofs.Token.Shift

/-!
# Pieces of a source

The text from the start of one token to the end of another one has the tokens of the source that stand
there, and no others (`exists_piece`).
-/

namespace LetLang

/-- A cut behind so many bytes goes through no character. -/
def Text.IsBoundary (cs : List Char) (p : Nat) : Prop :=
  ∃ before after, cs = before ++ after ∧ byteLength before = p

/-- The span cuts whole characters out of the text, one at least. -/
structure Span.Cuts (s : Span) (cs : List Char) : Prop where
  nonempty : s.start < s.stop
  within : s.stop ≤ Text.byteLength cs
  starts : Text.IsBoundary cs s.start
  stops : Text.IsBoundary cs s.stop

namespace Token

open Text (byteLength)

variable {p : Nat} {cs : List Char} {ts us front back : List Token} {t u : Token} {source : String}

theorem span_cuts (member : t ∈ ofText source) (inside : t.kind ≠ .eof) : t.span.Cuts source.toList := by
  obtain ⟨lexeme, before, after, whole, place⟩ := (laid_ofText source).cut member inside
  have pos := List.length_pos_iff.2 lexeme.ne_nil
  have bytes := Text.length_le_byteLength t.text.toList
  rw [Nat.zero_add, ← Text.byteLength_append] at place
  rw [place, whole]
  refine ⟨?_, ?_, ⟨before, _, List.append_assoc .., rfl⟩, ⟨_, after, rfl, rfl⟩⟩
  · simp only [Text.byteLength_append]
    omega
  · simp only [Text.byteLength_append]
    omega

namespace Laid

theorem unique (h : Laid p cs ts) (h' : Laid p cs us) : ts = us := by
  have first := h.tokens_eq (c := ⟨p, cs, _, rfl⟩) rfl rfl
  have second := h'.tokens_eq (c := ⟨p, cs, _, rfl⟩) rfl rfl
  exact first.symm.trans second

/-- The text behind some of the tokens is laid out as the other ones. -/
theorem behind (h : Laid p cs (front ++ ts)) (more : ts ≠ []) :
    ∃ before rest, cs = before ++ rest ∧ Laid (p + byteLength before) rest ts := by
  induction front generalizing p cs with
  | nil => exact ⟨[], cs, rfl, h⟩
  | cons t front ih =>
    generalize same : t :: front ++ ts = all at h
    cases h with
    | ended => simp [more] at same
    | @token p gap k text rest us blank longest later =>
      obtain ⟨-, rfl⟩ := List.cons.inj same
      obtain ⟨before, rest, rfl, laid⟩ := ih later
      refine ⟨gap ++ text ++ before, rest, by simp only [List.append_assoc], ?_⟩
      simpa only [Text.byteLength_append, Nat.add_assoc] using laid

/-- The text from the first token on needs no gap in front. -/
theorem from_first (h : Laid p cs (t :: ts)) (inside : t.kind ≠ .eof) :
    ∃ gap rest, cs = gap ++ rest ∧ p + byteLength gap = t.span.start ∧ Laid t.span.start rest (t :: ts) := by
  cases h with
  | ended => exact absurd rfl inside
  | @token p gap k text rest ts blank longest later =>
    refine ⟨gap, text ++ rest, List.append_assoc .., rfl, ?_⟩
    exact .token (List.forall_mem_nil fun c => Text.isGap c = true) longest later

/-- The text up to the end of a token is laid out as the tokens up to it. -/
theorem up_to (h : Laid p cs (ts ++ back)) (last : ts.getLast? = some u) (inside : u.kind ≠ .eof) :
    ∃ text rest, cs = text ++ rest ∧ p + byteLength text = u.span.stop ∧ Laid p text (ts ++ [endAt u.span.stop]) := by
  induction ts generalizing p cs with
  | nil => simp at last
  | cons t ts ih =>
    generalize same : t :: ts ++ back = all at h
    cases h with
    | ended =>
      obtain ⟨rfl, none⟩ := List.cons.inj same
      obtain ⟨rfl, -⟩ := List.append_eq_nil_iff.1 none
      obtain rfl := Option.some.inj last
      exact absurd rfl inside
    | @token p gap k text rest us blank longest later =>
      obtain ⟨rfl, rfl⟩ := List.cons.inj same
      cases ts with
      | nil =>
        rw [List.getLast?_singleton] at last
        obtain rfl := Option.some.inj last
        refine ⟨gap ++ text, rest, rfl, by simp only [placed, Text.byteLength_append, Nat.add_assoc], ?_⟩
        have alone : Lexeme.Longest k text [] := Lexeme.longest_iff.2 ⟨longest.lexeme, by simp⟩
        have ended := Laid.token blank alone (.ended (p := p + byteLength gap + byteLength text) (List.forall_mem_nil _))
        rwa [List.append_nil] at ended
      | cons t' ts =>
        obtain ⟨piece, rest, rfl, place, laid⟩ := ih later (by rwa [List.getLast?_cons_cons] at last)
        refine ⟨gap ++ text ++ piece, rest, by simp only [List.append_assoc], ?_, ?_⟩
        · simpa only [Text.byteLength_append, Nat.add_assoc] using place
        · -- What the piece leaves out does not make the lexeme any longer.
          have clear : ∀ c ∈ piece.head?, k.absorbs c = false := by
            intro c first
            refine longest.clear c ?_
            obtain ⟨tail, rfl⟩ := List.head?_eq_some_iff.1 first
            rfl
          exact .token blank (Lexeme.longest_iff.2 ⟨longest.lexeme, clear⟩) laid

end Laid

/-- The text from a token to another one is a source with the tokens that stand there. -/
theorem exists_piece (whole : body source = front ++ ts ++ back) (first : ts.head? = some t)
    (last : ts.getLast? = some u) :
    ∃ before text after, source.toList = before ++ text ++ after ∧ byteLength before = t.span.start ∧
      byteLength (before ++ text) = u.span.stop ∧
      (body (String.ofList text)).map (mapSpan (Span.shift t.span.start)) = ts := by
  obtain ⟨e, same, -, others⟩ := ofText_eq source
  have inside : ∀ t ∈ ts, t.kind ≠ .eof := fun t member => others t (by simp [whole, member])
  have laid := laid_ofText source
  rw [same, whole, List.append_assoc, List.append_assoc] at laid
  obtain ⟨ts', rfl⟩ := List.head?_eq_some_iff.1 first
  obtain ⟨before, rest, split, laid⟩ := laid.behind (by simp)
  obtain ⟨gap, rest, rfl, place, laid⟩ := laid.from_first (inside t List.mem_cons_self)
  obtain ⟨text, after, rfl, stop, laid⟩ := laid.up_to last (inside u (List.mem_of_getLast? last))
  rw [Nat.zero_add, ← Text.byteLength_append] at place
  refine ⟨before ++ gap, text, after, by rw [split]; simp only [List.append_assoc], place, ?_, ?_⟩
  · rw [Text.byteLength_append, place, stop]
  · have alone := (laid_ofText (String.ofList text)).shift t.span.start
    rw [String.toList_ofList, Nat.zero_add] at alone
    rw [body, List.map_dropLast, alone.unique laid, List.dropLast_concat]

end Token

end LetLang
