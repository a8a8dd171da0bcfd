import LetLang.Proofs.Token.Layout

/-!
# Lexemes put together

Lexemes with a gap between each two of them are cut where they were put together. They are read back with
their kinds, their texts and their places (`ofText_joined`).
-/

namespace LetLang.Token

open Text (byteLength isGap)

/-- A lexeme and the gap in front of it. -/
structure Piece where
  gap : String
  kind : Kind
  text : String
  blank : ∀ c ∈ gap.toList, c ∈ [' ', '\t', '\n', '\r']
  lexeme : Lexeme.class? text.toList = some kind

/-- The pieces one after the other, and a gap at the end. -/
def joined (pieces : List Piece) (last : String) : String :=
  String.join (pieces.map fun x => x.gap ++ x.text) ++ last

/-- The pieces as tokens. Each stands behind the ones in front of it and its own gap. -/
def ofPieces (pieces : List Piece) : List Token :=
  pieces.mapIdx fun i x =>
    let start := byteLength (joined (pieces.take i) x.gap).toList
    ⟨x.kind, x.text, ⟨start, start + byteLength x.text.toList⟩⟩

variable {x : Piece} {pieces : List Piece} {last : String} {c : Char}

theorem Kind.absorbs_of_gap (gap : isGap c = true) (k : Kind) : k.absorbs c = false := by
  have listed := Text.isGap_iff.1 gap
  simp only [List.mem_cons, List.not_mem_nil, or_false] at listed
  rcases listed with rfl | rfl | rfl | rfl <;> exact absorbs_eq_false rfl rfl (by decide) k

theorem Piece.gap_of_mem (x : Piece) : ∀ c ∈ x.gap.toList, isGap c = true := fun c member =>
  Text.isGap_iff.2 (x.blank c member)

theorem toList_joined_nil (last : String) : (joined [] last).toList = last.toList := by
  simp [joined]

theorem toList_joined_cons (x : Piece) (pieces : List Piece) (last : String) :
    (joined (x :: pieces) last).toList = x.gap.toList ++ x.text.toList ++ (joined pieces last).toList := by
  simp [joined]

/-- Behind a piece there is a gap, or nothing. -/
theorem head_joined (apart : ∀ x ∈ pieces, x.gap ≠ "") (blank : ∀ c ∈ last.toList, isGap c = true) :
    ∀ c ∈ (joined pieces last).toList.head?, isGap c = true := by
  intro c first
  cases pieces with
  | nil =>
    rw [toList_joined_nil] at first
    exact blank c (List.mem_of_mem_head? first)
  | cons x pieces =>
    have nonempty := mt String.toList_eq_nil_iff.1 (apart x List.mem_cons_self)
    obtain ⟨d, gap, same⟩ := List.exists_cons_of_ne_nil nonempty
    rw [toList_joined_cons, same] at first
    obtain rfl : d = c := Option.some.inj first
    exact x.gap_of_mem d (by simp [same])

/-- From place `p` on, the pieces are laid out as their tokens. -/
theorem laid_joined (apart : ∀ x ∈ pieces.tail, x.gap ≠ "") (blank : ∀ c ∈ last.toList, isGap c = true) (p : Nat) :
    Laid p (joined pieces last).toList
      (pieces.mapIdx (fun i x =>
          placed x.kind x.text.toList (p + byteLength (joined (pieces.take i) x.gap).toList)) ++
        [endAt (p + byteLength (joined pieces last).toList)]) := by
  induction pieces generalizing p with
  | nil =>
    rw [toList_joined_nil, List.mapIdx_nil, List.nil_append]
    exact .ended blank
  | cons x pieces ih =>
    have behind := head_joined apart blank
    have clear : ∀ c ∈ (joined pieces last).toList.head?, x.kind.absorbs c = false := fun c first =>
      Kind.absorbs_of_gap (behind c first) _
    have longest := Lexeme.longest_iff.2 ⟨Lexeme.class?_eq_some_iff.1 x.lexeme, clear⟩
    have later := ih (fun y member => apart y (List.mem_of_mem_tail member))
    have whole := Laid.token x.gap_of_mem longest (later (p + byteLength x.gap.toList + byteLength x.text.toList))
    simpa only [List.mapIdx_cons, List.take_zero, List.take_succ_cons, toList_joined_nil, toList_joined_cons,
      Text.byteLength_append, Nat.add_assoc, List.cons_append] using whole

/-- Lexemes with gaps between them and around them are read back as they are, each at the place where it was
put, and the end token behind them. -/
theorem ofText_joined (pieces : List Piece) (last : String) (apart : ∀ x ∈ pieces.tail, x.gap ≠ "")
    (blank : ∀ c ∈ last.toList, c ∈ [' ', '\t', '\n', '\r']) :
    ofText (joined pieces last) = ofPieces pieces ++
      [⟨.eof, "", ⟨byteLength (joined pieces last).toList, byteLength (joined pieces last).toList⟩⟩] := by
  have laid := laid_joined apart (fun c member => Text.isGap_iff.2 (blank c member)) 0
  simp only [Nat.zero_add, placed, String.ofList_toList] at laid
  exact laid.eq_ofText.symm

/-- A foreign character of two bytes, and two equals signs that are apart. -/
theorem ofText_joined_signs :
    ∃ pieces : List Piece, joined pieces "\n" = "\tlet é\r\n= = 007\n" ∧ (∀ x ∈ pieces.tail, x.gap ≠ "") ∧
      (∀ c ∈ "\n".toList, c ∈ [' ', '\t', '\n', '\r']) ∧
      ofPieces pieces = [⟨.kwLet, "let", ⟨1, 4⟩⟩, ⟨.illegal, "é", ⟨5, 7⟩⟩, ⟨.assign, "=", ⟨9, 10⟩⟩,
        ⟨.assign, "=", ⟨11, 12⟩⟩, ⟨.int, "007", ⟨13, 16⟩⟩] ∧
      ofText (joined pieces "\n") = ofPieces pieces ++
        [⟨.eof, "", ⟨byteLength (joined pieces "\n").toList, byteLength (joined pieces "\n").toList⟩⟩] := by
  refine ⟨[⟨"\t", .kwLet, "let", by simp, by decide⟩, ⟨" ", .illegal, "é", by simp, by decide⟩,
    ⟨"\r\n", .assign, "=", by simp, by decide⟩, ⟨" ", .assign, "=", by simp, by decide⟩,
    ⟨" ", .int, "007", by simp, by decide⟩], by decide +kernel, by simp, by simp, by decide +kernel, ?_⟩
  exact ofText_joined _ "\n" (by simp) (by simp)

end LetLang.Token
