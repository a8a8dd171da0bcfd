import LetLang.Power
import LetLang.Token.Cursor
import Mathlib.Data.List.TakeWhile

/-!
# Lexemes of each kind

`Lexeme` says which texts a kind of token has. The scan cuts such a text off every text that no gap
opens (`lexeme_of_scan?`), and it reads a given one back in front of anything that does not go on
with it (`scan?_lexeme`).
-/

namespace LetLang

theorem Text.takeWhile_run {p : Char → Bool} {cs rest : List Char} (run : ∀ c ∈ cs, p c = true)
    (stop : ∀ c ∈ rest.head?, p c = false) : (cs ++ rest).takeWhile p = cs := by
  rw [List.takeWhile_append_of_pos run]
  cases rest with
  | nil => simp
  | cons c rest => simp [stop c rfl]

/-- In ASCII only control characters and the space are blanks. -/
theorem Text.not_blank_of_visible {c : Char} (low : 0x20 < c.toNat) (high : c.toNat < 0x7f) : isBlank c = false := by
  simp only [isBlank, Bool.or_eq_false_iff, Bool.and_eq_false_iff, decide_eq_false_iff_not, beq_eq_false_iff_ne]
  omega

theorem Text.not_gap_of_not_blank {c : Char} (h : isBlank c = false) : isGap c = false := by
  rw [← Bool.not_eq_true]
  intro gap
  rw [isBlank_of_isGap c gap] at h
  contradiction

namespace Token

open Text (isGap isBlank)

/-- The texts of a kind of token. -/
inductive Lexeme : Kind → List Char → Prop where
  | word {cs} (nonempty : cs ≠ []) (letters : ∀ c ∈ cs, Lexeme.isLetter c = true) :
      Lexeme (.ofWord (String.ofList cs)) cs
  | number {cs} (nonempty : cs ≠ []) (digits : ∀ c ∈ cs, c.isDigit = true) : Lexeme .int cs
  | equal : Lexeme .equal ['=', '=']
  | notEqual : Lexeme .notEqual ['!', '=']
  | symbol {c} (solid : isGap c = false) (letter : Lexeme.isLetter c = false)
      (digit : c.isDigit = false) : Lexeme (.ofSymbol c) [c]

/-- Would the character go on with a lexeme of this kind? -/
def Kind.absorbs : Kind → Char → Bool
  | .int, c => c.isDigit
  | .assign, c | .bang, c => c == '='
  | .ident, c | .kwFn, c | .kwLet, c | .kwTrue, c | .kwFalse, c | .kwIf, c | .kwElse, c
  | .kwReturn, c => Lexeme.isLetter c
  | _, _ => false

theorem Kind.absorbs_ofWord (word : String) : (ofWord word).absorbs = Lexeme.isLetter := by
  have member := ofWord_mem word
  simp only [keywords, List.map_cons, List.map_nil, List.mem_cons, List.not_mem_nil, or_false] at member
  rcases member with h | h | h | h | h | h | h | h <;> rw [h] <;> rfl

theorem Kind.absorbs_ofSymbol {c : Char} (h : c = '=' ∨ c = '!') (d : Char) :
    (ofSymbol c).absorbs d = (d == '=') := by
  rcases h with rfl | rfl <;> rfl

theorem Kind.absorbs_ofSymbol_of_ne {c : Char} (equals : c ≠ '=') (bang : c ≠ '!') (d : Char) :
    (ofSymbol c).absorbs d = false := by
  unfold ofSymbol
  split <;> first | contradiction | rfl

theorem Kind.absorbs_eq_false {c : Char} (letter : Lexeme.isLetter c = false) (digit : c.isDigit = false)
    (sign : c ≠ '=') (k : Kind) : k.absorbs c = false := by
  cases k <;> simp [absorbs, letter, digit, sign]

theorem Kind.mem_keywords {word : String} {k : Kind} (h : ofWord word = k) (reserved : k ≠ .ident) :
    (word, k) ∈ keywords := by
  unfold ofWord at h
  cases found : keywords.lookup word with
  | none =>
    rw [found] at h
    exact absurd h.symm reserved
  | some k' =>
    rw [found] at h
    obtain rfl : k' = k := h
    obtain ⟨front, back, same, -⟩ := List.lookup_eq_some_iff.1 found
    simp [same]

theorem Kind.ofSymbol_notMem (c : Char) : ofSymbol c ∉ int :: ident :: keywords.map Prod.snd := by
  unfold ofSymbol
  split <;> decide

theorem Kind.name_ofSymbol (c : Char) : ofSymbol c = .illegal ∨ (ofSymbol c).name = String.ofList [c] := by
  unfold ofSymbol
  split
  all_goals first | exact .inr rfl | exact .inl rfl

theorem Kind.ofSymbol_of_blank {c : Char} (h : isBlank c = true) : ofSymbol c = .illegal := by
  unfold ofSymbol
  split
  all_goals first | rfl | exact absurd h (by decide)

namespace Lexeme

variable {k : Kind} {c : Char} {cs rest : List Char} {n : Nat}

theorem not_blank_of_isLetter (h : isLetter c = true) : isBlank c = false := by
  delta isLetter Char.isAlpha Char.isUpper Char.isLower at h
  simp only [Bool.or_eq_true, Bool.and_eq_true, decide_eq_true_eq, beq_iff_eq, ge_iff_le,
    UInt32.le_iff_toNat_le] at h
  rcases h with (⟨low, high⟩ | ⟨low, high⟩) | rfl
  · exact Text.not_blank_of_visible (Nat.lt_of_lt_of_le (by decide) low) (Nat.lt_of_le_of_lt high (by decide))
  · exact Text.not_blank_of_visible (Nat.lt_of_lt_of_le (by decide) low) (Nat.lt_of_le_of_lt high (by decide))
  · rfl

theorem not_blank_of_isDigit (h : c.isDigit = true) : isBlank c = false := by
  simp only [Char.isDigit, Bool.and_eq_true, decide_eq_true_eq, ge_iff_le, UInt32.le_iff_toNat_le] at h
  exact Text.not_blank_of_visible (Nat.lt_of_lt_of_le (by decide) h.1) (Nat.lt_of_le_of_lt h.2 (by decide))

theorem not_gap_of_isLetter (h : isLetter c = true) : isGap c = false :=
  Text.not_gap_of_not_blank (not_blank_of_isLetter h)

theorem not_gap_of_isDigit (h : c.isDigit = true) : isGap c = false :=
  Text.not_gap_of_not_blank (not_blank_of_isDigit h)

theorem not_letter_of_isDigit (h : c.isDigit = true) : isLetter c = false := by
  rw [← Bool.not_eq_true]
  intro letter
  delta isLetter Char.isAlpha Char.isUpper Char.isLower at letter
  simp only [Char.isDigit, Bool.or_eq_true, Bool.and_eq_true, decide_eq_true_eq, beq_iff_eq, ge_iff_le,
    UInt32.le_iff_toNat_le] at h letter
  rcases letter with (⟨low, -⟩ | ⟨low, -⟩) | rfl
  · exact absurd (Nat.le_trans low h.2) (by decide)
  · exact absurd (Nat.le_trans low h.2) (by decide)
  · exact absurd h.2 (by decide)

theorem not_digit_of_isLetter (h : isLetter c = true) : c.isDigit = false := by
  rw [← Bool.not_eq_true]
  intro digit
  rw [not_letter_of_isDigit digit] at h
  contradiction

theorem ne_nil (h : Lexeme k cs) : cs ≠ [] := by
  cases h <;> first | assumption | simp

theorem kind_ne_eof (h : Lexeme k cs) : k ≠ .eof := by
  cases h with
  | word => exact Kind.ofWord_ne_eof _
  | symbol => exact Kind.ofSymbol_ne_eof _
  | _ => decide

theorem gapless (h : Lexeme k cs) : ∀ c ∈ cs, isGap c = false := by
  cases h with
  | word _ letters => exact fun c member => not_gap_of_isLetter (letters c member)
  | number _ digits => exact fun c member => not_gap_of_isDigit (digits c member)
  | equal | notEqual => simp [isGap]
  | symbol solid => simpa using solid

theorem head_not_gap (h : Lexeme k (c :: cs)) : isGap c = false := h.gapless c List.mem_cons_self

/-- Only a foreign character may be a blank. -/
theorem eq_illegal_of_blank (h : Lexeme k cs) (member : c ∈ cs) (blank : isBlank c = true) :
    k = .illegal ∧ cs = [c] := by
  cases h with
  | word _ letters => exact absurd (not_blank_of_isLetter (letters c member)) (by simp [blank])
  | number _ digits => exact absurd (not_blank_of_isDigit (digits c member)) (by simp [blank])
  | equal | notEqual =>
    simp only [List.mem_cons, List.not_mem_nil, or_false] at member
    rcases member with rfl | rfl <;> contradiction
  | symbol =>
    obtain rfl := List.mem_singleton.1 member
    exact ⟨Kind.ofSymbol_of_blank blank, rfl⟩

/-! ### The scan -/

theorem scan?_cons (single : ¬ ((c = '=' ∨ c = '!') ∧ cs.head? = some '=')) :
    scan? (c :: cs) =
      if isLetter c then
        some (.ofWord (String.ofList ((c :: cs).takeWhile isLetter)), ((c :: cs).takeWhile isLetter).length)
      else if c.isDigit then some (.int, ((c :: cs).takeWhile Char.isDigit).length)
      else some (.ofSymbol c, 1) := by
  unfold scan?
  split
  · contradiction
  · rename_i same
    obtain ⟨rfl, rfl⟩ := List.cons.inj same
    simp at single
  · rename_i same
    obtain ⟨rfl, rfl⟩ := List.cons.inj same
    simp at single
  · rename_i same
    obtain ⟨rfl, rfl⟩ := List.cons.inj same
    rfl

/-- A lexeme is read back whole where no longer one begins. -/
theorem scan?_lexeme (h : Lexeme k cs) (clear : ∀ c ∈ rest.head?, k.absorbs c = false) :
    scan? (cs ++ rest) = some (k, cs.length) := by
  cases h with
  | word nonempty letters =>
    rw [Kind.absorbs_ofWord] at clear
    have run := Text.takeWhile_run letters clear
    obtain ⟨c, tail, rfl⟩ := List.exists_cons_of_ne_nil nonempty
    have letter := letters c List.mem_cons_self
    rw [List.cons_append] at run ⊢
    rw [scan?_cons, if_pos letter, run]
    rintro ⟨rfl | rfl, -⟩ <;> contradiction
  | number nonempty digits =>
    have run := Text.takeWhile_run digits clear
    obtain ⟨c, tail, rfl⟩ := List.exists_cons_of_ne_nil nonempty
    have digit := digits c List.mem_cons_self
    rw [List.cons_append] at run ⊢
    rw [scan?_cons, if_neg (by simp [not_letter_of_isDigit digit]), if_pos digit, run]
    · rintro ⟨rfl | rfl, -⟩ <;> contradiction
  | equal => rfl
  | notEqual => rfl
  | @symbol c solid letter digit =>
    rw [List.singleton_append, scan?_cons, if_neg (by simp [letter]), if_neg (by simp [digit])]
    · rfl
    · rintro ⟨sign, next⟩
      have stops := clear '=' next
      rw [Kind.absorbs_ofSymbol sign] at stops
      contradiction

theorem lexeme_of_scan? (h : scan? cs = some (k, n)) (solid : ∀ c ∈ cs.head?, isGap c = false) :
    Lexeme k (cs.take n) := by
  have cut : ∀ p : Char → Bool, cs.take (cs.takeWhile p).length = cs.takeWhile p := fun p =>
    (List.prefix_iff_eq_take.1 (List.takeWhile_prefix p)).symm
  have inside : ∀ p : Char → Bool, ∀ c ∈ cs.takeWhile p, p c = true := fun p c => List.mem_takeWhile_imp
  unfold scan? at h
  split at h
  · exact nomatch h
  · obtain ⟨rfl, rfl⟩ := Prod.mk.inj (Option.some.inj h)
    exact .equal
  · obtain ⟨rfl, rfl⟩ := Prod.mk.inj (Option.some.inj h)
    exact .notEqual
  · rename_i c cs _ _
    split at h
    · rename_i letter
      obtain ⟨rfl, rfl⟩ := Prod.mk.inj (Option.some.inj h)
      rw [cut]
      exact .word (by simp [letter]) (inside _)
    · split at h
      · rename_i digit
        obtain ⟨rfl, rfl⟩ := Prod.mk.inj (Option.some.inj h)
        rw [cut]
        exact .number (by simp [digit]) (inside _)
      · rename_i letter digit
        obtain ⟨rfl, rfl⟩ := Prod.mk.inj (Option.some.inj h)
        exact .symbol (solid c rfl) (by simpa using letter) (by simpa using digit)

/-- Nothing behind the scanned lexeme goes on with it. -/
theorem clear_of_scan? (h : scan? cs = some (k, n)) : ∀ c ∈ (cs.drop n).head?, k.absorbs c = false := by
  have behind : ∀ p : Char → Bool, ∀ c ∈ (cs.drop (cs.takeWhile p).length).head?, p c = false := by
    intro p c first
    have stops := List.head?_dropWhile_not p cs
    rw [← Text.drop_takeWhile p cs, show (cs.drop (cs.takeWhile p).length).head? = some c from first] at stops
    exact stops
  unfold scan? at h
  split at h
  · exact nomatch h
  · obtain ⟨rfl, -⟩ := Prod.mk.inj (Option.some.inj h)
    exact fun _ _ => rfl
  · obtain ⟨rfl, -⟩ := Prod.mk.inj (Option.some.inj h)
    exact fun _ _ => rfl
  · rename_i c cs equal notEqual
    split at h
    · obtain ⟨rfl, rfl⟩ := Prod.mk.inj (Option.some.inj h)
      rw [Kind.absorbs_ofWord]
      exact behind _
    · split at h
      · obtain ⟨rfl, rfl⟩ := Prod.mk.inj (Option.some.inj h)
        exact behind _
      · obtain ⟨rfl, rfl⟩ := Prod.mk.inj (Option.some.inj h)
        intro d next
        by_cases sign : c = '=' ∨ c = '!'
        · rw [Kind.absorbs_ofSymbol sign, beq_eq_false_iff_ne]
          rintro rfl
          obtain ⟨tail, rfl⟩ := List.head?_eq_some_iff.1 next
          rcases sign with rfl | rfl
          · exact equal tail rfl rfl
          · exact notEqual tail rfl rfl
        · exact Kind.absorbs_ofSymbol_of_ne (fun same => sign (.inl same)) (fun same => sign (.inr same)) d

/-! ### What the kind says about the text -/

theorem name_inv (h : Lexeme k cs) (kind : k = .ident) :
    cs ≠ [] ∧ (∀ c ∈ cs, isLetter c = true) ∧ Kind.isReserved (String.ofList cs) = false := by
  cases h with
  | word nonempty letters => exact ⟨nonempty, letters, (Kind.ofWord_eq_ident_iff _).1 kind⟩
  | number | equal | notEqual => contradiction
  | @symbol c => exact absurd (by simp [kind]) (Kind.ofSymbol_notMem c)

theorem number_inv (h : Lexeme k cs) (kind : k = .int) : cs ≠ [] ∧ ∀ c ∈ cs, c.isDigit = true := by
  cases h with
  | word => exact absurd kind (Kind.ofWord_ne (by decide) _)
  | number nonempty digits => exact ⟨nonempty, digits⟩
  | equal | notEqual => contradiction
  | @symbol c => exact absurd (by simp [kind]) (Kind.ofSymbol_notMem c)

theorem keyword_inv (h : Lexeme k cs) (keyword : k ∈ Kind.keywords.map Prod.snd) :
    (String.ofList cs, k) ∈ Kind.keywords := by
  cases h with
  | word nonempty letters =>
    refine Kind.mem_keywords rfl ?_
    intro free
    rw [free] at keyword
    exact absurd keyword (by decide)
  | number | equal | notEqual => exact absurd keyword (by decide)
  | @symbol c => exact absurd (by simp [keyword]) (Kind.ofSymbol_notMem c)

theorem sign_inv (h : Lexeme k cs) (sign : k.isOperator = true ∨ k = .bang) : String.ofList cs = k.name := by
  cases h with
  | @word cs =>
    have no : ∀ k ∈ Kind.ident :: Kind.keywords.map Prod.snd, ¬ (k.isOperator = true ∨ k = .bang) := by decide
    exact absurd sign (no _ (Kind.ofWord_mem _))
  | number => exact absurd sign (by decide)
  | equal | notEqual => rfl
  | @symbol c =>
    rcases Kind.name_ofSymbol c with unknown | known
    · rw [unknown] at sign
      exact absurd sign (by decide)
    · exact known.symm

end Lexeme

end Token

end LetLang
