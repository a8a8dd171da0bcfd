import LetLang.Proofs.Token.Lexeme

/-!
# The longest lexemes

`Lexeme.class?` tells which texts are lexemes, and of what kind. The scan stops at the end of a lexeme
that is as long as it can be, because no longer one begins there (`Lexeme.longest_iff`).
-/

namespace LetLang.Token

open Text (isGap)

/-- The lexemes that have a kind to themselves. -/
def spellings : List (String × Kind) :=
  [("fn", .kwFn), ("let", .kwLet), ("true", .kwTrue), ("false", .kwFalse), ("if", .kwIf),
    ("else", .kwElse), ("return", .kwReturn), ("==", .equal), ("!=", .notEqual), ("=", .assign),
    ("!", .bang), ("+", .plus), ("-", .minus), ("*", .star), ("/", .slash), ("<", .less),
    (">", .greater), (",", .comma), (";", .semicolon), ("(", .openParen), (")", .closeParen),
    ("\x7b", .openBrace), ("\x7d", .closeBrace)]

namespace Lexeme

variable {k k' : Kind} {c : Char} {cs text rest more : List Char} {word : String}

/-- The kind of a lexeme; a text that is not a lexeme has none. -/
def class? (text : List Char) : Option Kind :=
  match spellings.lookup (String.ofList text), text with
  | some k, _ => some k
  | none, [] => none
  | none, c :: cs =>
    if (c :: cs).all isLetter then some .ident
    else if (c :: cs).all Char.isDigit then some .int
    else if cs = [] ∧ isGap c = false then some .illegal
    else none

theorem scan?_self (h : Lexeme k cs) : scan? cs = some (k, cs.length) := by
  have whole : scan? (cs ++ []) = some (k, cs.length) := scan?_lexeme h (by simp)
  rwa [List.append_nil] at whole

theorem kind_unique (h : Lexeme k cs) (h' : Lexeme k' cs) : k = k' :=
  (Prod.mk.inj (Option.some.inj (h.scan?_self.symm.trans h'.scan?_self))).1

/-! ### The classes -/

theorem lexeme_of_lookup (h : spellings.lookup word = some k) : Lexeme k word.toList := by
  have table : ∀ p ∈ spellings, scan? p.1.toList = some (p.2, p.1.toList.length) ∧
      p.1.toList.any isGap = false := by decide
  obtain ⟨front, back, same, -⟩ := List.lookup_eq_some_iff.1 h
  obtain ⟨found, solid⟩ := table (word, k) (by simp [same])
  have cut := lexeme_of_scan? found fun c first => by
    simpa using List.any_eq_false.1 solid c (List.mem_of_mem_head? first)
  rwa [List.take_length] at cut

theorem ofWord_of_lookup (h : spellings.lookup word = none) : Kind.ofWord word = .ident := by
  have table : spellings = Kind.keywords ++ spellings.drop 7 := rfl
  rw [table, List.lookup_append, Option.or_eq_none_iff] at h
  rw [Kind.ofWord, h.1]
  rfl

theorem ofSymbol_of_lookup (h : spellings.lookup (String.ofList [c]) = none) : Kind.ofSymbol c = .illegal := by
  unfold Kind.ofSymbol
  split
  all_goals first | rfl | exact absurd h (by decide)

theorem class?_of_lexeme (h : Lexeme k cs) : class? cs = some k := by
  unfold class?
  cases found : spellings.lookup (String.ofList cs) with
  | some k' =>
    have spelled := lexeme_of_lookup found
    rw [String.toList_ofList] at spelled
    simp only [spelled.kind_unique h]
  | none =>
    obtain ⟨c, tail, rfl⟩ := List.exists_cons_of_ne_nil h.ne_nil
    simp only
    cases h with
    | word _ letters => rw [if_pos (List.all_eq_true.2 letters), ofWord_of_lookup found]
    | number _ digits =>
      have digit := digits c List.mem_cons_self
      rw [if_neg (by simp [not_letter_of_isDigit digit]), if_pos (List.all_eq_true.2 digits)]
    | equal | notEqual => exact absurd found (by decide)
    | symbol solid letter digit =>
      rw [if_neg (by simp [letter]), if_neg (by simp [digit]), if_pos ⟨rfl, solid⟩, ofSymbol_of_lookup found]

theorem lexeme_of_class? (h : class? cs = some k) : Lexeme k cs := by
  unfold class? at h
  split at h
  · rename_i found
    have spelled := lexeme_of_lookup found
    rw [String.toList_ofList] at spelled
    rwa [← Option.some.inj h]
  · exact nomatch h
  · rename_i c cs found
    by_cases letters : (c :: cs).all isLetter = true
    · rw [if_pos letters, ← ofWord_of_lookup found] at h
      rw [← Option.some.inj h]
      exact .word (List.cons_ne_nil c cs) (List.all_eq_true.1 letters)
    · rw [if_neg letters] at h
      by_cases digits : (c :: cs).all Char.isDigit = true
      · rw [if_pos digits] at h
        rw [← Option.some.inj h]
        exact .number (List.cons_ne_nil c cs) (List.all_eq_true.1 digits)
      · rw [if_neg digits] at h
        by_cases single : cs = [] ∧ isGap c = false
        · obtain ⟨rfl, solid⟩ := single
          rw [if_pos ⟨rfl, solid⟩, ← ofSymbol_of_lookup found] at h
          rw [← Option.some.inj h]
          exact .symbol solid (by simpa using letters) (by simpa using digits)
        · rw [if_neg single] at h
          exact nomatch h

theorem class?_eq_some_iff : class? cs = some k ↔ Lexeme k cs := ⟨lexeme_of_class?, class?_of_lexeme⟩

/-! ### Longer lexemes -/

/-- The scan stops in front of a character that does not go on with the lexeme. -/
theorem absorbs_of_longer (h : Lexeme k text) (longer : Lexeme k' (text ++ c :: more)) : k.absorbs c = true := by
  rw [← Bool.not_eq_false]
  intro clear
  have short : scan? (text ++ c :: more) = some (k, text.length) := scan?_lexeme h (by simpa using clear)
  have long := longer.scan?_self
  rw [short] at long
  simp at long

theorem exists_longer (h : Lexeme k text) (absorbs : k.absorbs c = true) : ∃ k', Lexeme k' (text ++ [c]) := by
  cases h with
  | word _ letters =>
    rw [Kind.absorbs_ofWord] at absorbs
    exact ⟨_, .word (by simp) (List.forall_mem_append.2 ⟨letters, List.forall_mem_singleton.2 absorbs⟩)⟩
  | number _ digits =>
    exact ⟨_, .number (by simp) (List.forall_mem_append.2 ⟨digits, List.forall_mem_singleton.2 absorbs⟩)⟩
  | equal | notEqual => contradiction
  | @symbol x =>
    by_cases sign : x = '=' ∨ x = '!'
    · rw [Kind.absorbs_ofSymbol sign, beq_iff_eq] at absorbs
      subst absorbs
      rcases sign with rfl | rfl
      · exact ⟨_, .equal⟩
      · exact ⟨_, .notEqual⟩
    · rw [not_or] at sign
      rw [Kind.absorbs_ofSymbol_of_ne sign.1 sign.2] at absorbs
      contradiction

/-- The text is a lexeme of the kind, and in front of `rest` there is no longer one. -/
structure Longest (k : Kind) (text rest : List Char) : Prop where
  kind : class? text = some k
  longest (longer : List Char) (here : longer <+: text ++ rest) (more : text.length < longer.length) :
    class? longer = none

theorem longest_iff : Longest k text rest ↔ Lexeme k text ∧ ∀ c ∈ rest.head?, k.absorbs c = false := by
  constructor
  · intro h
    have lexeme := class?_eq_some_iff.1 h.kind
    refine ⟨lexeme, fun c next => ?_⟩
    rw [← Bool.not_eq_true]
    intro absorbs
    obtain ⟨k', longer⟩ := lexeme.exists_longer absorbs
    obtain ⟨tail, rfl⟩ := List.head?_eq_some_iff.1 next
    have none := h.longest (text ++ [c]) ⟨tail, by simp⟩ (by simp)
    rw [class?_eq_some_iff.2 longer] at none
    contradiction
  · rintro ⟨lexeme, clear⟩
    refine ⟨class?_eq_some_iff.2 lexeme, fun longer here more => ?_⟩
    rw [Option.eq_none_iff_forall_ne_some]
    intro k' found
    obtain ⟨behind, rfl⟩ := List.prefix_of_prefix_length_le ⟨rest, rfl⟩ here (Nat.le_of_lt more)
    cases behind with
    | nil => simp at more
    | cons c behind =>
      obtain ⟨tail, rfl⟩ := (List.prefix_append_right_inj text).1 here
      have absorbs := lexeme.absorbs_of_longer (class?_eq_some_iff.1 found)
      rw [clear c rfl] at absorbs
      contradiction

theorem Longest.lexeme (h : Longest k text rest) : Lexeme k text := (longest_iff.1 h).1

theorem Longest.clear (h : Longest k text rest) : ∀ c ∈ rest.head?, k.absorbs c = false := (longest_iff.1 h).2

end Lexeme

end LetLang.Token
