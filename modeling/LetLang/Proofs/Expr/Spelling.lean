import LetLang.Proofs.Expr.Grammar
import LetLang.Proofs.Expr.Lockstep
import LetLang.Proofs.Token.Spelling

/-!
# The canonical text of an expression

The canonical text of an expression whose tokens, names and values agree is cut into `lexemes`
(`Agrees.lexes`). If the numbers are not too large either, these are a form of the expression that nests
`levels` deep (`WellFormed.derives`).
-/

namespace LetLang

open Parse (State)
open Token (Kind Lexes Lexeme)

theorem Token.mapSpan_null_eq {t u : Token} (h : t.lexeme = u.lexeme) :
    t.mapSpan (fun _ => .null) = u.mapSpan fun _ => .null := by
  obtain ⟨kind, text⟩ := Prod.mk.inj h
  rw [mapSpan, mapSpan, kind, text]

/-- The token is a name: a word that is not reserved. -/
structure Token.IsName (t : Token) : Prop where
  kind : t.kind = .ident
  nonempty : t.text.toList ≠ []
  letters : ∀ c ∈ t.text.toList, Lexeme.isLetter c = true
  free : Kind.isReserved t.text = false

/-- The token is a number of any size. -/
structure Token.IsNumeral (t : Token) : Prop where
  kind : t.kind = .int
  nonempty : t.text.toList ≠ []
  digits : ∀ c ∈ t.text.toList, c.isDigit = true

/-- The token is a number that fits in 64 bits. -/
structure Token.IsNumber (t : Token) : Prop where
  kind : t.kind = .int
  nonempty : t.text.toList ≠ []
  digits : ∀ c ∈ t.text.toList, c.isDigit = true
  fits : (Decimal.value t.text.toList : Int) ≤ Decimal.maximum

theorem Token.IsName.lexeme {t : Token} (h : t.IsName) : Lexeme t.kind t.text.toList := by
  rw [h.kind]
  exact lexeme_word ((Kind.ofWord_eq_ident_iff _).2 h.free) h.nonempty h.letters

theorem Token.IsNumeral.lexeme {t : Token} (h : t.IsNumeral) : Lexeme t.kind t.text.toList := by
  rw [h.kind]
  exact .number h.nonempty h.digits

theorem Token.IsNumber.numeral {t : Token} (h : t.IsNumber) : t.IsNumeral := ⟨h.kind, h.nonempty, h.digits⟩

namespace Expr

/-- Expressions as they are read: names, values and operators are those of the tokens. -/
inductive WellFormed : Expr → Prop where
  | ident {t} (name : t.IsName) : WellFormed (.ident t t.text)
  | int {t} (number : t.IsNumber) : WellFormed (.int t (Decimal.value t.text.toList))
  | bool {t b} (keyword : t.lexeme = if b then (.kwTrue, "true") else (.kwFalse, "false")) :
      WellFormed (.bool t b)
  | unary {t e} (kind : t.kind = .bang ∨ t.kind = .minus) (spelled : t.text = t.kind.name)
      (operand : e.WellFormed) : WellFormed (.unary t t.text e)
  | binary {t l r} (kind : t.kind.isOperator = true) (spelled : t.text = t.kind.name)
      (left : l.WellFormed) (right : r.WellFormed) : WellFormed (.binary t t.text l r)

/-- Expressions whose names, values and operators are those of the tokens. A value may be too large to be
read. -/
inductive Agrees : Expr → Prop where
  | ident {t} (name : t.IsName) : Agrees (.ident t t.text)
  | int {t} (numeral : t.IsNumeral) : Agrees (.int t (Decimal.value t.text.toList))
  | bool {t b} (keyword : t.lexeme = if b then (.kwTrue, "true") else (.kwFalse, "false")) : Agrees (.bool t b)
  | unary {t e} (kind : t.kind = .bang ∨ t.kind = .minus) (spelled : t.text = t.kind.name)
      (operand : e.Agrees) : Agrees (.unary t t.text e)
  | binary {t l r} (kind : t.kind.isOperator = true) (spelled : t.text = t.kind.name)
      (left : l.Agrees) (right : r.Agrees) : Agrees (.binary t t.text l r)

/-- The expression without its places. -/
def unplaced (e : Expr) : Expr := e.mapSpan fun _ => .null

/-- How deep the canonical text nests. -/
def levels : Expr → Nat
  | unary _ _ operand => 2 + operand.levels
  | binary _ _ left right => max (1 + left.levels) (2 + right.levels)
  | _ => 1

/-- The tokens of the canonical text. -/
def lexemes : Expr → List (Kind × String)
  | unary t _ operand => (.openParen, "(") :: t.lexeme :: operand.lexemes ++ [(.closeParen, ")")]
  | binary t _ left right =>
    (.openParen, "(") :: (left.lexemes ++ t.lexeme :: right.lexemes) ++ [(.closeParen, ")")]
  | e => [e.token.lexeme]

/-- The kind of the last token of the canonical text. -/
def edge : Expr → Kind
  | unary .. | binary .. => .closeParen
  | e => e.token.kind

/-- A name or a truth value. -/
def isWord : Expr → Bool
  | ident .. | bool .. => true
  | _ => false

def isNumber : Expr → Bool
  | int .. => true
  | _ => false

variable {c : Char} {t : Token} {e left right : Expr} {operator : String} {rest : List Char} {ts : List Token}

@[simp] theorem literal_unplaced (e : Expr) : e.unplaced.literal = e.literal := by cases e <;> rfl

@[simp] theorem isWord_unplaced (e : Expr) : e.unplaced.isWord = e.isWord := by cases e <;> rfl

@[simp] theorem isNumber_unplaced (e : Expr) : e.unplaced.isNumber = e.isNumber := by cases e <;> rfl

theorem toList_render_unary :
    (unary t operator e).render.toList = '(' :: (operator.toList ++ (e.render.toList ++ [')'])) := by
  simp [render, toString]

theorem toList_render_binary :
    (binary t operator left right).render.toList =
      '(' :: (left.render.toList ++ ([' '] ++ (operator.toList ++ ([' '] ++ (right.render.toList ++ [')']))))) := by
  simp [render, toString]

/-! ### Reading the canonical text back -/

theorem WellFormed.agrees (h : e.WellFormed) : e.Agrees := by
  induction h with
  | ident name => exact .ident name
  | int number => exact .int number.numeral
  | bool keyword => exact .bool keyword
  | unary kind spelled operand ih => exact .unary kind spelled ih
  | binary kind spelled left right first second => exact .binary kind spelled first second

theorem lexeme_of_bool {b : Bool} (h : t.lexeme = if b then (.kwTrue, "true") else (.kwFalse, "false")) :
    Lexeme t.kind t.text.toList := by
  have yes : Lexeme .kwTrue "true".toList := Token.lexeme_word rfl (by decide) (List.all_eq_true.1 rfl)
  have no : Lexeme .kwFalse "false".toList := Token.lexeme_word rfl (by decide) (List.all_eq_true.1 rfl)
  cases b with
  | true =>
    obtain ⟨kind, text⟩ := Prod.mk.inj h
    rw [kind, text]
    exact yes
  | false =>
    obtain ⟨kind, text⟩ := Prod.mk.inj h
    rw [kind, text]
    exact no

/-- How the canonical text of an expression starts. -/
def Opens (c : Char) : Expr → Prop
  | ident .. | bool .. => Lexeme.isLetter c = true
  | int .. => c.isDigit = true
  | unary .. | binary .. => c = '('

theorem Agrees.opens (h : e.Agrees) : ∃ c cs, e.render.toList = c :: cs ∧ e.Opens c := by
  cases h with
  | ident name =>
    obtain ⟨c, cs, same⟩ := List.exists_cons_of_ne_nil name.nonempty
    exact ⟨c, cs, same, name.letters c (by simp [same])⟩
  | int numeral =>
    obtain ⟨c, cs, same⟩ := List.exists_cons_of_ne_nil numeral.nonempty
    exact ⟨c, cs, same, numeral.digits c (by simp [same])⟩
  | @bool t b keyword =>
    cases b with
    | true => exact ⟨'t', _, congrArg String.toList (Prod.mk.inj keyword).2, rfl⟩
    | false => exact ⟨'f', _, congrArg String.toList (Prod.mk.inj keyword).2, rfl⟩
  | unary => exact ⟨'(', _, toList_render_unary, rfl⟩
  | binary => exact ⟨'(', _, toList_render_binary, rfl⟩

theorem Opens.isLetter_eq (h : e.Opens c) : Lexeme.isLetter c = e.isWord := by
  cases e with
  | ident | bool => exact h
  | int => exact Lexeme.not_letter_of_isDigit h
  | unary | binary =>
    obtain rfl : c = '(' := h
    rfl

theorem Opens.isDigit_eq (h : e.Opens c) : c.isDigit = e.isNumber := by
  cases e with
  | ident | bool => exact Lexeme.not_digit_of_isLetter h
  | int => exact h
  | unary | binary =>
    obtain rfl : c = '(' := h
    rfl

theorem Opens.ne_equals (h : e.Opens c) : c ≠ '=' := by
  rintro rfl
  cases e with
  | ident | bool | int => contradiction
  | unary | binary => exact absurd (show '=' = '(' from h) (by decide)

/-- Only a name, a truth value or a number can go on behind its last character. -/
theorem WellFormed.edge_absorbs (h : e.WellFormed) (c : Char) :
    e.edge.absorbs c = (e.isWord && Lexeme.isLetter c || e.isNumber && c.isDigit) := by
  cases h with
  | ident name => simp [edge, token, name.kind, Kind.absorbs, isWord, isNumber]
  | int number => simp [edge, token, number.kind, Kind.absorbs, isWord, isNumber]
  | @bool t b keyword => cases b <;> simp [edge, token, (Prod.mk.inj keyword).1, Kind.absorbs, isWord, isNumber]
  | unary | binary => rfl

theorem WellFormed.render_leaf (h : e.WellFormed) (leaf : e.isWord = true ∨ e.isNumber = true) :
    e.render = e.literal := by
  cases h with
  | ident | int | bool => rfl
  | unary | binary => rcases leaf with leaf | leaf <;> contradiction

theorem WellFormed.letters (h : e.WellFormed) (word : e.isWord = true) :
    ∀ c ∈ e.render.toList, Lexeme.isLetter c = true := by
  cases h with
  | ident name => exact name.letters
  | @bool t b keyword =>
    have spelled : t.text = "true" ∨ t.text = "false" := by
      cases b
      · exact .inr (Prod.mk.inj keyword).2
      · exact .inl (Prod.mk.inj keyword).2
    rw [render]
    rcases spelled with spelled | spelled <;> rw [spelled] <;> exact List.all_eq_true.1 rfl
  | int | unary | binary => contradiction

theorem WellFormed.digits (h : e.WellFormed) (numeral : e.isNumber = true) :
    ∀ c ∈ e.render.toList, c.isDigit = true := by
  cases h with
  | int number => exact number.digits
  | ident | bool | unary | binary => contradiction

theorem WellFormed.of_mem_nodes {e' : Expr} (h : e.WellFormed) (member : e' ∈ e.nodes) : e'.WellFormed := by
  induction h with
  | ident name =>
    obtain rfl := List.mem_singleton.1 member
    exact .ident name
  | int number =>
    obtain rfl := List.mem_singleton.1 member
    exact .int number
  | bool keyword =>
    obtain rfl := List.mem_singleton.1 member
    exact .bool keyword
  | unary kind spelled operand ih =>
    rcases List.mem_cons.1 member with rfl | below
    · exact .unary kind spelled operand
    · exact ih below
  | binary kind spelled left right first second =>
    rcases List.mem_cons.1 member with rfl | below
    · exact .binary kind spelled left right
    · exact (List.mem_append.1 below).elim first second

theorem Agrees.lexes (h : e.Agrees) (clear : ∀ c ∈ rest.head?, e.edge.absorbs c = false) :
    Lexes (e.render.toList ++ rest) e.lexemes rest := by
  have space : ∀ k : Kind, k.absorbs ' ' = false := Kind.absorbs_eq_false (by decide) (by decide) (by decide)
  have paren : ∀ k : Kind, k.absorbs ')' = false := Kind.absorbs_eq_false (by decide) (by decide) (by decide)
  induction h generalizing rest with
  | ident name => exact .cons name.lexeme clear (.refl rest)
  | int numeral => exact .cons numeral.lexeme clear (.refl rest)
  | bool keyword => exact .cons (lexeme_of_bool keyword) clear (.refl rest)
  | @unary t e kind spelled operand ih =>
    have closes := Lexes.cons Token.lexeme_closeParen (fun _ _ => rfl) (.refl rest)
    have inner := (ih (by simpa using paren _)).trans closes
    have first : ∀ c ∈ (e.render.toList ++ (")".toList ++ rest)).head?, t.kind.absorbs c = false := by
      obtain ⟨c, cs, same, opens⟩ := operand.opens
      rw [same]
      rintro _ ⟨⟩
      rcases kind with kind | kind
      · rw [kind]
        exact beq_eq_false_iff_ne.2 opens.ne_equals
      · rw [kind]
        rfl
    have sign := Lexes.cons (spelled ▸ Token.lexeme_unary kind) first inner
    have whole := Lexes.cons Token.lexeme_openParen (fun _ _ => rfl) sign
    simpa [lexemes, toList_render_unary, Token.lexeme] using whole
  | @binary t l r kind spelled left right first second =>
    have blank : ∀ c ∈ [' '], Text.isGap c = true := by simp [Text.isGap]
    have closes := Lexes.cons Token.lexeme_closeParen (fun _ _ => rfl) (.refl rest)
    have behind := ((second (by simpa using paren _)).trans closes).behind_gap blank
    have sign := (Lexes.cons (spelled ▸ Token.lexeme_operator kind) (by simpa using space _)
      behind).behind_gap blank
    have inner := (first (by simpa using space _)).trans sign
    have whole := Lexes.cons Token.lexeme_openParen (fun _ _ => rfl) inner
    simpa [lexemes, toList_render_binary, Token.lexeme] using whole

theorem Agrees.head_lexeme (h : e.Agrees) :
    ∃ k text rest, e.lexemes = (k, text) :: rest ∧ k ∈ [.ident, .int, .kwTrue, .kwFalse, .openParen] := by
  cases h with
  | ident name => exact ⟨_, _, _, rfl, by simp [token, name.kind]⟩
  | int numeral => exact ⟨_, _, _, rfl, by simp [token, numeral.kind]⟩
  | @bool t b keyword => exact ⟨_, _, _, rfl, by cases b <;> simp [token, (Prod.mk.inj keyword).1]⟩
  | unary | binary => exact ⟨_, _, _, rfl, by simp⟩

theorem eq_singleton_of_lexeme (h : ts.map Token.lexeme = [t.lexeme]) :
    ∃ u, ts = [u] ∧ u.kind = t.kind ∧ u.text = t.text := by
  obtain ⟨u, rfl, same⟩ := List.map_eq_singleton_iff.1 h
  obtain ⟨kind, text⟩ := Prod.mk.inj same
  exact ⟨u, rfl, kind, text⟩

theorem eq_group_of_lexeme {xs : List (Kind × String)}
    (h : ts.map Token.lexeme = (.openParen, "(") :: xs ++ [(.closeParen, ")")]) :
    ∃ a us b, ts = a :: us ++ [b] ∧ a.kind = .openParen ∧ b.kind = .closeParen ∧ us.map Token.lexeme = xs := by
  obtain ⟨front, back, rfl, first, last⟩ := List.map_eq_append_iff.1 h
  obtain ⟨a, us, rfl, opened, inner⟩ := List.map_eq_cons_iff.1 first
  obtain ⟨b, rfl, closed⟩ := List.map_eq_singleton_iff.1 last
  exact ⟨a, us, b, rfl, congrArg Prod.fst opened, congrArg Prod.fst closed, inner⟩

/-- The tokens of the canonical text are a form of the expression, wherever they stand. -/
theorem WellFormed.derives (h : e.WellFormed) (spelled : ts.map Token.lexeme = e.lexemes) :
    ∃ e', Derives none ts e' e.levels ∧ e'.unplaced = e.unplaced := by
  induction h generalizing ts with
  | ident name =>
    obtain ⟨u, rfl, kind, text⟩ := eq_singleton_of_lexeme spelled
    refine ⟨_, .ident (kind.trans name.kind), ?_⟩
    simp only [unplaced, mapSpan, Token.mapSpan, kind, text, token]
  | int number =>
    obtain ⟨u, rfl, kind, text⟩ := eq_singleton_of_lexeme spelled
    refine ⟨_, .int (kind.trans number.kind) (by rw [text]; exact number.fits), ?_⟩
    simp only [unplaced, mapSpan, Token.mapSpan, kind, text, token]
  | @bool t b keyword =>
    obtain ⟨u, rfl, kind, text⟩ := eq_singleton_of_lexeme spelled
    have truth : (t.kind = .kwTrue ∨ t.kind = .kwFalse) ∧ decide (t.kind = .kwTrue) = b := by
      cases b <;> simp [(Prod.mk.inj keyword).1]
    refine ⟨_, .bool (by rw [kind]; exact truth.1), ?_⟩
    simp only [unplaced, mapSpan, Token.mapSpan, kind, text, token, truth.2]
  | unary kind spelling operand ih =>
    obtain ⟨a, us, b, rfl, opened, closed, inner⟩ := eq_group_of_lexeme spelled
    obtain ⟨o, us, rfl, sign, right⟩ := List.map_eq_cons_iff.1 inner
    obtain ⟨kind', text'⟩ := Prod.mk.inj sign
    obtain ⟨e', derived, same⟩ := ih right
    have form := Derives.group opened closed (by simp) (.unary (by rw [kind']; exact kind) derived)
    rw [← Nat.add_assoc] at form
    refine ⟨_, form, ?_⟩
    simp only [unplaced, mapSpan, Token.mapSpan, kind', text'] at same ⊢
    rw [same]
  | binary kind spelling left right first second =>
    obtain ⟨a, us, b, rfl, opened, closed, inner⟩ := eq_group_of_lexeme spelled
    obtain ⟨ls, back, rfl, front, rest⟩ := List.map_eq_append_iff.1 inner
    obtain ⟨o, rs, rfl, sign, behind⟩ := List.map_eq_cons_iff.1 rest
    obtain ⟨kind', text'⟩ := Prod.mk.inj sign
    obtain ⟨l', before, same⟩ := first front
    obtain ⟨r', after, same'⟩ := second behind
    have operator : o.kind.isOperator = true := by rw [kind']; exact kind
    have form := Derives.group opened closed (by simpa using lowest_lt_iff.2 operator)
      (.binary operator (by simp) before (by simp) after)
    have count : ∀ m n, 1 + max m (1 + n) = max (1 + m) (2 + n) := by omega
    rw [count] at form
    refine ⟨_, form, ?_⟩
    simp only [unplaced, mapSpan, Token.mapSpan, kind', text'] at same same' ⊢
    rw [same, same']

theorem Derives.wellFormed {root : Option Power} {n : Nat} (h : Derives root ts e n)
    (cut : ∀ t ∈ ts, Lexeme t.kind t.text.toList) : e.WellFormed := by
  induction h with
  | @ident t kind =>
    obtain ⟨nonempty, letters, free⟩ := (cut t (by simp)).name_inv kind
    rw [String.ofList_toList] at free
    exact .ident ⟨kind, nonempty, letters, free⟩
  | @int t kind fits =>
    obtain ⟨nonempty, digits⟩ := (cut t (by simp)).number_inv kind
    exact .int ⟨kind, nonempty, digits, fits⟩
  | @bool t kind =>
    have lexeme := cut t (by simp)
    rcases kind with kind | kind
    all_goals
      have keyword := lexeme.keyword_inv (by rw [kind]; decide)
      rw [String.ofList_toList, kind] at keyword
      exact .bool (by simpa [kind, Token.lexeme, Kind.keywords] using keyword)
  | @unary t ts e n kind operand ih =>
    have sign : t.kind.isOperator = true ∨ t.kind = .bang := by
      rcases kind with kind | kind
      · exact .inr kind
      · exact .inl (by rw [kind]; rfl)
    have spelled := (cut t (by simp)).sign_inv sign
    rw [String.ofList_toList] at spelled
    exact .unary kind spelled (ih fun t member => cut t (List.mem_cons_of_mem _ member))
  | group opened closed tighter inner ih => exact ih fun t member => cut t (by simp [member])
  | @binary o lroot ls l m rroot rs r n operator atLeast left tighter right first second =>
    have spelled := (cut o (by simp)).sign_inv (.inl operator)
    rw [String.ofList_toList] at spelled
    exact .binary operator spelled (first fun t member => cut t (by simp [member]))
      (second fun t member => cut t (by simp [member]))

theorem Run.wellFormed {source : String} {i : Nat} {s t : State} {p : Power} (h : Run (.whole p) s (.ok e t))
    (standing : s.window.At source i) : e.WellFormed := by
  obtain ⟨ts, n, moved, ⟨root, -, derived⟩, -, -⟩ := h.sound standing.numeric
  exact derived.wellFormed (standing.lexemes moved.passes)

end Expr

end LetLang
