import LetLang.Proofs.Program.Reparse

/-!
# Canonical text is unambiguous

The text of an expression tells the expression, however deep it nests (`Expr.render_eq_iff`). The tokens
of a canonical text tell the statement and where it ends (`Stmt.WellFormed.lexemes_inj`).
Of all statements in sequence that give one text, those of which none runs into the next one are the
fewest, and no others are as few (`Stmt.length_le_of_parts`).
-/

namespace LetLang

open Token (Kind Lexeme Lexes Window)

/-! ### Tokens -/

theorem Token.Window.Passes.comparable {w u v : Window} {ts us : List Token} (first : w.Passes ts u)
    (second : w.Passes us v) : (∃ more, us = ts ++ more) ∨ ∃ more, ts = us ++ more := by
  induction ts generalizing w us with
  | nil => exact .inl ⟨us, rfl⟩
  | cons t ts ih =>
    cases us with
    | nil => exact .inr ⟨t :: ts, rfl⟩
    | cons t' us =>
      obtain ⟨rfl, -, first⟩ := first
      obtain ⟨rfl, -, second⟩ := second
      rcases ih first second with ⟨more, rfl⟩ | ⟨more, rfl⟩
      · exact .inl ⟨more, rfl⟩
      · exact .inr ⟨more, rfl⟩

/-- A text is cut in one way, so one cut into lexemes goes on with the other. -/
theorem Token.Lexes.comparable {cs rest rest' : List Char} {xs ys : List (Kind × String)}
    (first : Lexes cs xs rest) (second : Lexes cs ys rest') : ∃ as bs, xs ++ as = ys ++ bs := by
  have here : (Window.ofText (String.ofList cs)).Before cs := ⟨_, rfl, String.toList_ofList⟩
  obtain ⟨u, ts, moved, rfl, -⟩ := first _ here
  obtain ⟨v, us, moved', rfl, -⟩ := second _ here
  rcases moved.comparable moved' with ⟨more, rfl⟩ | ⟨more, rfl⟩
  · exact ⟨more.map Token.lexeme, [], by simp⟩
  · exact ⟨[], more.map Token.lexeme, by simp⟩

namespace Expr

variable {e e' : Expr} {as bs : List (Kind × String)}

/-- The leaf of a token, without its place. -/
def ofLexeme : Kind × String → Expr
  | (.ident, text) => ident ⟨.ident, text, .null⟩ text
  | (.int, text) => int ⟨.int, text, .null⟩ (Decimal.value text.toList)
  | (k, text) => bool ⟨k, text, .null⟩ (k = .kwTrue)

theorem Agrees.leaf (h : e.Agrees) (leaf : e.isWord = true ∨ e.isNumber = true) :
    ∃ l, e.lexemes = [l] ∧ l.1 ≠ .openParen ∧ e.unplaced = ofLexeme l := by
  cases h with
  | @ident t name => exact ⟨t.lexeme, rfl, by simp [Token.lexeme, name.kind], by
      simp [Token.lexeme, name.kind, ofLexeme, unplaced, mapSpan, Token.mapSpan]⟩
  | @int t numeral => exact ⟨t.lexeme, rfl, by simp [Token.lexeme, numeral.kind], by
      simp [Token.lexeme, numeral.kind, ofLexeme, unplaced, mapSpan, Token.mapSpan]⟩
  | @bool t b keyword =>
    cases b with
    | true =>
      obtain ⟨kind, text⟩ := Prod.mk.inj (show t.lexeme = (.kwTrue, "true") from keyword)
      exact ⟨t.lexeme, rfl, by simp [Token.lexeme, kind], by
        simp [Token.lexeme, kind, ofLexeme, unplaced, mapSpan, Token.mapSpan]⟩
    | false =>
      obtain ⟨kind, text⟩ := Prod.mk.inj (show t.lexeme = (.kwFalse, "false") from keyword)
      exact ⟨t.lexeme, rfl, by simp [Token.lexeme, kind], by
        simp [Token.lexeme, kind, ofLexeme, unplaced, mapSpan, Token.mapSpan]⟩
  | unary | binary => rcases leaf with leaf | leaf <;> contradiction

theorem Agrees.leaf_inj (h : e.Agrees) (leaf : e.isWord = true ∨ e.isNumber = true) (h' : e'.Agrees)
    (same : e.lexemes ++ as = e'.lexemes ++ bs) : e.unplaced = e'.unplaced ∧ as = bs := by
  obtain ⟨l, single, bare, shape⟩ := h.leaf leaf
  rw [single] at same
  have leaf' : e'.isWord = true ∨ e'.isNumber = true := by
    cases h' with
    | ident | bool => exact .inl rfl
    | int => exact .inr rfl
    | unary | binary => exact absurd (congrArg Prod.fst (List.cons.inj same).1) bare
  obtain ⟨l', single', -, shape'⟩ := h'.leaf leaf'
  rw [single'] at same
  obtain ⟨rfl, rest⟩ := List.cons.inj same
  exact ⟨shape.trans shape'.symm, rest⟩

theorem Agrees.not_leaf (h : e.Agrees) {text : String}
    (same : (.openParen, text) :: as = e.lexemes ++ bs) :
    ¬ (e.isWord = true ∨ e.isNumber = true) := by
  intro leaf
  obtain ⟨l, single, bare, -⟩ := h.leaf leaf
  rw [single] at same
  exact bare (congrArg Prod.fst (List.cons.inj same).1).symm

/-- A sign opens no expression within the parentheses of a binary one. -/
theorem Agrees.ne_sign (h : e.Agrees) {t : Token} (kind : t.kind = .bang ∨ t.kind = .minus) :
    t.lexeme :: as ≠ e.lexemes ++ bs := by
  intro same
  obtain ⟨k, text, rest, front, member⟩ := h.head_lexeme
  rw [front] at same
  have first : t.kind = k := congrArg Prod.fst (List.cons.inj same).1
  rw [← first] at member
  rcases kind with kind | kind <;> rw [kind] at member <;> exact absurd member (by decide)

variable {t : Token} {operator : String} {left right : Expr}

theorem lexemes_unary_append : (unary t operator e).lexemes ++ as =
    (.openParen, "(") :: t.lexeme :: (e.lexemes ++ (.closeParen, ")") :: as) := by
  simp [lexemes]

theorem lexemes_binary_append : (binary t operator left right).lexemes ++ as =
    (.openParen, "(") :: (left.lexemes ++ t.lexeme :: (right.lexemes ++ (.closeParen, ")") :: as)) := by
  simp [lexemes]

/-- The tokens of canonical text tell the expression and where it ends. -/
theorem Agrees.lexemes_inj (h : e.Agrees) (h' : e'.Agrees)
    (same : e.lexemes ++ as = e'.lexemes ++ bs) : e.unplaced = e'.unplaced ∧ as = bs := by
  induction h generalizing e' as bs with
  | ident name => exact Agrees.leaf_inj (.ident name) (.inl rfl) h' same
  | int numeral => exact Agrees.leaf_inj (.int numeral) (.inr rfl) h' same
  | bool keyword => exact Agrees.leaf_inj (.bool keyword) (.inl rfl) h' same
  | @unary t e kind spelled operand ih =>
    have nested := h'.not_leaf same
    rw [lexemes_unary_append] at same
    cases h' with
    | ident | bool => exact absurd (.inl rfl) nested
    | int => exact absurd (.inr rfl) nested
    | @unary t' e' kind' spelled' operand' =>
      rw [lexemes_unary_append] at same
      obtain ⟨sign, inner⟩ := List.cons.inj (List.cons.inj same).2
      obtain ⟨agree, rest⟩ := ih operand' inner
      have text : t.text = t'.text := (Prod.mk.inj sign).2
      refine ⟨?_, (List.cons.inj rest).2⟩
      simp only [unplaced, mapSpan, Token.mapSpan_null_eq sign, text] at agree ⊢
      rw [agree]
    | @binary t' l' r' operator' spelled' left' right' =>
      rw [lexemes_binary_append] at same
      exact absurd (List.cons.inj same).2 (left'.ne_sign kind)
  | @binary t l r operator spelled left right first second =>
    have nested := h'.not_leaf same
    rw [lexemes_binary_append] at same
    cases h' with
    | ident | bool => exact absurd (.inl rfl) nested
    | int => exact absurd (.inr rfl) nested
    | @unary t' e' kind' spelled' operand' =>
      rw [lexemes_unary_append] at same
      exact absurd (List.cons.inj same).2.symm (left.ne_sign kind')
    | @binary t' l' r' operator' spelled' left' right' =>
      rw [lexemes_binary_append] at same
      obtain ⟨agree, behind⟩ := first left' (List.cons.inj same).2
      obtain ⟨sign, behind⟩ := List.cons.inj behind
      obtain ⟨agree', rest⟩ := second right' behind
      have text : t.text = t'.text := (Prod.mk.inj sign).2
      refine ⟨?_, (List.cons.inj rest).2⟩
      simp only [unplaced, mapSpan, Token.mapSpan_null_eq sign, text] at agree agree' ⊢
      rw [agree, agree']

theorem render_mapSpan (g : Span → Span) (e : Expr) : (e.mapSpan g).render = e.render := by
  induction e with
  | ident | int | bool => rfl
  | unary t operator operand ih => simp only [mapSpan, render, ih]
  | binary t operator left right first second => simp only [mapSpan, render, first, second]

/-- Expressions of any size have one canonical text exactly if they differ in their places only. -/
theorem render_eq_iff (h : e.Agrees) (h' : e'.Agrees) : e.render = e'.render ↔ e.unplaced = e'.unplaced := by
  constructor
  · intro same
    have first : Lexes (e.render.toList ++ []) e.lexemes [] := h.lexes (by simp)
    have second : Lexes (e'.render.toList ++ []) e'.lexemes [] := h'.lexes (by simp)
    rw [same] at first
    obtain ⟨as, bs, front⟩ := first.comparable second
    exact (h.lexemes_inj h' front).1
  · intro same
    rw [← render_mapSpan (fun _ => .null) e, ← render_mapSpan (fun _ => .null) e']
    exact congrArg render same

/-- Two places, with signs that share a character and a number above 64 bits. -/
theorem render_eq_iff_signs :
    ∃ e e' : Expr, e ≠ e' ∧ e.render = "((!a) != 99999999999999999999)" ∧ e.Agrees ∧ e'.Agrees ∧
      (e.render = e'.render ↔ e.unplaced = e'.unplaced) := by
  have name : ∀ s, Token.IsName ⟨.ident, "a", s⟩ := fun s =>
    ⟨rfl, by simp, List.all_eq_true.1 (show "a".toList.all Lexeme.isLetter = true by decide +kernel), rfl⟩
  have number : ∀ s, Token.IsNumeral ⟨.int, "99999999999999999999", s⟩ := fun s =>
    ⟨rfl, by simp, List.all_eq_true.1 (show "99999999999999999999".toList.all Char.isDigit = true by decide +kernel)⟩
  have negation : ∀ s, Agrees (unary ⟨.bang, "!", s⟩ "!" (ident ⟨.ident, "a", s⟩ "a")) := fun s =>
    .unary (t := ⟨.bang, "!", s⟩) (.inl rfl) rfl (.ident (name s))
  have agrees : ∀ s, Agrees (binary ⟨.notEqual, "!=", s⟩ "!=" (unary ⟨.bang, "!", s⟩ "!" (ident ⟨.ident, "a", s⟩ "a"))
      (int ⟨.int, "99999999999999999999", s⟩ (Decimal.value "99999999999999999999".toList))) := fun s =>
    .binary (t := ⟨.notEqual, "!=", s⟩) rfl rfl (negation s) (.int (number s))
  exact ⟨_, _, by decide, by decide +kernel, agrees ⟨0, 1⟩, agrees ⟨1, 2⟩,
    render_eq_iff (agrees ⟨0, 1⟩) (agrees ⟨1, 2⟩)⟩

end Expr

namespace Stmt

variable {x y : Stmt} {as bs : List (Kind × String)} {rest rest' : List Char}

theorem render_unplaced (x : Stmt) : x.unplaced.render = x.render := by
  cases x with
  | binding | ret => simp only [unplaced, mapSpan, render, Expr.render_mapSpan, Token.mapSpan]
  | expr t value => exact Expr.render_mapSpan _ value

theorem WellFormed.lexemes_inj (hx : x.WellFormed) (hy : y.WellFormed)
    (same : x.lexemes ++ as = y.lexemes ++ bs) : x.unplaced = y.unplaced ∧ as = bs := by
  have forms : x.form = y.form := by
    obtain ⟨l, ls, front, form⟩ := hx.head_lexeme
    obtain ⟨l', ls', front', form'⟩ := hy.head_lexeme
    rw [front, front'] at same
    rw [← form, ← form', (List.cons.inj same).1]
  cases hx with
  | @binding t n v keyword name value =>
    cases hy with
    | ret | expr => contradiction
    | @binding t' n' v' keyword' name' value' =>
      simp only [lexemes, List.cons_append, List.append_assoc, List.nil_append, List.cons.injEq, true_and] at same
      obtain ⟨first, second, inner⟩ := same
      obtain ⟨agree, rest⟩ := value.agrees.lexemes_inj value'.agrees inner
      have text : n.text = n'.text := (Prod.mk.inj second).2
      refine ⟨?_, (List.cons.inj rest).2⟩
      simp only [unplaced, mapSpan, Expr.unplaced, Token.mapSpan_null_eq first, Token.mapSpan_null_eq second,
        text] at agree ⊢
      rw [agree]
  | @ret t v keyword value =>
    cases hy with
    | binding | expr => contradiction
    | @ret t' v' keyword' value' =>
      simp only [lexemes, List.cons_append, List.append_assoc, List.nil_append, List.cons.injEq] at same
      obtain ⟨first, inner⟩ := same
      obtain ⟨agree, rest⟩ := value.agrees.lexemes_inj value'.agrees inner
      refine ⟨?_, (List.cons.inj rest).2⟩
      simp only [unplaced, mapSpan, Expr.unplaced, Token.mapSpan_null_eq first] at agree ⊢
      rw [agree]
  | expr value =>
    cases hy with
    | binding | ret => contradiction
    | expr value' =>
      obtain ⟨agree, rest⟩ := value.agrees.lexemes_inj value'.agrees same
      exact ⟨congrArg (Stmt.expr default) agree, rest⟩

/-- Of two statements that open one text and end where they end, each is the other. -/
theorem WellFormed.render_inj (hx : x.WellFormed) (hy : y.WellFormed)
    (same : x.render.toList ++ rest = y.render.toList ++ rest')
    (clear : ∀ c ∈ rest.head?, x.edge.absorbs c = false) (clear' : ∀ c ∈ rest'.head?, y.edge.absorbs c = false) :
    x.unplaced = y.unplaced ∧ rest = rest' := by
  have first := hx.lexes clear
  rw [same] at first
  obtain ⟨as, bs, front⟩ := first.comparable (hy.lexes clear')
  obtain ⟨agree, -⟩ := hx.lexemes_inj hy front
  refine ⟨agree, ?_⟩
  rw [← x.render_unplaced, ← y.render_unplaced, agree] at same
  exact List.append_cancel_left same

/-! ### Words and numbers in a row -/

variable {p : Char → Bool} {xs ys : List Stmt} {run word : List Char}

/-- The statement starts with the keyword, a space behind it, and ends in a semicolon. -/
def Keyed (word : List Char) (x : Stmt) : Prop :=
  word ∈ ["let".toList, "return".toList] ∧ x.edge = .semicolon ∧ ∃ tail, x.render.toList = word ++ ' ' :: tail

/-- A statement that starts with a character of the class is of that class or starts with a keyword
that is. -/
structure Classed (p : Char → Bool) : Prop where
  space : p ' ' = false
  opens : ∀ x : Stmt, x.WellFormed → (∀ c ∈ x.render.toList.head?, p c = true) →
    (∀ c ∈ x.render.toList, p c = true) ∨ ∃ word, (∀ c ∈ word, p c = true) ∧ x.Keyed word

theorem keyed_binding {t : Token} (keyword : t.lexeme = (.kwLet, "let")) (name : Name) (value : Expr) :
    (binding t name value).Keyed "let".toList := by
  refine ⟨by decide, rfl, ?_⟩
  rw [toList_render_binding, (Prod.mk.inj keyword).2]
  exact ⟨_, rfl⟩

theorem keyed_ret {t : Token} (keyword : t.lexeme = (.kwReturn, "return")) (value : Expr) :
    (ret t value).Keyed "return".toList := by
  refine ⟨by decide, rfl, ?_⟩
  rw [toList_render_ret, (Prod.mk.inj keyword).2]
  exact ⟨_, rfl⟩

theorem classed_letters : Classed Lexeme.isLetter := by
  refine ⟨rfl, fun x wf first => ?_⟩
  obtain ⟨c, cs, same, opens⟩ := wf.opens
  have letter : Lexeme.isLetter c = true := first c (by rw [same]; rfl)
  rw [opens.isLetter_eq] at letter
  cases id wf with
  | binding keyword => exact .inr ⟨_, List.all_eq_true.1 rfl, keyed_binding keyword _ _⟩
  | ret keyword => exact .inr ⟨_, List.all_eq_true.1 rfl, keyed_ret keyword _⟩
  | expr => exact .inl (wf.letters letter)

theorem classed_digits : Classed Char.isDigit := by
  refine ⟨rfl, fun x wf first => ?_⟩
  obtain ⟨c, cs, same, opens⟩ := wf.opens
  have digit : c.isDigit = true := first c (by rw [same]; rfl)
  rw [opens.isDigit_eq] at digit
  exact .inl (wf.digits digit)

theorem part_of_run {part rest : List Char} (same : part ++ rest' = run ++ rest)
    (inside : ∀ c ∈ part, p c = true) (stops : ∀ c ∈ rest.head?, p c = false) :
    ∃ more, run = part ++ more ∧ rest' = more ++ rest := by
  rcases List.append_eq_append_iff.1 same with ⟨more, rfl, rfl⟩ | ⟨more, rfl, rfl⟩
  · exact ⟨more, rfl, rfl⟩
  · cases more with
    | nil => exact ⟨[], by simp, rfl⟩
    | cons c more =>
      have yes := inside c (by simp)
      have no := stops c rfl
      rw [yes] at no
      contradiction

/-- Where characters of a class stop, a statement ends or the keyword of one does. -/
theorem split_run (classed : Classed p) (wf : ∀ x ∈ xs, x.WellFormed) (same : text xs = run ++ rest)
    (inside : ∀ c ∈ run, p c = true) (stops : ∀ c ∈ rest.head?, p c = false) :
    ∃ front back, xs = front ++ back ∧ ((text front = run ∧ text back = rest) ∨
      ∃ y word, back.head? = some y ∧ y.Keyed word ∧ run = text front ++ word ∧ rest.head? = some ' ') := by
  induction xs generalizing run with
  | nil =>
    obtain ⟨rfl, rfl⟩ := List.append_eq_nil_iff.1 same.symm
    exact ⟨[], [], rfl, .inl ⟨rfl, rfl⟩⟩
  | cons x xs ih =>
    cases run with
    | nil => exact ⟨[], x :: xs, rfl, .inl ⟨rfl, same⟩⟩
    | cons c run =>
      have hx := wf x List.mem_cons_self
      have later : ∀ y ∈ xs, y.WellFormed := fun y member => wf y (List.mem_cons_of_mem _ member)
      have whole : x.render.toList ++ text xs = c :: run ++ rest := same
      have first : ∀ d ∈ x.render.toList.head?, p d = true := by
        obtain ⟨d, cs, text, -⟩ := hx.opens
        rw [text] at whole ⊢
        rintro _ ⟨⟩
        rw [(List.cons.inj whole).1]
        exact inside c List.mem_cons_self
      rcases classed.opens x hx first with all | ⟨word, solid, keyed⟩
      · -- The statement is a part of the run.
        obtain ⟨more, split, behind⟩ := part_of_run whole all stops
        obtain ⟨front, back, rfl, cut⟩ := ih later behind fun d member => inside d (by rw [split]; simp [member])
        refine ⟨x :: front, back, rfl, cut.imp ?_ ?_⟩
        · rintro ⟨done, left⟩
          exact ⟨by rw [split, ← done]; rfl, left⟩
        · rintro ⟨y, word, head, keyed, done, left⟩
          exact ⟨y, word, head, keyed, by rw [split, done, ← List.append_assoc]; rfl, left⟩
      · -- The run is its keyword.
        obtain ⟨-, -, tail, shape⟩ := id keyed
        rw [shape, List.append_assoc, List.cons_append] at whole
        have done := congrArg (List.takeWhile p) whole
        rw [Text.takeWhile_run inside stops, Text.takeWhile_run solid (by rintro _ ⟨⟩; exact classed.space)] at done
        rw [done] at whole
        have left := List.append_cancel_left whole
        exact ⟨[], x :: xs, rfl, .inr ⟨x, word, rfl, keyed, done.symm, by rw [← left]; rfl⟩⟩

theorem text_eq_nil_iff (wf : ∀ x ∈ xs, x.WellFormed) : text xs = [] ↔ xs = [] := by
  constructor
  · intro empty
    cases xs with
    | nil => rfl
    | cons x xs =>
      obtain ⟨c, cs, same, -⟩ := (wf x List.mem_cons_self).opens
      rw [text_cons, same] at empty
      exact nomatch empty
  · rintro rfl
    rfl

theorem head?_text_ne_space (wf : ∀ x ∈ xs, x.WellFormed) : (text xs).head? ≠ some ' ' := by
  cases xs with
  | nil => exact nofun
  | cons x xs =>
    obtain ⟨c, cs, same, opens⟩ := (wf x List.mem_cons_self).opens
    rw [text_cons, same]
    rintro ⟨⟩
    exact absurd opens.opens.not_gap (by decide)

theorem WellFormed.split_closed (hx : x.WellFormed) (hy : y.WellFormed)
    (same : text (x :: xs) = y.render.toList ++ rest)
    (closed : ∀ c, x.edge.absorbs c = false) (clear : ∀ c ∈ rest.head?, y.edge.absorbs c = false) :
    ∃ front back, x :: xs = front ++ back ∧ text front = y.render.toList ∧ text back = rest := by
  obtain ⟨agree, behind⟩ := hx.render_inj hy same (fun c _ => closed c) clear
  refine ⟨[x], xs, rfl, ?_, behind⟩
  rw [← y.render_unplaced, ← agree, x.render_unplaced]
  exact List.append_nil _

theorem WellFormed.split_keyed (hy : y.WellFormed) (keyed : y.Keyed word)
    (letters : ∀ c ∈ word, Lexeme.isLetter c = true) (wf : ∀ x ∈ xs, x.WellFormed)
    (same : text xs = y.render.toList ++ rest) :
    ∃ front back, xs = front ++ back ∧ text front = y.render.toList ∧ text back = rest := by
  obtain ⟨member, last, tail, shape⟩ := keyed
  have cut : text xs = word ++ ' ' :: (tail ++ rest) := by rw [same, shape, List.append_assoc]; rfl
  obtain ⟨front, back, rfl, ⟨-, behind⟩ | ⟨x, word', head, keyed, whole, -⟩⟩ :=
    split_run classed_letters wf cut letters (by rintro _ ⟨⟩; rfl)
  · have wfb : ∀ x ∈ back, x.WellFormed := fun x member => wf x (by simp [member])
    have none := head?_text_ne_space wfb
    rw [behind] at none
    exact absurd rfl none
  · obtain ⟨member', last', -⟩ := keyed
    have all : ∀ a ∈ ["let".toList, "return".toList], ∀ b ∈ ["let".toList, "return".toList],
        a <:+ b → a = b := by decide
    obtain rfl := all word' member' word member ⟨_, whole.symm⟩
    have empty : text front = [] := by simpa using whole
    rw [text_eq_nil_iff fun x member => wf x (by simp [member])] at empty
    subst empty
    obtain ⟨back, rfl⟩ := List.head?_eq_some_iff.1 head
    exact (wf x (by simp)).split_closed hy same (fun c => by rw [last']; rfl) (fun c _ => by rw [last]; rfl)

theorem split_classed (classed : Classed p) (inside : ∀ c ∈ y.render.toList, p c = true)
    (wf : ∀ x ∈ xs, x.WellFormed) (same : text xs = y.render.toList ++ rest)
    (stops : ∀ c ∈ rest.head?, p c = false) (solid : rest.head? ≠ some ' ') :
    ∃ front back, xs = front ++ back ∧ text front = y.render.toList ∧ text back = rest := by
  obtain ⟨front, back, rfl, cut | ⟨x, word, -, -, -, spaced⟩⟩ := split_run classed wf same inside stops
  · exact ⟨front, back, rfl, cut⟩
  · exact absurd spaced solid

theorem isWord_of_not_opensWithWord (h : x.opensWithWord = false) : x.isWord = false := by
  cases x with
  | binding | ret => rfl
  | expr => exact h

/-- A statement whose text ends there is one statement or more of any other way to cut the text. -/
theorem WellFormed.split (hy : y.WellFormed) (wf : ∀ x ∈ xs, x.WellFormed)
    (same : text xs = y.render.toList ++ rest)
    (clear : ∀ c ∈ rest.head?, y.edge.absorbs c = false) (solid : rest.head? ≠ some ' ') :
    ∃ front back, xs = front ++ back ∧ text front = y.render.toList ∧ text back = rest := by
  by_cases word : y.isWord = true
  · refine split_classed classed_letters (hy.letters word) wf same (fun c head => ?_) solid
    have stops := clear c head
    rw [hy.edge_absorbs, word] at stops
    exact (Bool.or_eq_false_iff.1 stops).1
  by_cases number : y.isNumber = true
  · refine split_classed classed_digits (hy.digits number) wf same (fun c head => ?_) solid
    have stops := clear c head
    rw [hy.edge_absorbs, number] at stops
    exact (Bool.or_eq_false_iff.1 stops).2
  cases id hy with
  | binding keyword => exact hy.split_keyed (keyed_binding keyword _ _) (List.all_eq_true.1 rfl) wf same
  | ret keyword => exact hy.split_keyed (keyed_ret keyword _) (List.all_eq_true.1 rfl) wf same
  | expr value =>
    -- Nothing but a statement in parentheses starts with one.
    obtain ⟨c, cs, shape, opens⟩ := hy.opens
    cases xs with
    | nil =>
      rw [shape] at same
      exact nomatch same
    | cons x xs =>
      have hx := wf x List.mem_cons_self
      obtain ⟨d, ds, shape', opens'⟩ := hx.opens
      have front := same
      rw [text_cons, shape, shape'] at front
      obtain rfl : d = c := (List.cons.inj front).1
      have letter : Lexeme.isLetter d = false := opens.isLetter_eq.trans (Bool.eq_false_iff.2 word)
      have digit : d.isDigit = false := opens.isDigit_eq.trans (Bool.eq_false_iff.2 number)
      rw [opens'.isLetter_eq] at letter
      rw [opens'.isDigit_eq] at digit
      refine hx.split_closed hy same (fun c => ?_) clear
      rw [hx.edge_absorbs, isWord_of_not_opensWithWord letter, digit]
      rfl

theorem runsInto_unplaced (x y : Stmt) : x.unplaced.runsInto y = x.runsInto y := by
  cases x with
  | binding | ret => rfl
  | expr t v => simp only [runsInto, unplaced, isWord, isNumber, Expr.isWord_unplaced, Expr.isNumber_unplaced]

/-- Statements whose texts end where they should are the fewest, and no others are as few. -/
theorem length_le_of_parts (wf : ∀ x ∈ xs, x.WellFormed) (wf' : ∀ y ∈ ys, y.WellFormed)
    (same : text xs = text ys) (parted : ys.IsChain Parts) :
    ys.length ≤ xs.length ∧ (xs.length ≤ ys.length → xs.IsChain Parts) := by
  induction ys generalizing xs with
  | nil =>
    obtain rfl := (text_eq_nil_iff wf).1 same
    exact ⟨Nat.le_refl _, fun _ => .nil⟩
  | cons y ys ih =>
    have hy := wf' y List.mem_cons_self
    have later : ∀ y ∈ ys, y.WellFormed := fun z member => wf' z (List.mem_cons_of_mem _ member)
    rw [List.isChain_cons] at parted
    rw [text_cons y ys] at same
    have clear := absorbs_text hy later parted.1
    -- The first statement stands for one or more of the others, and the rest is as before.
    obtain ⟨front, back, rfl, whole, behind⟩ := hy.split wf same clear (head?_text_ne_space later)
    have wfb : ∀ x ∈ back, x.WellFormed := fun x member => wf x (by simp [member])
    obtain ⟨count, chain⟩ := ih wfb later behind parted.2
    cases front with
    | nil =>
      obtain ⟨c, cs, shape, -⟩ := hy.opens
      rw [shape] at whole
      exact nomatch whole
    | cons x front =>
      simp only [List.length_append, List.length_cons]
      refine ⟨by omega, fun few => ?_⟩
      obtain rfl : front = [] := List.eq_nil_of_length_eq_zero (by omega)
      have chain := chain (by omega)
      rw [List.cons_append, List.nil_append, List.isChain_cons]
      refine ⟨fun z head => ?_, chain⟩
      obtain ⟨back, rfl⟩ := List.head?_eq_some_iff.1 head
      have hx := wf x (by simp)
      obtain ⟨agree, -⟩ := hx.render_inj hy (whole.trans (List.append_nil _).symm) (by simp) (by simp)
      obtain ⟨c, cs, shape, absorbs⟩ := hy.absorbs_head (wfb z List.mem_cons_self)
      have stops : y.edge.absorbs c = false := by
        refine clear c ?_
        rw [← behind, text_cons, shape]
        rfl
      show x.runsInto z = false
      rw [← x.runsInto_unplaced, agree, y.runsInto_unplaced, ← absorbs]
      exact stops

end Stmt

end LetLang
