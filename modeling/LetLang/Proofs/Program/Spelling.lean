import LetLang.Proofs.Expr.Spelling
import LetLang.Proofs.Program.Language
import LetLang.Proofs.Program.Resume

/-!
# The canonical text of a program

The canonical text puts nothing between two statements, so the text of one may run into that of the
next one (`Stmt.runsInto`). Where it does not, the statement is cut into its own lexemes
(`WellFormed.lexes`). Every statement that is read is well formed (`ofText_wellFormed`).
-/

namespace LetLang

open Parse (State)
open Token (Kind Lexes Lexeme Window)

namespace Stmt

/-- Statements as they are read: keywords, names and values are those of the tokens. -/
inductive WellFormed : Stmt → Prop where
  | binding {t n v} (keyword : t.lexeme = (.kwLet, "let")) (name : n.IsName) (value : v.WellFormed) :
      WellFormed (.binding t ⟨n, n.text⟩ v)
  | ret {t v} (keyword : t.lexeme = (.kwReturn, "return")) (value : v.WellFormed) : WellFormed (.ret t v)
  | expr {t v} (value : v.WellFormed) : WellFormed (.expr t v)

/-- The statement without its places. An expression statement also loses its first token: it may be
a parenthesis, which the expression does not keep. -/
def unplaced : Stmt → Stmt
  | expr _ value => expr default value.unplaced
  | x => x.mapSpan fun _ => .null

theorem expr_of_unplaced {x : Stmt} {t : Token} {v : Expr} (h : x.unplaced = (expr t v).unplaced) :
    ∃ t' v', x = expr t' v' ∧ v'.unplaced = v.unplaced := by
  cases x with
  | binding | ret => contradiction
  | expr t' v' => exact ⟨t', v', rfl, (Stmt.expr.inj h).2⟩

def form : Stmt → Form
  | binding .. => .binding
  | ret .. => .ret
  | expr .. => .expr

/-- The tokens of the canonical text. -/
def lexemes : Stmt → List (Kind × String)
  | binding t name value =>
    t.lexeme :: name.token.lexeme :: (.assign, "=") :: value.lexemes ++ [(.semicolon, ";")]
  | ret t value => t.lexeme :: value.lexemes ++ [(.semicolon, ";")]
  | expr _ value => value.lexemes

/-- The kind of the last token of the canonical text. -/
def edge : Stmt → Kind
  | expr _ value => value.edge
  | _ => .semicolon

def isWord : Stmt → Bool
  | expr _ value => value.isWord
  | _ => false

def isNumber : Stmt → Bool
  | expr _ value => value.isNumber
  | _ => false

def opensWithWord : Stmt → Bool
  | expr _ value => value.isWord
  | binding .. | ret .. => true

/-- The text of the second statement would go on with the last word or number of the first one. -/
def runsInto (x y : Stmt) : Bool := x.isWord && y.opensWithWord || x.isNumber && y.isNumber

/-- The text of the first statement ends where that of the second one begins. -/
def Parts (x y : Stmt) : Prop := x.runsInto y = false

instance (x y : Stmt) : Decidable (x.Parts y) := inferInstanceAs (Decidable (_ = _))

variable {c : Char} {x y : Stmt} {rest : List Char}

theorem toList_render_binding (t : Token) (name : Name) (value : Expr) :
    (binding t name value).render.toList =
      t.text.toList ++ ([' '] ++ (name.text.toList ++ ([' '] ++ (['='] ++ ([' '] ++
        (value.render.toList ++ [';'])))))) := by
  simp [render, toString]

theorem toList_render_ret (t : Token) (value : Expr) :
    (ret t value).render.toList = t.text.toList ++ ([' '] ++ (value.render.toList ++ [';'])) := by
  simp [render, toString]

theorem WellFormed.value (h : x.WellFormed) : x.value.WellFormed := by
  cases h with
  | binding _ _ value | ret _ value | expr value => exact value

theorem WellFormed.head_lexeme (h : x.WellFormed) :
    ∃ l ls, x.lexemes = l :: ls ∧ l.1.form?.getD .expr = x.form := by
  cases h with
  | @binding t n v keyword => exact ⟨t.lexeme, _, rfl, by rw [keyword]; rfl⟩
  | @ret t v keyword => exact ⟨t.lexeme, _, rfl, by rw [keyword]; rfl⟩
  | expr value =>
    obtain ⟨k, text, rest, same, member⟩ := value.agrees.head_lexeme
    have all : ∀ k ∈ [Kind.ident, .int, .kwTrue, .kwFalse, .openParen], k.form?.getD .expr = .expr := by decide
    exact ⟨_, _, same, all k member⟩

theorem WellFormed.lexes (h : x.WellFormed) (clear : ∀ c ∈ rest.head?, x.edge.absorbs c = false) :
    Lexes (x.render.toList ++ rest) x.lexemes rest := by
  have space : ∀ k : Kind, k.absorbs ' ' = false := Kind.absorbs_eq_false (by decide) (by decide) (by decide)
  have semicolon : ∀ k : Kind, k.absorbs ';' = false := Kind.absorbs_eq_false (by decide) (by decide) (by decide)
  have blank : ∀ c ∈ [' '], Text.isGap c = true := by simp [Text.isGap]
  have ends := Lexes.cons Token.lexeme_semicolon (fun _ _ => rfl) (.refl rest)
  cases h with
  | expr value => exact value.agrees.lexes clear
  | @ret t v keyword value =>
    have returns : Lexeme .kwReturn "return".toList := Token.lexeme_word rfl (by decide) (List.all_eq_true.1 rfl)
    have inner := ((value.agrees.lexes (by simpa using semicolon _)).trans ends).behind_gap blank
    have whole := Lexes.cons returns (by simpa using space _) inner
    obtain ⟨kind, text⟩ := Prod.mk.inj keyword
    simpa [lexemes, toList_render_ret, Token.lexeme, kind, text] using whole
  | @binding t n v keyword name value =>
    have lets : Lexeme .kwLet "let".toList := Token.lexeme_word rfl (by decide) (List.all_eq_true.1 rfl)
    have inner := ((value.agrees.lexes (by simpa using semicolon _)).trans ends).behind_gap blank
    have sign := (Lexes.cons Token.lexeme_assign (by simpa using space _) inner).behind_gap blank
    have named := (Lexes.cons name.lexeme (by simpa using space _) sign).behind_gap blank
    have whole := Lexes.cons lets (by simpa using space _) named
    obtain ⟨kind, text⟩ := Prod.mk.inj keyword
    simpa [lexemes, toList_render_binding, Token.lexeme, kind, text] using whole

/-- How the canonical text of a statement starts. -/
def Opens (c : Char) : Stmt → Prop
  | binding .. => c = 'l'
  | ret .. => c = 'r'
  | expr _ value => value.Opens c

theorem WellFormed.opens (h : x.WellFormed) : ∃ c cs, x.render.toList = c :: cs ∧ x.Opens c := by
  cases h with
  | @binding t n v keyword =>
    have lets := toList_render_binding t ⟨n, n.text⟩ v
    rw [(Prod.mk.inj keyword).2] at lets
    exact ⟨'l', _, lets, rfl⟩
  | @ret t v keyword =>
    have returns := toList_render_ret t v
    rw [(Prod.mk.inj keyword).2] at returns
    exact ⟨'r', _, returns, rfl⟩
  | expr value => exact value.agrees.opens

theorem Opens.isLetter_eq (h : x.Opens c) : Lexeme.isLetter c = x.opensWithWord := by
  cases x with
  | binding | ret =>
    rw [show c = _ from h]
    rfl
  | expr => exact Expr.Opens.isLetter_eq h

theorem Opens.isDigit_eq (h : x.Opens c) : c.isDigit = x.isNumber := by
  cases x with
  | binding | ret =>
    rw [show c = _ from h]
    rfl
  | expr => exact Expr.Opens.isDigit_eq h

theorem WellFormed.letters (h : x.WellFormed) (word : x.isWord = true) :
    ∀ c ∈ x.render.toList, Lexeme.isLetter c = true := by
  cases h with
  | binding | ret => contradiction
  | expr value => exact value.letters word

theorem WellFormed.digits (h : x.WellFormed) (number : x.isNumber = true) :
    ∀ c ∈ x.render.toList, c.isDigit = true := by
  cases h with
  | binding | ret => contradiction
  | expr value => exact value.digits number

theorem WellFormed.edge_absorbs (h : x.WellFormed) (c : Char) :
    x.edge.absorbs c = (x.isWord && Lexeme.isLetter c || x.isNumber && c.isDigit) := by
  cases h with
  | binding | ret => rfl
  | expr value => exact value.edge_absorbs c

theorem WellFormed.absorbs_head (hx : x.WellFormed) (hy : y.WellFormed) :
    ∃ c cs, y.render.toList = c :: cs ∧ x.edge.absorbs c = x.runsInto y := by
  obtain ⟨c, cs, same, opens⟩ := hy.opens
  exact ⟨c, cs, same, by rw [hx.edge_absorbs, opens.isLetter_eq, opens.isDigit_eq, runsInto]⟩

/-- The canonical text of statements in sequence. -/
def text (xs : List Stmt) : List Char := xs.flatMap fun x => x.render.toList

theorem text_cons (x : Stmt) (xs : List Stmt) : text (x :: xs) = x.render.toList ++ text xs := rfl

variable {xs ys : List Stmt}

theorem absorbs_text (hx : x.WellFormed) (wf : ∀ y ∈ ys, y.WellFormed)
    (parted : ∀ y ∈ ys.head?, x.Parts y) : ∀ c ∈ (text ys).head?, x.edge.absorbs c = false := by
  cases ys with
  | nil => simp [text]
  | cons y ys =>
    obtain ⟨c, cs, same, absorbs⟩ := hx.absorbs_head (wf y List.mem_cons_self)
    rw [text_cons, same]
    rintro _ ⟨⟩
    exact absorbs.trans (parted y rfl)

theorem parted_cons (parted : (x :: xs ++ ys.take 1).IsChain Parts) :
    (∀ y ∈ (xs ++ ys).head?, x.Parts y) ∧ (xs ++ ys.take 1).IsChain Parts := by
  rw [List.cons_append, List.isChain_cons] at parted
  have first : (xs ++ ys.take 1).head? = (xs ++ ys).head? := by
    cases xs <;> cases ys <;> rfl
  rwa [first] at parted

/-! ### What is read is well formed -/

variable {source : String} {i : Nat} {s t : State} {e : Expr} {make : Expr → Stmt}

theorem Value.wellFormed (h : Value s (.ok e t)) (standing : s.window.At source i) : e.WellFormed := by
  cases h with
  | ended run | bare run => exact run.wellFormed standing

theorem Lead.wellFormed (h : Lead s t make) (standing : s.window.At source i) (value : e.WellFormed) :
    (make e).WellFormed := by
  cases h with
  | binding form name sign =>
    have kind := Language.form?_eq_binding.1 form
    have first := (standing.lexeme (by rw [← State.current, kind]; decide)).keyword_inv
      (by rw [← State.current, kind]; decide)
    have second := (standing.iterate 1).lexeme (by show s.ahead.kind ≠ _; rw [name]; decide)
    obtain ⟨nonempty, letters, free⟩ := second.name_inv name
    rw [← State.current, kind, String.ofList_toList] at first
    rw [String.ofList_toList] at free
    exact .binding (by simpa [Token.lexeme, kind, Kind.keywords] using first)
      ⟨name, nonempty, letters, free⟩ value
  | ret form =>
    have kind := Language.form?_eq_ret.1 form
    have first := (standing.lexeme (by rw [← State.current, kind]; decide)).keyword_inv
      (by rw [← State.current, kind]; decide)
    rw [← State.current, kind, String.ofList_toList] at first
    exact .ret (by simpa [Token.lexeme, kind, Kind.keywords] using first) value
  | expr form => exact .expr value

theorem Run.wellFormed (h : Run s (.ok x t)) (standing : s.window.At source i)
    (inside : s.current.kind ≠ .eof) : x.WellFormed := by
  cases h with
  | done lead value =>
    obtain ⟨ts, moved⟩ := lead.passes inside
    exact lead.wellFormed standing (value.wellFormed (standing.passes moved).1)

end Stmt

namespace Program

variable {source : String} {i : Nat} {s u : State} {xs : List Stmt}

theorem Run.wellFormed (h : Run s xs u) (standing : s.window.At source i) : ∀ x ∈ xs, x.WellFormed := by
  induction h generalizing i with
  | finished => simp
  | parsed more stmt rest ih =>
    have inside := ne_eof_of_isFinished more
    obtain ⟨ts, moved⟩ := stmt.passes inside
    exact List.forall_mem_cons.2 ⟨stmt.wellFormed standing inside, ih ((standing.passes moved).1.iterate 1)⟩
  | failed more stmt rest ih =>
    obtain ⟨ts, moved⟩ := stmt.passes (ne_eof_of_isFinished more)
    exact ih ((standing.passes moved).1.iterate 1)

theorem ofText_wellFormed (source : String) : ∀ x ∈ (ofText source).program.statements, x.WellFormed := by
  obtain ⟨u, run, -⟩ := run_ofText source
  exact run.wellFormed (Window.at_ofText source)

end Program

end LetLang
