/-!
The kinds of token and their names. A word is a keyword or an identifier (`Kind.ofWord`), and a
character outside every class is illegal (`Kind.ofSymbol`).
-/

namespace LetLang.Token

inductive Kind where
  | eof | illegal | ident | int
  | assign | equal | bang | notEqual | less | greater
  | plus | minus | slash | star
  | comma | semicolon | openParen | closeParen | openBrace | closeBrace
  | kwFn | kwLet | kwTrue | kwFalse | kwIf | kwElse | kwReturn
  deriving DecidableEq, Inhabited

namespace Kind

def all : List Kind :=
  [eof, illegal, ident, int, assign, equal, bang, notEqual, less, greater, plus, minus, slash,
    star, comma, semicolon, openParen, closeParen, openBrace, closeBrace, kwFn, kwLet, kwTrue,
    kwFalse, kwIf, kwElse, kwReturn]

/-- The name that messages use. -/
def name : Kind → String
  | eof => "EOF"
  | illegal => "ILLEGAL"
  | ident => "IDENT"
  | int => "INT"
  | assign => "="
  | equal => "=="
  | bang => "!"
  | notEqual => "!="
  | less => "<"
  | greater => ">"
  | plus => "+"
  | minus => "-"
  | slash => "/"
  | star => "*"
  | comma => ","
  | semicolon => ";"
  | openParen => "("
  | closeParen => ")"
  | openBrace => "\x7b"
  | closeBrace => "\x7d"
  | kwFn => "FUNCTION"
  | kwLet => "LET"
  | kwTrue => "TRUE"
  | kwFalse => "FALSE"
  | kwIf => "IF"
  | kwElse => "ELSE"
  | kwReturn => "RETURN"

def ofName? (text : String) : Option Kind := all.find? (·.name == text)

theorem ofName?_name (k : Kind) : ofName? k.name = some k := by cases k <;> decide

def keywords : List (String × Kind) :=
  [("fn", kwFn), ("let", kwLet), ("true", kwTrue), ("false", kwFalse), ("if", kwIf),
    ("else", kwElse), ("return", kwReturn)]

def isReserved (word : String) : Bool := (keywords.lookup word).isSome

/-- The kind of a word: a word that is not reserved is an identifier. -/
def ofWord (word : String) : Kind := (keywords.lookup word).getD ident

theorem ofWord_eq_ident_iff (word : String) : ofWord word = ident ↔ isReserved word = false := by
  simp only [ofWord, isReserved, keywords, List.lookup_cons]
  repeat' split
  all_goals simp

theorem ofWord_mem (word : String) : ofWord word ∈ ident :: keywords.map Prod.snd := by
  simp only [ofWord, keywords, List.lookup_cons]
  repeat' split
  all_goals simp

theorem ofWord_ne {k : Kind} (h : k ∉ ident :: keywords.map Prod.snd) (word : String) : ofWord word ≠ k := by
  rintro rfl
  exact h (ofWord_mem word)

theorem ofWord_ne_eof (word : String) : ofWord word ≠ eof := ofWord_ne (by decide) word

/-- The kind of one character that starts no longer token. -/
def ofSymbol : Char → Kind
  | '=' => assign
  | '!' => bang
  | '+' => plus
  | '-' => minus
  | '*' => star
  | '/' => slash
  | '<' => less
  | '>' => greater
  | ',' => comma
  | ';' => semicolon
  | '(' => openParen
  | ')' => closeParen
  | '\x7b' => openBrace
  | '\x7d' => closeBrace
  | _ => illegal

theorem ofSymbol_ne_eof (c : Char) : ofSymbol c ≠ eof := by
  unfold ofSymbol
  split <;> simp

end Kind

end LetLang.Token
