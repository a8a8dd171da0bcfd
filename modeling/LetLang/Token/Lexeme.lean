import LetLang.Text.Blank
import LetLang.Token.Kind

/-!
Lexemes: the pieces that a source is cut into. `Lexeme.scan?` measures the longest one at the head
of a text, so a run of letters or digits is never cut.
-/

namespace LetLang.Token.Lexeme

/-- Letters of words: the ASCII letters and the underscore. -/
def isLetter (c : Char) : Bool := c.isAlpha || c == '_'

/-- The kind of the lexeme at the head of a text and its number of characters. -/
def scan? : List Char → Option (Kind × Nat)
  | [] => none
  | '=' :: '=' :: _ => some (.equal, 2)
  | '!' :: '=' :: _ => some (.notEqual, 2)
  | c :: cs =>
    if isLetter c then
      let word := (c :: cs).takeWhile isLetter
      some (.ofWord (String.ofList word), word.length)
    else if c.isDigit then
      some (.int, ((c :: cs).takeWhile Char.isDigit).length)
    else
      some (.ofSymbol c, 1)

theorem scan?_eq_none_iff (cs : List Char) : scan? cs = none ↔ cs = [] := by
  fun_cases scan? cs <;> simp

theorem pos_of_scan? {cs : List Char} {k : Kind} {n : Nat} (h : scan? cs = some (k, n)) :
    0 < n := by
  fun_cases scan? cs <;> simp_all [scan?] <;> obtain ⟨-, rfl⟩ := h <;> simp_all

theorem kind_ne_eof_of_scan? {cs : List Char} {k : Kind} {n : Nat}
    (h : scan? cs = some (k, n)) : k ≠ .eof := by
  fun_cases scan? cs <;> simp_all [scan?] <;> obtain ⟨rfl, -⟩ := h <;>
    simp [Kind.ofWord_ne_eof, Kind.ofSymbol_ne_eof]

end LetLang.Token.Lexeme
