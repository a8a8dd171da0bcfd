import LetLang.Text.Blank
import LetLang.Text.Bytes

/-!
Lines and columns. A line ends after its line feed; its shown text leaves out the line feeds and
carriage returns at its end.
-/

namespace LetLang.Text

/-- The lines of a text, each with its line feed. They join to the text. -/
def lines : List Char → List (List Char)
  | [] => []
  | c :: cs =>
    if c = '\n' then [c] :: lines cs
    else
      match lines cs with
      | [] => [[c]]
      | l :: ls => (c :: l) :: ls

theorem flatten_lines (cs : List Char) : (lines cs).flatten = cs := by
  fun_induction lines cs <;> simp_all

/-- The place of a byte position: the number of its line from 1, the text of the line, and the
bytes between the start of the line and the position. -/
structure Location where
  line : Nat
  text : List Char
  offset : Nat
  deriving DecidableEq, Inhabited

def isLineEnd (c : Char) : Bool := c == '\n' || c == '\r'

namespace Location

/-- The place of `position` in the given lines. Past the end it is the end of the last line, which
is shown in full if no line feed ends it, and else the empty line below it. -/
def within : List (List Char) → (position : Nat) → Location
  | [], _ => ⟨1, [], 0⟩
  | l :: ls, position =>
    if position < byteLength l then ⟨1, trimEnd isLineEnd l, position⟩
    else if l.getLast? = some '\n' then
      let below := within ls (position - byteLength l)
      { below with line := below.line + 1 }
    else ⟨1, l, byteLength l⟩

/-- The place of a byte position of a source. -/
def ofPosition (source : List Char) (position : Nat) : Location := within (lines source) position

end Location

/-- The number of characters that end at or before a byte offset. -/
def column : List Char → (offset : Nat) → Nat
  | [], _ => 0
  | c :: cs, offset => if c.utf8Size ≤ offset then column cs (offset - c.utf8Size) + 1 else 0

theorem column_byteLength (cs ds : List Char) :
    column (cs ++ ds) (byteLength cs) = cs.length + column ds 0 := by
  induction cs with
  | nil => simp
  | cons c cs ih => simp [column, ih]; omega

end LetLang.Text
