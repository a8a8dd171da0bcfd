import LetLang.Token.Cursor

/-!
A window shows two neighbouring tokens of a source and knows where the following ones are read.
It moves one token at a time and stays at the end token when the source is used up.
-/

namespace LetLang.Token

structure Window where
  current : Token
  ahead : Token
  /-- Stands behind `ahead`. -/
  cursor : Cursor

namespace Window

/-- The first two tokens after a cursor. -/
def ofCursor (c : Cursor) : Window :=
  let (current, c) := c.next
  let (ahead, c) := c.next
  ⟨current, ahead, c⟩

def ofText (source : String) : Window := ofCursor (.ofText source)

def advance (w : Window) : Window :=
  let (next, c) := w.cursor.next
  ⟨w.ahead, next, c⟩

/-- More moves than it takes to bring the end token into `current`. -/
def moves (w : Window) : Nat := w.cursor.remaining + 2

@[simp] theorem current_advance (w : Window) : w.advance.current = w.ahead := rfl

end Window

end LetLang.Token
