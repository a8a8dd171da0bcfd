import LetLang.Text.Bytes
import LetLang.Token.Basic
import LetLang.Token.Lexeme

/-!
A cursor stands between two characters of a source and reads the next token from there. Reading
never fails: at the end of the source it answers the same end token again and again.
-/

namespace LetLang.Token

structure Cursor where
  /-- Bytes before the cursor. -/
  offset : Nat
  /-- Characters after the cursor. -/
  rest : List Char
  /-- Bytes of the whole source. -/
  size : Nat
  offset_add_rest : offset + Text.byteLength rest = size

namespace Cursor

def ofText (source : String) : Cursor :=
  ⟨0, source.toList, Text.byteLength source.toList, Nat.zero_add _⟩

/-- Bytes after the cursor. -/
def remaining (c : Cursor) : Nat := c.size - c.offset

def atEnd (c : Cursor) : Bool := c.rest.isEmpty

def skip (c : Cursor) (n : Nat) : Cursor where
  offset := c.offset + Text.byteLength (c.rest.take n)
  rest := c.rest.drop n
  size := c.size
  offset_add_rest := by
    rw [Nat.add_assoc, Text.byteLength_take_add_drop, c.offset_add_rest]

/-- Moves over the gap in front of the next token. -/
def skipGap (c : Cursor) : Cursor := c.skip (c.rest.takeWhile Text.isGap).length

/-- The token that starts at the cursor, and the cursor after it. -/
def readToken (c : Cursor) : Token × Cursor :=
  match Lexeme.scan? c.rest with
  | none => (⟨.eof, "", ⟨c.offset, c.offset⟩⟩, c)
  | some (kind, n) =>
    let next := c.skip n
    (⟨kind, String.ofList (c.rest.take n), ⟨c.offset, next.offset⟩⟩, next)

def next (c : Cursor) : Token × Cursor := c.skipGap.readToken

theorem remaining_eq (c : Cursor) : c.remaining = Text.byteLength c.rest := by
  have := c.offset_add_rest
  simp only [remaining]
  omega

theorem remaining_skip (c : Cursor) (n : Nat) :
    (c.skip n).remaining = Text.byteLength (c.rest.drop n) := remaining_eq _

theorem remaining_skip_le (c : Cursor) (n : Nat) : (c.skip n).remaining ≤ c.remaining := by
  rw [remaining_skip, remaining_eq, ← Text.byteLength_take_add_drop n c.rest]
  exact Nat.le_add_left ..

theorem remaining_skip_lt {c : Cursor} {n : Nat} (hn : 0 < n) (hc : c.rest ≠ []) :
    (c.skip n).remaining < c.remaining := by
  obtain ⟨x, xs, hx⟩ := List.exists_cons_of_ne_nil hc
  have hsplit := Text.byteLength_take_add_drop n c.rest
  have htake : 0 < (c.rest.take n).length := by
    simp only [hx, List.length_take, List.length_cons]
    omega
  have := Text.length_le_byteLength (c.rest.take n)
  rw [remaining_skip, remaining_eq]
  omega

theorem skipGap_rest (c : Cursor) : c.skipGap.rest = c.rest.dropWhile Text.isGap :=
  Text.drop_takeWhile Text.isGap c.rest

theorem readToken_eof_iff (c : Cursor) : c.readToken.1.kind = .eof ↔ c.rest = [] := by
  unfold readToken
  split
  · next h => simpa using (Lexeme.scan?_eq_none_iff _).1 h
  · next h =>
    have := Lexeme.kind_ne_eof_of_scan? h
    have hc : c.rest ≠ [] := fun hc => by simp [(Lexeme.scan?_eq_none_iff c.rest).2 hc] at h
    simp_all

theorem remaining_next_le (c : Cursor) : c.next.2.remaining ≤ c.remaining := by
  have h := remaining_skip_le c (c.rest.takeWhile Text.isGap).length
  unfold next readToken
  split
  · exact h
  · exact Nat.le_trans (remaining_skip_le ..) h

/-- Every token but the end token takes at least one byte. -/
theorem remaining_next_lt {c : Cursor} (h : c.next.1.kind ≠ .eof) :
    c.next.2.remaining < c.remaining := by
  have hle := remaining_skip_le c (c.rest.takeWhile Text.isGap).length
  have hc : c.skipGap.rest ≠ [] := fun hc => h ((readToken_eof_iff _).2 hc)
  refine Nat.lt_of_lt_of_le ?_ hle
  unfold next readToken
  split
  · next hs => exact absurd ((Lexeme.scan?_eq_none_iff _).1 hs) hc
  · next hs => exact remaining_skip_lt (Lexeme.pos_of_scan? hs) hc

/-- The tokens from the cursor on, the end token last. -/
def tokens (c : Cursor) : List Token :=
  if c.next.1.kind = .eof then [c.next.1] else c.next.1 :: c.next.2.tokens
termination_by c.remaining
decreasing_by exact remaining_next_lt ‹_›

end Cursor

def ofText (source : String) : List Token := (Cursor.ofText source).tokens

end LetLang.Token
