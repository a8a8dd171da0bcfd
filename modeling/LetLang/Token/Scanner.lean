import LetLang.Text.Blank
import LetLang.Text.Bytes
import LetLang.Token.Basic
import LetLang.Token.Lexeme

/-!
A scanner reads tokens without taking the source apart: it keeps the positions of the character that it looks
at and of the next one, and cuts texts out of the source by their positions. A cut that is out of range or
goes through a character has no text, and the reading that needs it answers `none`.

Scanners may be cloned. They are numbered in the order of their creation, and commands ask or clone them.
-/

namespace LetLang.Token

open Text (byteLength dropBytes? slice?)

structure Scanner where
  source : List Char
  /-- Where the current character starts. -/
  position : Nat
  /-- Where the next read starts. At the end of the source this is one byte behind it. -/
  readPosition : Nat
  current? : Option Char

namespace Scanner

/-- Moves on to the character at `readPosition`. -/
def readChar? (s : Scanner) : Option Scanner := do
  let position := min s.readPosition (byteLength s.source)
  let rest ← dropBytes? position s.source
  return { s with
    position
    readPosition := match rest.head? with
      | some c => position + c.utf8Size
      | none => byteLength s.source + 1
    current? := rest.head? }

def ofText? (source : String) : Option Scanner :=
  readChar? ⟨source.toList, 0, 0, none⟩

def atEnd (s : Scanner) : Bool := s.current?.isNone

/-- The character behind the current one. -/
def peek? (s : Scanner) : Option Char := (dropBytes? s.readPosition s.source).bind List.head?

/-- Bytes that are still to be read, and one more for the end of the source. -/
def unread (s : Scanner) : Nat :=
  (if s.atEnd then 0 else 1) + (byteLength s.source + 1 - s.readPosition)

theorem unread_readChar?_lt {s t : Scanner} (inside : s.atEnd = false) (read : s.readChar? = some t) :
    t.unread < s.unread := by
  have here : s.unread = 1 + (byteLength s.source + 1 - s.readPosition) := by rw [unread, inside]; rfl
  obtain ⟨rest, cut, same⟩ := Option.bind_eq_some_iff.1 read
  obtain rfl := Option.some.inj same
  obtain ⟨before, whole, place⟩ := Text.dropBytes?_eq_some_iff.1 cut
  have bytes := congrArg byteLength whole
  rw [Text.byteLength_append, place] at bytes
  cases rest with
  | nil =>
    show 0 + (byteLength s.source + 1 - (byteLength s.source + 1)) < s.unread
    omega
  | cons c rest =>
    show 1 + (byteLength s.source + 1 - (min s.readPosition (byteLength s.source) + c.utf8Size)) < s.unread
    have pos := c.utf8Size_pos
    rw [Text.byteLength_cons] at bytes
    omega

/-- Moves on as long as the current character satisfies `p`. -/
def skipWhile? (p : Char → Bool) (s : Scanner) : Option Scanner :=
  if _more : s.current?.any p then
    match _read : s.readChar? with
    | none => none
    | some t => t.skipWhile? p
  else
    some s
termination_by s.unread
decreasing_by
  refine unread_readChar?_lt ?_ _read
  cases h : s.current? <;> simp_all [atEnd]

/-- The token from a position up to the current character. -/
def token? (s : Scanner) (kind : Kind) (start : Nat) : Option Token :=
  (slice? start s.position s.source).map fun text => ⟨kind, String.ofList text, ⟨start, s.position⟩⟩

def readWord? (s : Scanner) : Option (Token × Scanner) := do
  let start := s.position
  let s ← s.skipWhile? Lexeme.isLetter
  let word ← slice? start s.position s.source
  return (← s.token? (.ofWord (String.ofList word)) start, s)

def readNumber? (s : Scanner) : Option (Token × Scanner) := do
  let start := s.position
  let s ← s.skipWhile? Char.isDigit
  return (← s.token? .int start, s)

/-- The token that ends with the current character. -/
def readSymbol? (s : Scanner) (kind : Kind) (start : Nat) : Option (Token × Scanner) := do
  let s ← s.readChar?
  return (← s.token? kind start, s)

/-- The token that starts with the current character. -/
def readToken? (s : Scanner) : Option (Token × Scanner) :=
  match s.current? with
  | none => some (⟨.eof, "", ⟨s.position, s.position⟩⟩, s)
  | some c =>
    if c = '=' ∧ s.peek? = some '=' then do
      (← s.readChar?).readSymbol? .equal s.position
    else if c = '!' ∧ s.peek? = some '=' then do
      (← s.readChar?).readSymbol? .notEqual s.position
    else if Lexeme.isLetter c then s.readWord?
    else if c.isDigit then s.readNumber?
    else s.readSymbol? (.ofSymbol c) s.position

def next? (s : Scanner) : Option (Token × Scanner) := do
  (← s.skipWhile? Text.isGap).readToken?

/-- The next token, as an item that is missing where the end token stands. -/
def item? (s : Scanner) : Option (Option Token × Scanner) := do
  let (t, s) ← s.next?
  return (if t.kind = .eof then none else some t, s)

inductive Query where
  | token
  | item
  | atEnd

inductive Answer where
  | token (token : Token)
  | item (item? : Option Token)
  | atEnd (atEnd : Bool)
  deriving DecidableEq

def ask? (s : Scanner) : Query → Option (Answer × Scanner)
  | .token => s.next?.map fun (t, s) => (.token t, s)
  | .item => s.item?.map fun (t?, s) => (.item t?, s)
  | .atEnd => some (.atEnd s.atEnd, s)

def asks? (s : Scanner) : List Query → Option (List Answer × Scanner)
  | [] => some ([], s)
  | q :: qs => do
    let (answer, s) ← s.ask? q
    let (answers, s) ← s.asks? qs
    return (answer :: answers, s)

end Scanner

abbrev Scanners := List Scanner

namespace Scanners

open Scanner (Query Answer)

inductive Command where
  | ask (i : Nat) (query : Query)
  | clone (i : Nat)

inductive Reply where
  | answer (answer : Answer)
  | cloned (i : Nat)
  /-- There is no such scanner. -/
  | missing
  deriving DecidableEq

/-- Carries out a command; `none` where a cut fails. -/
def step? (w : Scanners) : Command → Option (Reply × Scanners)
  | .ask i q =>
    match w[i]? with
    | none => some (.missing, w)
    | some s => (s.ask? q).map fun (a, s) => (.answer a, w.set i s)
  | .clone i =>
    match w[i]? with
    | none => some (.missing, w)
    | some s => some (.cloned w.length, w ++ [s])

def run? (w : Scanners) : List Command → Option (List Reply × Scanners)
  | [] => some ([], w)
  | c :: cs => do
    let (reply, w) ← step? w c
    let (replies, w) ← run? w cs
    return (reply :: replies, w)

end Scanners

end LetLang.Token
