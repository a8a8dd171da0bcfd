import LetLang.Token.Scanner
import LetLang.Proofs.Token.Piece

/-!
# Scanners and cursors

A scanner holds what a cursor at the same place of the source sees (`Cursor.scanner`), and reads what the
cursor reads (`scanner_next?`). So no cut of it fails, and its `k`-th token is the `k`-th one of the source
(`ask?_standing`).
-/

namespace LetLang

/-- A cut has a text exactly if it is in range and goes through no character. -/
theorem Text.isSome_slice?_iff {start stop : Nat} {cs : List Char} :
    (slice? start stop cs).isSome ↔ start ≤ stop ∧ IsBoundary cs start ∧ IsBoundary cs stop := by
  rw [Option.isSome_iff_exists]
  constructor
  · rintro ⟨text, found⟩
    obtain ⟨before, after, rfl, rfl, rfl⟩ := slice?_eq_some_iff.1 found
    refine ⟨?_, ⟨before, text ++ after, List.append_assoc .., rfl⟩, ⟨before ++ text, after, rfl, rfl⟩⟩
    rw [byteLength_append]
    exact Nat.le_add_right ..
  · rintro ⟨le, ⟨before, behind, rfl, rfl⟩, ⟨front, after, same, rfl⟩⟩
    obtain ⟨text, rfl, rfl⟩ := append_eq_append_of_le same le
    exact ⟨text, slice?_eq_some_iff.2 ⟨before, after, same, rfl, rfl⟩⟩

namespace Token

open Text (byteLength dropBytes? slice?)

namespace Cursor

/-- The cursor stands between two parts of the text. -/
def In (c : Cursor) (cs : List Char) : Prop := ∃ before, cs = before ++ c.rest ∧ byteLength before = c.offset

/-- The scanner that looks at the character behind the cursor. -/
def scanner (c : Cursor) (cs : List Char) : Scanner where
  source := cs
  position := c.offset
  readPosition := match c.rest.head? with
    | some d => c.offset + d.utf8Size
    | none => byteLength cs + 1
  current? := c.rest.head?

variable {c : Cursor} {cs : List Char}

theorem in_ofText (source : String) : (ofText source).In source.toList := ⟨[], rfl, rfl⟩

theorem In.offset_add_rest (h : c.In cs) : c.offset + byteLength c.rest = byteLength cs := by
  obtain ⟨before, rfl, place⟩ := h
  rw [Text.byteLength_append, place]

theorem In.dropBytes? (h : c.In cs) : dropBytes? c.offset cs = some c.rest :=
  Text.dropBytes?_eq_some_iff.2 h

theorem In.skip (h : c.In cs) (n : Nat) : (c.skip n).In cs := by
  obtain ⟨before, rfl, place⟩ := h
  refine ⟨before ++ c.rest.take n, ?_, ?_⟩
  · rw [List.append_assoc]
    exact congrArg (before ++ ·) (List.take_append_drop n c.rest).symm
  · rw [Text.byteLength_append, place]
    rfl

theorem In.next (h : c.In cs) : c.next.2.In cs := by
  have clear : c.skipGap.In cs := h.skip _
  unfold Cursor.next readToken
  split
  · exact clear
  · exact clear.skip _

theorem In.slice?_skip (h : c.In cs) (n : Nat) :
    slice? c.offset (c.skip n).offset cs = some (c.rest.take n) := by
  obtain ⟨before, rfl, place⟩ := h
  have cut := Text.slice?_append before (c.rest.take n) (c.rest.drop n)
  rwa [List.append_assoc, List.take_append_drop, place] at cut

/-- The cursor behind the first `k` tokens of a source. -/
def after (source : String) (k : Nat) : Cursor := (fun c => c.next.2)^[k] (.ofText source)

theorem after_succ (source : String) (k : Nat) : after source (k + 1) = (after source k).next.2 :=
  Function.iterate_succ_apply' ..

theorem in_after (source : String) (k : Nat) : (after source k).In source.toList := by
  induction k with
  | zero => exact in_ofText source
  | succ k ih =>
    rw [after_succ]
    exact ih.next

/-! ### What a scanner reads -/

theorem scanner_readChar? (h : c.In cs) : (c.scanner cs).readChar? = some ((c.skip 1).scanner cs) := by
  have bytes := h.offset_add_rest
  have place : min (c.scanner cs).readPosition (byteLength cs) = (c.skip 1).offset := by
    simp only [scanner, skip]
    cases shape : c.rest with
    | nil =>
      rw [shape, Text.byteLength_nil] at bytes
      simp only [List.head?_nil, List.take_nil, Text.byteLength_nil]
      omega
    | cons d rest =>
      rw [shape, Text.byteLength_cons] at bytes
      simp only [List.head?_cons, List.take_succ_cons, List.take_zero, Text.byteLength_cons, Text.byteLength_nil]
      omega
  refine Option.bind_eq_some_iff.2 ⟨(c.skip 1).rest, ?_, ?_⟩
  · show Text.dropBytes? (min (c.scanner cs).readPosition (byteLength cs)) cs = _
    rw [place]
    exact (h.skip 1).dropBytes?
  · show some _ = _
    rw [show (c.scanner cs).source = cs from rfl, place]
    rfl

theorem scanner_peek? (h : c.In cs) : (c.scanner cs).peek? = c.rest.tail.head? := by
  have behind := (h.skip 1).dropBytes?
  simp only [skip, List.drop_one] at behind
  unfold Scanner.peek? scanner
  cases shape : c.rest with
  | nil =>
    -- The place of the next read lies behind the source here, where nothing can be cut.
    have spent : Text.dropBytes? (byteLength cs + 1) cs = none := by
      refine Option.eq_none_iff_forall_ne_some.2 fun rest found => ?_
      obtain ⟨before, rfl, place⟩ := Text.dropBytes?_eq_some_iff.1 found
      rw [Text.byteLength_append] at place
      omega
    simp only [List.head?_nil, spent, Option.bind_none, List.tail_nil]
  | cons d rest =>
    rw [shape] at behind
    simp only [List.take_succ_cons, List.take_zero, Text.byteLength_cons, Text.byteLength_nil,
      Nat.add_zero] at behind
    simp only [List.head?_cons, behind, Option.bind_some]

theorem atEnd_scanner (c : Cursor) (cs : List Char) : (c.scanner cs).atEnd = c.atEnd := by
  simp only [Scanner.atEnd, scanner, atEnd]
  cases c.rest <;> rfl

theorem scanner_skipWhile? (h : c.In cs) (p : Char → Bool) :
    (c.scanner cs).skipWhile? p = some ((c.skip (c.rest.takeWhile p).length).scanner cs) := by
  generalize shape : c.rest = rest
  induction rest generalizing c with
  | nil =>
    rw [Scanner.skipWhile?, dif_neg (by simp [scanner, shape])]
    simp [skip, scanner, shape]
  | cons d rest ih =>
    rw [Scanner.skipWhile?]
    have current : (c.scanner cs).current? = some d := by rw [scanner, shape]; rfl
    rw [current, Option.any_some]
    cases more : p d with
    | false => simp [more, skip, scanner, shape]
    | true =>
      -- The match carries its equation for the sake of termination, so it does not rewrite.
      rw [dif_pos rfl]
      split
      · next failed => cases failed.symm.trans (scanner_readChar? h)
      · next t read =>
        obtain rfl := Option.some.inj (read.symm.trans (scanner_readChar? h))
        have tail : (c.skip 1).rest = rest := by simp [skip, shape]
        rw [ih (h.skip 1) tail, skip_skip, List.takeWhile_cons_of_pos more, List.length_cons, Nat.add_comm]

/-- The token of the next `n` characters. -/
def cutToken (c : Cursor) (k : Kind) (n : Nat) : Token :=
  ⟨k, String.ofList (c.rest.take n), ⟨c.offset, (c.skip n).offset⟩⟩

theorem scanner_token? (h : c.In cs) (k : Kind) (n : Nat) :
    ((c.skip n).scanner cs).token? k c.offset = some (c.cutToken k n) :=
  Option.map_eq_some_iff.2 ⟨_, h.slice?_skip n, rfl⟩

theorem scanner_readSymbol? (h : c.In cs) (k : Kind) (n : Nat) :
    ((c.skip n).scanner cs).readSymbol? k c.offset =
      some (c.cutToken k (n + 1), (c.skip (n + 1)).scanner cs) := by
  have read := scanner_readChar? (h.skip n)
  rw [skip_skip] at read
  refine Option.bind_eq_some_iff.2 ⟨_, read, ?_⟩
  exact Option.bind_eq_some_iff.2 ⟨_, scanner_token? h k (n + 1), rfl⟩

theorem scanner_readWord? (h : c.In cs) :
    (c.scanner cs).readWord? =
      some (c.cutToken (.ofWord (String.ofList (c.rest.takeWhile Lexeme.isLetter)))
          (c.rest.takeWhile Lexeme.isLetter).length,
        (c.skip (c.rest.takeWhile Lexeme.isLetter).length).scanner cs) := by
  have word := h.slice?_skip (c.rest.takeWhile Lexeme.isLetter).length
  rw [← List.prefix_iff_eq_take.1 (List.takeWhile_prefix _)] at word
  refine Option.bind_eq_some_iff.2 ⟨_, scanner_skipWhile? h _, ?_⟩
  refine Option.bind_eq_some_iff.2 ⟨_, word, ?_⟩
  exact Option.bind_eq_some_iff.2 ⟨_, scanner_token? h _ _, rfl⟩

theorem scanner_readNumber? (h : c.In cs) :
    (c.scanner cs).readNumber? =
      some (c.cutToken .int (c.rest.takeWhile Char.isDigit).length,
        (c.skip (c.rest.takeWhile Char.isDigit).length).scanner cs) := by
  refine Option.bind_eq_some_iff.2 ⟨_, scanner_skipWhile? h _, ?_⟩
  exact Option.bind_eq_some_iff.2 ⟨_, scanner_token? h _ _, rfl⟩

theorem readToken_of_scan? {k : Kind} {n : Nat} (found : Lexeme.scan? c.rest = some (k, n)) :
    c.readToken = (c.cutToken k n, c.skip n) := by
  unfold readToken
  rw [found]
  rfl

theorem scanner_readPair? (h : c.In cs) (k : Kind) :
    ((c.scanner cs).readChar? >>= fun s => s.readSymbol? k c.offset) = some (c.cutToken k 2, (c.skip 2).scanner cs) :=
  Option.bind_eq_some_iff.2 ⟨_, scanner_readChar? h, scanner_readSymbol? h k 1⟩

theorem scanner_readToken? (h : c.In cs) :
    (c.scanner cs).readToken? = some (c.readToken.1, c.readToken.2.scanner cs) := by
  have peeked := scanner_peek? h
  have first : (c.scanner cs).current? = c.rest.head? := rfl
  unfold Scanner.readToken?
  rw [first, peeked]
  cases shape : c.rest with
  | nil =>
    rw [readToken, (Lexeme.scan?_eq_none_iff _).2 shape]
    rfl
  | cons d rest =>
    rw [List.head?_cons, List.tail_cons]
    dsimp only
    by_cases equal : d = '=' ∧ rest.head? = some '='
    · obtain ⟨rfl, next⟩ := equal
      obtain ⟨rest, rfl⟩ := List.head?_eq_some_iff.1 next
      rw [if_pos ⟨rfl, next⟩, readToken_of_scan? (k := .equal) (n := 2) (by rw [shape]; rfl)]
      exact scanner_readPair? h .equal
    by_cases notEqual : d = '!' ∧ rest.head? = some '='
    · obtain ⟨rfl, next⟩ := notEqual
      obtain ⟨rest, rfl⟩ := List.head?_eq_some_iff.1 next
      rw [if_neg equal, if_pos ⟨rfl, next⟩, readToken_of_scan? (k := .notEqual) (n := 2) (by rw [shape]; rfl)]
      exact scanner_readPair? h .notEqual
    -- From here on the first character alone decides.
    have single : ¬ ((d = '=' ∨ d = '!') ∧ rest.head? = some '=') := by tauto
    have scanned := Lexeme.scan?_cons single
    rw [← shape] at scanned
    rw [if_neg equal, if_neg notEqual]
    by_cases letter : Lexeme.isLetter d = true
    · rw [if_pos letter] at scanned ⊢
      rw [readToken_of_scan? scanned]
      exact scanner_readWord? h
    by_cases digit : d.isDigit = true
    · rw [if_neg letter, if_pos digit] at scanned ⊢
      rw [readToken_of_scan? scanned]
      exact scanner_readNumber? h
    · rw [if_neg letter, if_neg digit] at scanned ⊢
      rw [readToken_of_scan? scanned]
      exact scanner_readSymbol? h _ 0

theorem scanner_next? (h : c.In cs) : (c.scanner cs).next? = some (c.next.1, c.next.2.scanner cs) :=
  Option.bind_eq_some_iff.2 ⟨_, scanner_skipWhile? h Text.isGap, scanner_readToken? (h.skip _)⟩

theorem scanner_item? (h : c.In cs) : (c.scanner cs).item? =
    some (if c.next.1.kind = .eof then none else some c.next.1, c.next.2.scanner cs) :=
  Option.bind_eq_some_iff.2 ⟨_, scanner_next? h, rfl⟩

/-! ### At the end -/

theorem eof_eq (h : c.In cs) (last : c.next.1.kind = .eof) : c.next.1 = endAt (byteLength cs) := by
  rw [next_of_gap (gaps_of_eof last), h.offset_add_rest]

theorem rest_of_eof (last : c.next.1.kind = .eof) : c.next.2.rest = [] := by
  have spent : c.skipGap.rest = [] := (readToken_eof_iff _).1 last
  unfold Cursor.next readToken
  rw [(Lexeme.scan?_eq_none_iff _).2 spent]
  exact spent

end Cursor

namespace Scanner

open Cursor

variable {c : Cursor} {cs : List Char}

/-- The positions and the character that a scanner holds are those of one place of the text, and a token is cut
out from there exactly back to where a character starts. -/
structure Fits (s : Scanner) (cs : List Char) : Prop where
  source_eq : s.source = cs
  position_le : s.position ≤ byteLength cs
  boundary : Text.IsBoundary cs s.position
  current : ∃ rest, dropBytes? s.position cs = some rest ∧ s.current? = rest.head? ∧
    s.peek? = rest.tail.head? ∧ (s.atEnd = true ↔ rest = [])
  current?_eq_none_iff : s.current? = none ↔ s.position = byteLength cs
  readPosition_of_some : ∀ c, s.current? = some c → s.readPosition = s.position + c.utf8Size
  readPosition_of_none : s.current? = none → s.readPosition = byteLength cs + 1
  token? : ∀ kind start, (s.token? kind start).isSome ↔ start ≤ s.position ∧ Text.IsBoundary cs start

/-- What a scanner that is through with a source of `n` bytes answers. -/
def Query.last (n : Nat) : Query → Answer
  | .token => .token ⟨.eof, "", ⟨n, n⟩⟩
  | .item => .item none
  | .atEnd => .atEnd true

theorem fits_scanner (h : c.In cs) : (c.scanner cs).Fits cs := by
  have bytes := h.offset_add_rest
  have boundary : Text.IsBoundary cs c.offset := by
    obtain ⟨before, same, place⟩ := h
    exact ⟨before, c.rest, same, place⟩
  have spent : c.rest.head? = none ↔ c.offset = byteLength cs := by
    cases shape : c.rest with
    | nil =>
      rw [shape, Text.byteLength_nil] at bytes
      simpa using bytes
    | cons d rest =>
      have pos := d.utf8Size_pos
      rw [shape, Text.byteLength_cons] at bytes
      simp only [List.head?_cons, reduceCtorEq, false_iff]
      omega
  constructor
  case source_eq => rfl
  case position_le => exact Nat.le.intro bytes
  case boundary => exact boundary
  case current => exact ⟨c.rest, h.dropBytes?, rfl, scanner_peek? h, by simp [atEnd_scanner, Cursor.atEnd]⟩
  case current?_eq_none_iff => exact spent
  case readPosition_of_some =>
    intro d first
    simp only [scanner] at first ⊢
    rw [first]
  case readPosition_of_none =>
    intro none
    simp only [scanner] at none ⊢
    rw [none]
  case token? =>
    intro kind start
    rw [Scanner.token?, Option.isSome_map, Text.isSome_slice?_iff]
    exact ⟨fun ⟨le, starts, _⟩ => ⟨le, starts⟩, fun ⟨le, starts⟩ => ⟨le, starts, boundary⟩⟩

/-- Every reading finds the texts that it cuts out. -/
structure Reads (s : Scanner) : Prop where
  readChar? : s.readChar?.isSome
  readWord? : s.readWord?.isSome
  readNumber? : s.readNumber?.isSome
  next? : s.next?.isSome
  item? : s.item?.isSome

theorem reads_scanner (h : c.In cs) : (c.scanner cs).Reads where
  readChar? := Option.isSome_of_eq_some (scanner_readChar? h)
  readWord? := Option.isSome_of_eq_some (scanner_readWord? h)
  readNumber? := Option.isSome_of_eq_some (scanner_readNumber? h)
  next? := Option.isSome_of_eq_some (scanner_next? h)
  item? := Option.isSome_of_eq_some (scanner_item? h)

theorem ask?_of_eof (h : c.In cs) (last : c.next.1.kind = .eof) (q : Query) :
    (c.next.2.scanner cs).ask? q = some (q.last (byteLength cs), c.next.2.scanner cs) := by
  have again := next_of_eof last
  have shown : c.next.1 = endAt (byteLength cs) := eof_eq h last
  cases q with
  | token => rw [ask?, scanner_next? h.next, again, shown]; rfl
  | item => rw [ask?, scanner_item? h.next, again, if_pos last]; rfl
  | atEnd => rw [ask?, atEnd_scanner, Cursor.atEnd, rest_of_eof last]; rfl

/-- A scanner that has answered the end token answers nothing else any more. -/
theorem asks?_of_eof (h : c.In cs) (last : c.next.1.kind = .eof) (qs : List Query) :
    (c.next.2.scanner cs).asks? qs = some (qs.map (Query.last (byteLength cs)), c.next.2.scanner cs) := by
  induction qs with
  | nil => rfl
  | cons q qs ih => rw [asks?, ask?_of_eof h last]; simp [ih]

/-! ### The tokens of a source -/

/-- The scanner of a source that has given its first `k` tokens. -/
def standing (source : String) (k : Nat) : Scanner := (Cursor.after source k).scanner source.toList

theorem ofText?_eq (source : String) : ofText? source = some (standing source 0) := by
  have cut : dropBytes? (min 0 (byteLength source.toList)) source.toList = some source.toList :=
    Text.dropBytes?_eq_some_iff.2 ⟨[], rfl, (Nat.zero_min _).symm⟩
  refine Option.bind_eq_some_iff.2 ⟨_, cut, ?_⟩
  rw [Nat.zero_min]
  rfl

/-- The tokens that a question takes. -/
def Query.takes : Query → Nat
  | .token | .item => 1
  | .atEnd => 0

/-- The answer of a scanner that has given `k` tokens of a source. -/
def Query.answer (source : String) (k : Nat) : Query → Answer
  | .token => .token (nth source k)
  | .item => .item (if (nth source k).kind = .eof then none else some (nth source k))
  | .atEnd => .atEnd (Cursor.after source k).atEnd

theorem ask?_standing (source : String) (k : Nat) (q : Query) :
    (standing source k).ask? q = some (q.answer source k, standing source (k + q.takes)) := by
  have inside := in_after source k
  have shown : (after source k).next.1 = nth source k := next_iterate_ofText source k
  cases q with
  | token =>
    rw [ask?, standing, scanner_next? inside, shown, ← after_succ]
    rfl
  | item =>
    rw [ask?, standing, scanner_item? inside, shown, ← after_succ]
    rfl
  | atEnd =>
    rw [ask?, standing, atEnd_scanner]
    rfl

end Scanner

end Token

end LetLang
