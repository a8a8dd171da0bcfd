import LetLang.Proofs.Token.Layout
import LetLang.Proofs.Token.Number
import LetLang.Proofs.Token.Shift
import LetLang.Power

/-!
# Texts that are read back

`Lexes` says over which kinds and texts a window moves from in front of a text. Lexemes in sequence
are read back as they are, as long as none goes on with the one in front of it.
-/

namespace LetLang.Token

open Text (isGap)

/-- A token without its place. -/
def lexeme (t : Token) : Kind × String := (t.kind, t.text)

/-- The window stands in front of the text. -/
def Window.Before (w : Window) (cs : List Char) : Prop := ∃ c : Cursor, w = .ofCursor c ∧ c.rest = cs

/-- From in front of the text, tokens of these kinds and texts lead up to where `rest` is left. -/
def Lexes (cs : List Char) (xs : List (Kind × String)) (rest : List Char) : Prop :=
  ∀ w : Window, w.Before cs → ∃ v ts, w.Passes ts v ∧ ts.map lexeme = xs ∧ v.Before rest

variable {cs mid rest blanks : List Char} {xs ys : List (Kind × String)} {k : Kind} {t : Token}
  {source text : String} {w v : Window} {ts : List Token} {i : Nat}

theorem lexeme_of_mem (member : t ∈ ofText source) (inside : t.kind ≠ .eof) : Lexeme t.kind t.text.toList :=
  ((laid_ofText source).cut member inside).1

theorem Window.At.lexeme (h : w.At source i) (inside : w.current.kind ≠ .eof) :
    Lexeme w.current.kind w.current.text.toList := by
  rw [h.current] at inside ⊢
  exact lexeme_of_mem (nth_mem source i) inside

theorem Window.At.lexemes (h : w.At source i) (moved : w.Passes ts v) :
    ∀ t ∈ ts, Lexeme t.kind t.text.toList := by
  induction ts generalizing w i with
  | nil => simp
  | cons t ts ih =>
    obtain ⟨rfl, inside, rest⟩ := moved
    exact List.forall_mem_cons.2 ⟨h.lexeme inside, ih (h.iterate 1) rest⟩

namespace Window.Before

theorem ofText (source : String) : (Window.ofText source).Before source.toList := ⟨.ofText source, rfl, rfl⟩

theorem numeric (h : w.Before cs) : w.Numeric := by
  obtain ⟨c, rfl, -⟩ := h
  intro k
  rw [iterate_ofCursor]
  exact Cursor.numeric_next _

theorem ended (h : w.Before []) : w.current.kind = .eof := by
  obtain ⟨c, rfl, spent⟩ := h
  refine (Cursor.readToken_eof_iff _).2 ?_
  rw [Cursor.skipGap_rest, spent]
  rfl

theorem behind_gap (h : w.Before (blanks ++ cs)) (gap : ∀ x ∈ blanks, isGap x = true) : w.Before cs := by
  obtain ⟨c, rfl, front⟩ := h
  refine ⟨c.skip blanks.length, ?_, ?_⟩
  · unfold Window.ofCursor
    rw [Cursor.next_skip front gap]
  · show c.rest.drop _ = cs
    rw [front, List.drop_left]

theorem lexeme (h : w.Before (text.toList ++ rest)) (shape : Lexeme k text.toList)
    (clear : ∀ x ∈ rest.head?, k.absorbs x = false) : w.current.lexeme = (k, text) ∧ w.advance.Before rest := by
  obtain ⟨c, rfl, front⟩ := h
  obtain ⟨shown, behind⟩ := Cursor.next_of_lexeme front shape clear
  refine ⟨?_, c.next.2, rfl, behind⟩
  show c.next.1.lexeme = _
  rw [shown, Token.lexeme, placed, String.ofList_toList]

theorem cut (h : w.Before cs) (more : cs ≠ []) (solid : ∀ x ∈ cs.head?, isGap x = false) :
    ∃ front back, cs = front ++ back ∧ Lexeme w.current.kind front ∧ w.current.text = String.ofList front := by
  obtain ⟨c, rfl, same⟩ := h
  cases found : Lexeme.scan? cs with
  | none => exact absurd ((Lexeme.scan?_eq_none_iff _).1 found) more
  | some lexeme =>
    obtain ⟨k, n⟩ := lexeme
    have here : c.rest = [] ++ cs := same
    obtain ⟨shown, -, -⟩ := Cursor.next_of_scan? here (by simp) solid found
    refine ⟨cs.take n, cs.drop n, (List.take_append_drop n cs).symm, ?_, ?_⟩
    · show Lexeme c.next.1.kind _
      rw [shown]
      exact Lexeme.lexeme_of_scan? found solid
    · show c.next.1.text = _
      rw [shown, placed]

/-- Characters of one class that go on behind a text are one token with it. -/
theorem run {p : Char → Bool} {kind : List Char → Kind} {c : Char}
    (shape : ∀ {run}, run ≠ [] → (∀ x ∈ run, p x = true) → Lexeme (kind run) run)
    (absorbs : ∀ run, (kind run).absorbs = p) (inside : ∀ x ∈ text.toList, p x = true) (more : p c = true)
    (h : w.Before (text.toList ++ c :: rest)) : (∃ run, w.current.kind = kind run) ∧ w.current.text ≠ text := by
  have split := List.takeWhile_append_dropWhile (p := p) (l := text.toList ++ c :: rest)
  have longer : text.toList.length < ((text.toList ++ c :: rest).takeWhile p).length := by
    rw [List.takeWhile_append_of_pos inside, List.takeWhile_cons_of_pos more, List.length_append,
      List.length_cons]
    omega
  have stops : ∀ x ∈ ((text.toList ++ c :: rest).dropWhile p).head?, p x = false := by
    intro x first
    have last := List.head?_dropWhile_not p (text.toList ++ c :: rest)
    rw [first] at last
    exact last
  have inside : ∀ x ∈ (text.toList ++ c :: rest).takeWhile p, p x = true := fun x => List.mem_takeWhile_imp
  generalize (text.toList ++ c :: rest).takeWhile p = run at split longer inside
  have whole := shape (List.ne_nil_of_length_pos (Nat.lt_of_le_of_lt (Nat.zero_le _) longer)) inside
  rw [← split, ← String.toList_ofList (l := run)] at h
  rw [← String.toList_ofList (l := run)] at whole
  obtain ⟨shown, -⟩ := h.lexeme whole (by rw [absorbs]; exact stops)
  obtain ⟨kind, same⟩ := Prod.mk.inj shown
  refine ⟨⟨_, kind⟩, ?_⟩
  rintro rfl
  rw [same, String.toList_ofList] at longer
  omega

theorem word {c : Char} (letters : ∀ x ∈ text.toList, Lexeme.isLetter x = true) (more : Lexeme.isLetter c = true)
    (h : w.Before (text.toList ++ c :: rest)) : w.current.kind ≠ .openParen ∧ w.current.text ≠ text := by
  obtain ⟨⟨run, kind⟩, other⟩ := h.run .word (fun run => Kind.absorbs_ofWord _) letters more
  refine ⟨?_, other⟩
  rw [kind]
  exact Kind.ofWord_ne (by decide) _

theorem number {c : Char} (digits : ∀ x ∈ text.toList, x.isDigit = true) (more : c.isDigit = true)
    (h : w.Before (text.toList ++ c :: rest)) : w.current.kind ≠ .openParen ∧ w.current.text ≠ text := by
  obtain ⟨⟨-, kind⟩, other⟩ := h.run .number (fun _ => rfl) digits more
  exact ⟨by rw [kind]; decide, other⟩

end Window.Before

namespace Lexes

theorem refl (cs : List Char) : Lexes cs [] cs := fun w here => ⟨w, [], .refl w, rfl, here⟩

theorem trans (first : Lexes cs xs mid) (second : Lexes mid ys rest) : Lexes cs (xs ++ ys) rest := by
  intro w here
  obtain ⟨v, ts, moved, rfl, there⟩ := first w here
  obtain ⟨u, us, further, rfl, last⟩ := second v there
  exact ⟨u, ts ++ us, moved.trans further, List.map_append, last⟩

theorem cons (h : Lexeme k text.toList) (clear : ∀ x ∈ mid.head?, k.absorbs x = false)
    (later : Lexes mid xs rest) : Lexes (text.toList ++ mid) ((k, text) :: xs) rest := by
  intro w here
  obtain ⟨shown, there⟩ := here.lexeme h clear
  obtain ⟨v, ts, moved, rfl, last⟩ := later w.advance there
  have inside : w.current.kind ≠ .eof := by
    rw [(Prod.mk.inj shown).1]
    exact h.kind_ne_eof
  exact ⟨v, w.current :: ts, .cons inside moved, by rw [List.map_cons, shown], last⟩

theorem behind_gap (gap : ∀ x ∈ blanks, isGap x = true) (h : Lexes cs xs rest) :
    Lexes (blanks ++ cs) xs rest := by
  intro w here
  exact h w (here.behind_gap gap)

end Lexes

/-! ### Spellings -/

theorem lexeme_openParen : Lexeme .openParen "(".toList := .symbol (c := '(') rfl rfl rfl

theorem lexeme_closeParen : Lexeme .closeParen ")".toList := .symbol (c := ')') rfl rfl rfl

theorem lexeme_semicolon : Lexeme .semicolon ";".toList := .symbol (c := ';') rfl rfl rfl

theorem lexeme_assign : Lexeme .assign "=".toList := .symbol (c := '=') rfl rfl rfl

theorem lexeme_word {word : String} (kind : Kind.ofWord word = k) (nonempty : word.toList ≠ [])
    (letters : ∀ c ∈ word.toList, Lexeme.isLetter c = true) : Lexeme k word.toList := by
  have read := Lexeme.word nonempty letters
  rwa [String.ofList_toList, kind] at read

theorem lexeme_unary (h : k = .bang ∨ k = .minus) : Lexeme k k.name.toList := by
  rcases h with rfl | rfl
  · exact .symbol (c := '!') rfl rfl rfl
  · exact .symbol (c := '-') rfl rfl rfl

theorem lexeme_operator (h : k.isOperator = true) : Lexeme k k.name.toList := by
  cases k with
  | equal => exact .equal
  | notEqual => exact .notEqual
  | plus => exact .symbol (c := '+') rfl rfl rfl
  | minus => exact .symbol (c := '-') rfl rfl rfl
  | star => exact .symbol (c := '*') rfl rfl rfl
  | slash => exact .symbol (c := '/') rfl rfl rfl
  | less => exact .symbol (c := '<') rfl rfl rfl
  | greater => exact .symbol (c := '>') rfl rfl rfl
  | _ => contradiction

end LetLang.Token
