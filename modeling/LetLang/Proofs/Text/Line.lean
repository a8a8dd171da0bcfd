import LetLang.Text.Line
import Mathlib.Data.List.TakeWhile

/-!
# Lines and places

Complete lines stay what they are whatever follows (`lines_append`). So the place of a position counts
the lines in front of it and looks at its own line only (`ofPosition_append`, `ofPosition_of_lt`,
`ofPosition_of_le`).
-/

namespace LetLang.Text

/-- A text of complete lines, each with its line feed. -/
inductive Complete : List Char → Prop where
  | nil : Complete []
  | line {line rest} (plain : '\n' ∉ line) (later : Complete rest) : Complete (line ++ '\n' :: rest)

variable {cs front line rest : List Char} {p : Char → Bool} {position : Nat}

/-- Every text is complete lines and then the start of one more. -/
theorem exists_complete (cs : List Char) : ∃ front line, cs = front ++ line ∧ Complete front ∧ '\n' ∉ line := by
  induction cs with
  | nil => exact ⟨[], [], rfl, .nil, by simp⟩
  | cons c cs ih =>
    obtain ⟨front, line, rfl, complete, plain⟩ := ih
    by_cases feed : c = '\n'
    · subst feed
      have none : '\n' ∉ ([] : List Char) := List.not_mem_nil
      exact ⟨'\n' :: front, line, rfl, .line none complete, plain⟩
    · have other : '\n' ≠ c := Ne.symm feed
      cases complete with
      | nil => exact ⟨[], c :: line, rfl, .nil, by simp [other, plain]⟩
      | @line first later plain' complete =>
        exact ⟨c :: first ++ '\n' :: later, line, rfl, .line (by simp [other, plain']) complete, plain⟩

theorem lines_of_plain (plain : '\n' ∉ line) (nonempty : line ≠ []) : lines line = [line] := by
  induction line with
  | nil => contradiction
  | cons c line ih =>
    rw [lines, if_neg (List.ne_of_not_mem_cons plain).symm]
    cases line with
    | nil => rfl
    | cons => rw [ih (List.not_mem_of_not_mem_cons plain) (by simp)]

theorem lines_line (plain : '\n' ∉ line) : lines (line ++ '\n' :: rest) = (line ++ ['\n']) :: lines rest := by
  induction line with
  | nil => rw [List.nil_append, lines, if_pos rfl, List.nil_append]
  | cons c line ih =>
    rw [List.cons_append, lines, if_neg (List.ne_of_not_mem_cons plain).symm,
      ih (List.not_mem_of_not_mem_cons plain), List.cons_append]

theorem lines_append (complete : Complete front) (rest : List Char) :
    lines (front ++ rest) = lines front ++ lines rest := by
  induction complete with
  | nil => rfl
  | @line line later plain complete ih =>
    rw [List.append_assoc, List.cons_append, lines_line plain, lines_line plain, ih, List.cons_append]

theorem getLast?_of_mem_lines (complete : Complete front) : ∀ l ∈ lines front, l.getLast? = some '\n' := by
  induction complete with
  | nil => simp [lines]
  | line plain complete ih =>
    rw [lines_line plain]
    exact List.forall_mem_cons.2 ⟨List.getLast?_concat, ih⟩

theorem length_lines (complete : Complete front) : (lines front).length = front.count '\n' := by
  induction complete with
  | nil => rfl
  | line plain complete ih =>
    rw [lines_line plain, List.length_cons, ih, List.count_append, List.count_eq_zero_of_not_mem plain,
      List.count_cons_self, Nat.zero_add]

namespace Location

theorem within_append {ls : List (List Char)} (ended : ∀ l ∈ ls, l.getLast? = some '\n') (ms : List (List Char))
    (position : Nat) :
    within (ls ++ ms) (byteLength ls.flatten + position) =
      { within ms position with line := (within ms position).line + ls.length } := by
  induction ls with
  | nil => rw [List.flatten_nil, byteLength_nil, Nat.zero_add]; rfl
  | cons l ls ih =>
    obtain ⟨last, later⟩ := List.forall_mem_cons.1 ended
    have behind : ¬ byteLength (l :: ls).flatten + position < byteLength l := by
      rw [List.flatten_cons, byteLength_append]
      omega
    have rest : byteLength (l :: ls).flatten + position - byteLength l = byteLength ls.flatten + position := by
      rw [List.flatten_cons, byteLength_append]
      omega
    rw [List.cons_append, within, if_neg behind, if_pos last, rest, ih later]
    rfl

/-- Complete lines in front of a position only count. -/
theorem ofPosition_append (complete : Complete front) (rest : List Char) (position : Nat) :
    ofPosition (front ++ rest) (byteLength front + position) =
      { ofPosition rest position with line := (ofPosition rest position).line + front.count '\n' } := by
  have counted := within_append (getLast?_of_mem_lines complete) (lines rest) position
  rwa [flatten_lines, length_lines complete, ← lines_append complete] at counted

theorem ofPosition_of_lt (plain : '\n' ∉ line) (stop : ∀ c ∈ rest.head?, c = '\n')
    (inside : position < byteLength (line ++ rest.take 1)) :
    ofPosition (line ++ rest) position = ⟨1, trimEnd isLineEnd line, position⟩ := by
  cases rest with
  | nil =>
    rw [List.take_nil, List.append_nil] at inside
    have nonempty : line ≠ [] := by
      rintro rfl
      exact Nat.not_lt_zero _ inside
    rw [List.append_nil, ofPosition, lines_of_plain plain nonempty, within, if_pos inside]
  | cons c rest =>
    obtain rfl := stop c rfl
    have inside : position < byteLength (line ++ ['\n']) := inside
    rw [ofPosition, lines_line plain, within, if_pos inside, trimEnd, List.reverse_append, List.reverse_singleton,
      List.singleton_append, List.dropWhile_cons_of_pos rfl]
    rfl

theorem ofPosition_of_le (plain : '\n' ∉ line) (behind : byteLength line ≤ position) :
    ofPosition line position = ⟨1, line, byteLength line⟩ := by
  cases line with
  | nil => rfl
  | cons c line =>
    have last : (c :: line).getLast? ≠ some '\n' := fun same => plain (List.mem_of_getLast? same)
    rw [ofPosition, lines_of_plain plain (by simp), within, if_neg (Nat.not_lt.2 behind), if_neg last]

end Location

theorem column_zero (cs : List Char) : column cs 0 = 0 := by
  cases cs with
  | nil => rfl
  | cons c cs => rw [column, if_neg (Nat.not_le.2 c.utf8Size_pos)]

/-! ### Trimmed ends -/

variable {xs ys ds : List Char} {c : Char}

theorem head?_dropWhile (p : Char → Bool) (cs : List Char) : ∀ c ∈ (cs.dropWhile p).head?, p c = false := by
  intro c first
  have stops := List.head?_dropWhile_not p cs
  rw [first] at stops
  exact stops

theorem dropWhile_of_stop (stop : ∀ c ∈ ys.head?, p c = false) : ys.dropWhile p = ys := by
  cases ys with
  | nil => rfl
  | cons c ys => rw [List.dropWhile_cons_of_neg (by simp [stop c rfl])]

theorem dropWhile_append_of_stop (stop : ∀ c ∈ ys.head?, p c = false) :
    (xs ++ ys).dropWhile p = xs.dropWhile p ++ ys := by
  rw [List.dropWhile_append, dropWhile_of_stop stop]
  split
  · simp_all
  · rfl

/-- A character that is not trimmed keeps the text up to it. -/
theorem trimEnd_append (stop : ∀ c ∈ cs.getLast?, p c = false) (ds : List Char) :
    trimEnd p (cs ++ ds) = cs ++ trimEnd p ds := by
  rw [← List.head?_reverse] at stop
  rw [trimEnd, List.reverse_append, dropWhile_append_of_stop stop, List.reverse_append, List.reverse_reverse]
  rfl

theorem trimEnd_append_of_mem (member : c ∈ ds) (stays : p c = false) (cs : List Char) :
    trimEnd p (cs ++ ds) = cs ++ trimEnd p ds := by
  have some : (ds.reverse.dropWhile p).isEmpty = false := by
    rw [← Bool.not_eq_true, List.isEmpty_iff, List.dropWhile_eq_nil_iff]
    intro all
    rw [all c (List.mem_reverse.2 member)] at stays
    contradiction
  rw [trimEnd, List.reverse_append, List.dropWhile_append, some, if_neg (by simp), List.reverse_append,
    List.reverse_reverse]
  rfl

theorem trimEnd_append_of_forall (all : ∀ c ∈ ds, p c = true) (cs : List Char) :
    trimEnd p (cs ++ ds) = trimEnd p cs := by
  rw [trimEnd, List.reverse_append, List.dropWhile_append_of_pos (by simpa using all)]
  rfl

theorem length_trimEnd_le (p : Char → Bool) (cs : List Char) : (trimEnd p cs).length ≤ cs.length := by
  rw [trimEnd, List.length_reverse]
  exact (List.dropWhile_sublist p).length_le.trans (Nat.le_of_eq List.length_reverse)

end LetLang.Text
