/-!
Byte positions in a text. Positions count the bytes of the UTF-8 form, so a cut may fall inside
a character; `slice?` refuses such a cut.
-/

namespace LetLang.Text

/-- Bytes of the UTF-8 form. -/
def byteLength (cs : List Char) : Nat := (String.ofList cs).utf8ByteSize

@[simp] theorem byteLength_nil : byteLength [] = 0 := String.utf8ByteSize_empty

@[simp] theorem byteLength_cons (c : Char) (cs : List Char) :
    byteLength (c :: cs) = c.utf8Size + byteLength cs := by
  unfold byteLength
  rw [String.ofList_cons, String.utf8ByteSize_append, String.utf8ByteSize_singleton]

@[simp] theorem byteLength_append (cs ds : List Char) :
    byteLength (cs ++ ds) = byteLength cs + byteLength ds := by
  unfold byteLength
  rw [String.ofList_append, String.utf8ByteSize_append]

theorem byteLength_take_add_drop (n : Nat) (cs : List Char) :
    byteLength (cs.take n) + byteLength (cs.drop n) = byteLength cs := by
  rw [← byteLength_append, List.take_append_drop]

theorem length_le_byteLength (cs : List Char) : cs.length ≤ byteLength cs := by
  induction cs with
  | nil => simp
  | cons c cs ih =>
    have := c.utf8Size_pos
    simp only [List.length_cons, byteLength_cons]
    omega

/-- A character is at least one byte, so a text with one in front is counted down from a successor. -/
theorem exists_byteLength_cons (c : Char) (cs : List Char) :
    ∃ n, byteLength (c :: cs) = n + 1 ∧ c.utf8Size ≤ n + 1 ∧ n + 1 - c.utf8Size = byteLength cs := by
  have positive := c.utf8Size_pos
  refine ⟨c.utf8Size + byteLength cs - 1, ?_, ?_, ?_⟩
  · rw [byteLength_cons]
    omega
  · omega
  · omega

/-- What is left after `n` bytes; `none` past the end and inside a character. -/
def dropBytes? : Nat → List Char → Option (List Char)
  | 0, cs => some cs
  | _ + 1, [] => none
  | n + 1, c :: cs => if c.utf8Size ≤ n + 1 then dropBytes? (n + 1 - c.utf8Size) cs else none

/-- The first `n` bytes; `none` past the end and inside a character. -/
def takeBytes? : Nat → List Char → Option (List Char)
  | 0, _ => some []
  | _ + 1, [] => none
  | n + 1, c :: cs =>
    if c.utf8Size ≤ n + 1 then (takeBytes? (n + 1 - c.utf8Size) cs).map (c :: ·) else none

/-- The characters between two byte positions. -/
def slice? (start stop : Nat) (cs : List Char) : Option (List Char) :=
  if start ≤ stop then (dropBytes? start cs).bind (takeBytes? (stop - start)) else none

theorem dropBytes?_byteLength (cs ds : List Char) :
    dropBytes? (byteLength cs) (cs ++ ds) = some ds := by
  induction cs with
  | nil => cases ds <;> rfl
  | cons c cs ih =>
    obtain ⟨n, size, fits, rest⟩ := exists_byteLength_cons c cs
    rw [size, List.cons_append, dropBytes?, if_pos fits, rest, ih]

/-- A rest exists exactly behind whole characters. -/
theorem dropBytes?_eq_some_iff {n : Nat} {cs rest : List Char} :
    dropBytes? n cs = some rest ↔ ∃ before, cs = before ++ rest ∧ byteLength before = n := by
  constructor
  · fun_induction dropBytes? n cs with
    | case1 cs => rintro ⟨⟩; exact ⟨[], rfl, rfl⟩
    | case2 => nofun
    | case3 n c cs fits ih =>
      intro h
      obtain ⟨before, rfl, bytes⟩ := ih h
      exact ⟨c :: before, rfl, by rw [byteLength_cons, bytes]; omega⟩
    | case4 => nofun
  · rintro ⟨before, rfl, rfl⟩
    exact dropBytes?_byteLength before rest

theorem takeBytes?_byteLength (cs ds : List Char) :
    takeBytes? (byteLength cs) (cs ++ ds) = some cs := by
  induction cs with
  | nil => cases ds <;> rfl
  | cons c cs ih =>
    obtain ⟨n, size, fits, rest⟩ := exists_byteLength_cons c cs
    rw [size, List.cons_append, takeBytes?, if_pos fits, rest, ih]
    rfl

theorem takeBytes?_eq_some_iff {n : Nat} {cs text : List Char} :
    takeBytes? n cs = some text ↔ ∃ after, cs = text ++ after ∧ byteLength text = n := by
  constructor
  · fun_induction takeBytes? n cs generalizing text with
    | case1 cs => rintro ⟨⟩; exact ⟨cs, rfl, rfl⟩
    | case2 => nofun
    | case3 n c cs fits ih =>
      intro h
      obtain ⟨text, found, rfl⟩ := Option.map_eq_some_iff.1 h
      obtain ⟨after, rfl, bytes⟩ := ih found
      exact ⟨after, rfl, by rw [byteLength_cons, bytes]; omega⟩
    | case4 => nofun
  · rintro ⟨after, rfl, rfl⟩
    exact takeBytes?_byteLength text after

theorem slice?_append (before cs after : List Char) :
    slice? (byteLength before) (byteLength before + byteLength cs) (before ++ cs ++ after) =
      some cs := by
  rw [slice?, if_pos (by omega), List.append_assoc, dropBytes?_byteLength, Option.bind_some,
    Nat.add_sub_cancel_left, takeBytes?_byteLength]

theorem slice?_eq_some_iff {start stop : Nat} {cs text : List Char} :
    slice? start stop cs = some text ↔
      ∃ before after, cs = before ++ text ++ after ∧ byteLength before = start ∧ byteLength (before ++ text) = stop := by
  constructor
  · intro h
    obtain ⟨le, h⟩ := Option.ite_none_right_eq_some.1 h
    obtain ⟨rest, dropped, taken⟩ := Option.bind_eq_some_iff.1 h
    obtain ⟨before, rfl, place⟩ := dropBytes?_eq_some_iff.1 dropped
    obtain ⟨after, rfl, bytes⟩ := takeBytes?_eq_some_iff.1 taken
    refine ⟨before, after, (List.append_assoc ..).symm, place, ?_⟩
    rw [byteLength_append]
    omega
  · rintro ⟨before, after, rfl, rfl, rfl⟩
    rw [byteLength_append]
    exact slice?_append before text after

end LetLang.Text
