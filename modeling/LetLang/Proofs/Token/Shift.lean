import LetLang.Proofs.Token.Layout
import LetLang.Proofs.Token.Stream

/-!
# Sources in sequence

Two sources in sequence have the tokens of the first and, moved by its bytes, those of the second, if
nothing goes on with the last token of the first (`separate_of_clear`). Nothing goes on with a semicolon.
-/

namespace LetLang

def Span.shift (bytes : Nat) (s : Span) : Span := ⟨s.start + bytes, s.stop + bytes⟩

namespace Token

open Text (byteLength isGap)

/-- The same token at another place. -/
def mapSpan (g : Span → Span) (t : Token) : Token := { t with span := g t.span }

theorem mapSpan_id (t : Token) : t.mapSpan id = t := rfl

/-! ### Cuts in sequence -/

namespace Laid

variable {p : Nat} {gap cs as bs : List Char} {ts us : List Token}

theorem ne_nil (h : Laid p cs ts) : ts ≠ [] := by
  cases h <;> exact List.cons_ne_nil _ _

theorem eq_of_nil (h : Laid p [] ts) : ts = [endAt p] := by
  generalize empty : ([] : List Char) = cs at h
  cases h with
  | ended => rw [← empty]; rfl
  | token blank longest =>
    have nonempty := longest.lexeme.ne_nil
    simp [nonempty] at empty

theorem behind_gap (blank : ∀ c ∈ gap, isGap c = true) (h : Laid (p + byteLength gap) cs ts) :
    Laid p (gap ++ cs) ts := by
  generalize place : p + byteLength gap = q at h
  cases h with
  | @ended q more blank' =>
    have whole := Laid.ended (p := p) (List.forall_mem_append.2 ⟨blank, blank'⟩)
    rwa [Text.byteLength_append, ← Nat.add_assoc, place] at whole
  | @token q more k text rest ts blank' longest later =>
    rw [← place, Nat.add_assoc p, ← Text.byteLength_append] at later ⊢
    have whole := Laid.token (List.forall_mem_append.2 ⟨blank, blank'⟩) longest later
    simpa only [List.append_assoc] using whole

theorem shift (h : Laid p cs ts) (n : Nat) : Laid (p + n) cs (ts.map (mapSpan (Span.shift n))) := by
  induction h with
  | @ended p gap blank =>
    have moved := Laid.ended (p := p + n) blank
    rwa [Nat.add_right_comm] at moved
  | @token p gap k text rest ts blank longest later ih =>
    have same : (placed k text (p + byteLength gap)).mapSpan (Span.shift n) =
        placed k text (p + n + byteLength gap) := by
      simp only [mapSpan, placed, Span.shift, Nat.add_right_comm _ _ n]
    rw [List.map_cons, same]
    refine .token blank longest ?_
    rwa [Nat.add_right_comm p n, Nat.add_right_comm _ n]

/-- Where nothing goes on with the last token, two cuts make one. -/
theorem append (first : Laid p as ts) (second : Laid (p + byteLength as) bs us)
    (clear : ∀ t ∈ ts.dropLast.getLast?, t.span.stop = p + byteLength as →
      ∀ c ∈ bs.head?, t.kind.absorbs c = false) : Laid p (as ++ bs) (ts.dropLast ++ us) := by
  induction first with
  | ended blank => exact second.behind_gap blank
  | @token p gap k text rest ts blank longest later ih =>
    simp only [Text.byteLength_append, ← Nat.add_assoc] at second clear
    rw [List.dropLast_cons_of_ne_nil later.ne_nil] at clear ⊢
    rw [List.append_assoc (gap ++ text)]
    refine .token blank (Lexeme.longest_iff.2 ⟨longest.lexeme, ?_⟩) (ih second fun t last => clear t ?_)
    · -- Only the last lexeme has the second text behind it.
      cases rest with
      | cons c rest => exact longest.clear
      | nil =>
        obtain rfl := later.eq_of_nil
        exact clear _ rfl rfl
    · obtain ⟨front, same⟩ := List.getLast?_eq_some_iff.1 last
      rw [same]
      exact List.getLast?_concat (l := _ :: front)

end Laid

/-! ### Sources -/

variable {a b : String} {t : Token} {i : Nat}

/-- The tokens of the two sources in sequence are those of the first one and, moved on, those of the
second one. -/
def Separate (a b : String) : Prop :=
  ofText (a ++ b) = body a ++ (ofText b).map (mapSpan (Span.shift (byteLength a.toList)))

theorem separate_of_clear (clear : ∀ t ∈ (body a).getLast?, t.span.stop = byteLength a.toList →
    ∀ c ∈ b.toList.head?, t.kind.absorbs c = false) : Separate a b := by
  rw [← Nat.zero_add (byteLength a.toList)] at clear
  have whole := (laid_ofText a).append ((laid_ofText b).shift _) clear
  rw [← String.toList_append] at whole
  exact whole.eq_ofText.symm

theorem separate_of_semicolon (last : (body a).getLast? = some t) (kind : t.kind = .semicolon) :
    Separate a b := by
  refine separate_of_clear fun u same _ c _ => ?_
  obtain rfl : t = u := Option.some.inj (last.symm.trans same)
  rw [kind]
  rfl

theorem nth_last (last : (body a).getLast? = some t) :
    ∃ m, (body a).length = m + 1 ∧ nth a m = t := by
  obtain ⟨front, same⟩ := List.getLast?_eq_some_iff.1 last
  refine ⟨front.length, by rw [same, List.length_append, List.length_singleton], ?_⟩
  apply Option.some.inj
  rw [← getElem?_body a front.length (by simp [same]), same, List.getElem?_concat_length]

theorem Separate.length_body (h : Separate a b) :
    (body (a ++ b)).length = (body a).length + (body b).length := by
  have whole := length_ofText (a ++ b)
  rw [h, List.length_append, List.length_map, length_ofText] at whole
  omega

theorem Separate.nth_left (h : Separate a b) (inside : i < (body a).length) : nth (a ++ b) i = nth a i := by
  have bound := h.length_body
  apply Option.some.inj
  rw [← getElem?_ofText (a ++ b) i (by omega), h, List.getElem?_append_left inside, getElem?_body a i inside]

theorem Separate.nth_right (h : Separate a b) (i : Nat) :
    nth (a ++ b) ((body a).length + i) = (nth b i).mapSpan (Span.shift (byteLength a.toList)) := by
  have bound := h.length_body
  have least : min ((body a).length + i) (body (a ++ b)).length =
      (body a).length + min i (body b).length := by omega
  have found := getElem?_ofText b (min i (body b).length) (Nat.min_le_right ..)
  rw [nth, least, h, List.getD_eq_getElem?_getD, List.getElem?_append_right (Nat.le_add_right ..),
    Nat.add_sub_cancel_left, List.getElem?_map, found, nth_min]
  rfl

end Token

end LetLang
