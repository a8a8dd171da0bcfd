import LetLang.Proofs.Token.Layout
import LetLang.Proofs.Token.Stream
import LetLang.Text.Decimal

/-!
# Integer tokens

An integer token of a source is written in digits (`numeric_of_mem`), so it is read as its decimal
value or, above the greatest number, not at all (`read?_of_digits`).
-/

namespace LetLang

namespace Decimal

theorem integer?_of_digits {cs : List Char} (nonempty : cs ≠ []) (digits : cs.all Char.isDigit = true) :
    integer? cs = some (value cs : Int) := by
  have plain : natural? cs = some (value cs) := by rw [natural?, if_pos ⟨nonempty, digits⟩]
  unfold integer?
  split
  · simp [Char.isDigit] at digits
  · simp [Char.isDigit] at digits
  · rw [plain]
    rfl

theorem read?_of_digits {text : String} (nonempty : text.toList ≠ [])
    (digits : text.toList.all Char.isDigit = true) :
    read? text = if (value text.toList : Int) ≤ maximum then some (value text.toList : Int) else none := by
  have range : (minimum ≤ (value text.toList : Int) ∧ (value text.toList : Int) ≤ maximum) ↔
      (value text.toList : Int) ≤ maximum := by
    unfold minimum maximum
    omega
  rw [read?, integer?_of_digits nonempty digits, Option.filter_some]
  simp only [range, decide_eq_true_eq]

end Decimal

namespace Token

/-- If the token is an integer, it is written in digits. -/
def Numeric (t : Token) : Prop :=
  t.kind = .int → t.text.toList ≠ [] ∧ t.text.toList.all Char.isDigit = true

theorem Numeric.read?_eq_some_iff {t : Token} (h : t.Numeric) (kind : t.kind = .int) {n : Int} :
    Decimal.read? t.text = some n ↔
      (Decimal.value t.text.toList : Int) ≤ Decimal.maximum ∧ n = Decimal.value t.text.toList := by
  rw [Decimal.read?_of_digits (h kind).1 (h kind).2]
  split
  · rename_i fits
    simp only [Option.some.injEq, fits, true_and]
    exact eq_comm
  · rename_i large
    simp only [reduceCtorEq, large, false_and]

theorem Numeric.read?_eq_none_iff {t : Token} (h : t.Numeric) (kind : t.kind = .int) :
    Decimal.read? t.text = none ↔ ¬ (Decimal.value t.text.toList : Int) ≤ Decimal.maximum := by
  rw [Decimal.read?_of_digits (h kind).1 (h kind).2]
  simp

theorem Lexeme.numeric {t : Token} (h : t.kind ≠ .eof → Lexeme t.kind t.text.toList) : t.Numeric := by
  intro kind
  obtain ⟨nonempty, digits⟩ := (h (by rw [kind]; decide)).number_inv kind
  exact ⟨nonempty, List.all_eq_true.2 digits⟩

theorem Cursor.numeric_next (c : Cursor) : c.next.1.Numeric := by
  have member : c.next.1 ∈ c.tokens := by
    rw [tokens]
    split
    · exact List.mem_singleton_self _
    · exact List.mem_cons_self
  exact Lexeme.numeric fun inside => (c.laid_tokens.cut member inside).1

theorem numeric_of_mem {source : String} {t : Token} (h : t ∈ ofText source) : t.Numeric :=
  Lexeme.numeric fun inside => ((laid_ofText source).cut h inside).1

/-- Every integer that the window comes to show is written in digits. -/
def Window.Numeric (w : Window) : Prop := ∀ k, (Window.advance^[k] w).current.Numeric

theorem Window.Numeric.current {w : Window} (h : w.Numeric) : w.current.Numeric := h 0

theorem Window.Numeric.advance {w : Window} (h : w.Numeric) : w.advance.Numeric := fun k => h (k + 1)

theorem Window.Numeric.passes {w v : Window} {ts : List Token} (h : w.Numeric) (moved : w.Passes ts v) :
    v.Numeric := by
  intro k
  rw [moved.eq_iterate, ← Function.iterate_add_apply]
  exact h _

theorem Window.At.numeric {w : Window} {source : String} {i : Nat} (h : w.At source i) : w.Numeric := by
  intro k
  rw [h k]
  exact numeric_of_mem (nth_mem source _)

end Token

end LetLang
