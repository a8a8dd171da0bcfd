import LetLang.Proofs.Program.Flat

/-!
# Spans of trees

The span of an expression runs from its first token to its last one (`head?_flat`, `getLast?_flat`). Where
the tokens of a tree stand in order, operands and operators do too, inside the span of the whole
(`Expr.hull`).
-/

namespace LetLang

/-- The one span lies inside the other one. -/
def Span.Inside (s t : Span) : Prop := t.start ≤ s.start ∧ s.stop ≤ t.stop

namespace Token

/-- Tokens that stand one behind the other, none of them empty. -/
structure Ordered (ts : List Token) : Prop where
  solid : ∀ t ∈ ts, t.span.start < t.span.stop
  apart : ts.Pairwise fun t u => t.span.stop ≤ u.span.start

variable {ts us : List Token} {t u : Token}

theorem Ordered.sublist (h : Ordered ts) (part : us.Sublist ts) : Ordered us :=
  ⟨fun t member => h.solid t (part.subset member), h.apart.sublist part⟩

theorem Ordered.stop_le (h : Ordered (ts ++ us)) (first : t ∈ ts) (second : u ∈ us) :
    t.span.stop ≤ u.span.start := (List.pairwise_append.1 h.apart).2.2 t first u second

end Token

open Token (Ordered)

namespace Expr

variable {e m : Expr} {ts : List Token} {t : Token}

theorem flat_ne_nil (e : Expr) : e.flat ≠ [] := by
  cases e <;> simp [flat]

theorem head?_flat (e : Expr) : e.flat.head?.map (·.span.start) = some e.start := by
  induction e with
  | binary t operator left right first second =>
    rw [flat, List.head?_append_of_ne_nil _ left.flat_ne_nil, first, start]
  | _ => rfl

theorem getLast?_flat (e : Expr) : e.flat.getLast?.map (·.span.stop) = some e.stop := by
  induction e with
  | unary t operator operand ih =>
    rw [flat, ← List.singleton_append, List.getLast?_append_of_ne_nil _ operand.flat_ne_nil, ih, stop]
  | binary t operator left right first second =>
    rw [flat, ← List.singleton_append, ← List.append_assoc,
      List.getLast?_append_of_ne_nil _ right.flat_ne_nil, second, stop]
  | _ => rfl

theorem exists_first (e : Expr) : ∃ t, e.flat.head? = some t ∧ t.span.start = e.start :=
  Option.map_eq_some_iff.1 e.head?_flat

theorem exists_last (e : Expr) : ∃ t, e.flat.getLast? = some t ∧ t.span.stop = e.stop :=
  Option.map_eq_some_iff.1 e.getLast?_flat

theorem flat_infix (h : m ∈ e.nodes) : m.flat <:+: e.flat := by
  induction e with
  | ident | int | bool =>
    obtain rfl := List.mem_singleton.1 h
    exact List.infix_refl _
  | unary t operator operand ih =>
    rcases List.mem_cons.1 h with rfl | h
    · exact List.infix_refl _
    · exact (ih h).trans (List.suffix_cons t _).isInfix
  | binary t operator left right first second =>
    rcases List.mem_cons.1 h with rfl | h
    · exact List.infix_refl _
    rcases List.mem_append.1 h with h | h
    · exact (first h).trans (List.prefix_append ..).isInfix
    · exact (second h).trans ((List.suffix_cons t _).trans (List.suffix_append ..)).isInfix

/-- The operands of the root stand beside its operator, inside the span of the whole. -/
def Beside : Expr → Prop
  | e@(unary t _ operand) => t.span.stop ≤ operand.span.start ∧ operand.span.Inside e.span
  | e@(binary t _ left right) =>
    left.span.stop ≤ t.span.start ∧ t.span.stop ≤ right.span.start ∧
      left.span.Inside e.span ∧ right.span.Inside e.span
  | _ => True

theorem stop_le (ordered : Ordered (e.flat ++ ts)) (member : t ∈ ts) : e.stop ≤ t.span.start := by
  obtain ⟨last, found, same⟩ := e.exists_last
  rw [← same]
  exact ordered.stop_le (List.mem_of_getLast? found) member

theorem le_start (ordered : Ordered (ts ++ e.flat)) (member : t ∈ ts) : t.span.stop ≤ e.start := by
  obtain ⟨first, found, same⟩ := e.exists_first
  rw [← same]
  exact ordered.stop_le member (List.mem_of_mem_head? found)

/-- Tokens in order make a span that is not empty, with the operands in order in it. -/
theorem hull (ordered : Ordered e.flat) : e.start < e.stop ∧ e.Beside := by
  induction e with
  | ident t | int t | bool t => exact ⟨ordered.solid t (List.mem_singleton_self t), trivial⟩
  | unary t operator operand ih =>
    have solid := ordered.solid t List.mem_cons_self
    have behind : Ordered ([t] ++ operand.flat) := ordered
    have before : t.span.stop ≤ operand.start := le_start behind (List.mem_singleton_self t)
    obtain ⟨within, -⟩ := ih (ordered.sublist (List.sublist_cons_self ..))
    refine ⟨?_, before, ?_, Nat.le_refl _⟩ <;> simp only [start, stop, span, token] <;> omega
  | binary t operator left right first second =>
    have solid := ordered.solid t (by simp [flat])
    have behind : Ordered ([t] ++ right.flat) := ordered.sublist (List.sublist_append_right ..)
    have before : left.stop ≤ t.span.start := stop_le ordered List.mem_cons_self
    have after : t.span.stop ≤ right.start := le_start behind (List.mem_singleton_self t)
    obtain ⟨within, -⟩ := first (ordered.sublist (List.sublist_append_left ..))
    obtain ⟨within', -⟩ := second (behind.sublist (List.sublist_append_right ..))
    refine ⟨?_, before, after, ⟨Nat.le_refl _, ?_⟩, ?_, Nat.le_refl _⟩ <;> simp only [start, stop, span] <;> omega

end Expr

end LetLang
