import LetLang.Proofs.Expr.Hull
import LetLang.Proofs.Program.Blame
import LetLang.Proofs.Program.Blocks
import LetLang.Proofs.Token.Piece

/-!
# Spans of programs

Whatever fails, the tokens that a statement keeps stand in order in the source. So its span and those of
its expressions cut whole characters out of the source, and statements do not overlap (`ofText_hulls`).
-/

namespace LetLang

open Parse (State value?)
open Token (Ordered)

namespace Token

variable {source : String} {t u : Token} {ts : List Token}

theorem span_cuts_of_mem_body (member : t ∈ body source) : t.span.Cuts source.toList := by
  obtain ⟨e, whole, -, others⟩ := ofText_eq source
  exact span_cuts (by simp [whole, member]) (others t member)

theorem ordered_body (source : String) : Ordered (body source) := by
  obtain ⟨e, whole, -, -⟩ := ofText_eq source
  have apart := (laid_ofText source).ordered
  rw [whole] at apart
  exact ⟨fun t member => (span_cuts_of_mem_body member).nonempty, (List.pairwise_append.1 apart).1⟩

theorem start_le_stop (member : t ∈ ofText source) : t.span.start ≤ t.span.stop := by
  by_cases inside : t.kind = .eof
  · rw [eq_endAt_of_eof member inside]
    exact Nat.le_refl _
  · exact Nat.le_of_lt (span_cuts member inside).nonempty

theorem Ordered.head_le (h : Ordered (t :: ts)) (member : u ∈ t :: ts) :
    t.span.start ≤ u.span.start ∧ t.span.stop ≤ u.span.stop := by
  rcases List.mem_cons.1 member with rfl | later
  · exact ⟨Nat.le_refl _, Nat.le_refl _⟩
  · have first := h.solid t List.mem_cons_self
    have second := h.solid u member
    have apart := (List.pairwise_cons.1 h.apart).1 u later
    omega

end Token

/-- Both ends of the span are ends of tokens, so no character is cut through. -/
theorem Expr.span_cuts {e : Expr} {source : String} (inside : e.flat.Sublist (Token.body source)) :
    e.span.Cuts source.toList := by
  obtain ⟨first, head, start⟩ := e.exists_first
  obtain ⟨last, tail, stop⟩ := e.exists_last
  have starts := Token.span_cuts_of_mem_body (inside.subset (List.mem_of_mem_head? head))
  have stops := Token.span_cuts_of_mem_body (inside.subset (List.mem_of_getLast? tail))
  have nonempty := (hull ((Token.ordered_body source).sublist inside)).1
  refine ⟨nonempty, ?_, ?_, ?_⟩ <;> simp only [span, ← start, ← stop]
  · exact stops.within
  · exact starts.starts
  · exact stops.stops

namespace Stmt

variable {x : Stmt} {s t : State} {ts : List Token}

theorem Run.token_eq (h : Run s (.ok x t)) : x.token = s.current := by
  cases h with
  | done lead value => cases lead <;> rfl

theorem Fills.starts (h : Fills x ts) : ∃ rest, ts = x.token :: rest := by
  cases h with
  | bare body | ended body => cases body <;> exact ⟨_, rfl⟩

theorem flat_value_sublist (x : Stmt) : x.value.flat.Sublist x.flat := by
  cases x with
  | binding t name value => exact (List.sublist_cons_self ..).trans (List.sublist_cons_self ..)
  | ret t value => exact List.sublist_cons_self ..
  | expr t value => exact .refl _

theorem Fills.value_sublist (h : Fills x ts) : x.value.flat.Sublist ts := by
  have kept := x.flat_value_sublist
  rw [h.flat_eq] at kept
  exact kept.trans List.filter_sublist

/-- Where the tokens stand in order, a statement starts with its first token and ends with its value. -/
theorem Fills.span_eq (h : Fills x ts) (ordered : Ordered ts) :
    x.span = ⟨x.token.span.start, x.value.stop⟩ ∧ x.value.span.Inside x.span := by
  obtain ⟨first, head, start⟩ := x.value.exists_first
  obtain ⟨last, tail, stop⟩ := x.value.exists_last
  have firstInside := h.value_sublist.subset (List.mem_of_mem_head? head)
  have lastInside := h.value_sublist.subset (List.mem_of_getLast? tail)
  obtain ⟨rest, rfl⟩ := h.starts
  have low := (ordered.head_le firstInside).1
  have high := (ordered.head_le lastInside).2
  rw [start] at low
  rw [stop] at high
  have same : x.span = ⟨x.token.span.start, x.value.stop⟩ := by
    rw [span, Nat.max_eq_left high]
  exact ⟨same, by rw [same]; exact ⟨low, Nat.le_refl _⟩⟩

theorem Fills.span_cuts {source : String} (h : Fills x ts) (inside : ts.Sublist (Token.body source)) :
    x.span.Cuts source.toList := by
  obtain ⟨same, low, -⟩ := h.span_eq ((Token.ordered_body source).sublist inside)
  have starts := Token.span_cuts_of_mem_body (inside.subset h.token_mem)
  have value := Expr.span_cuts (h.value_sublist.trans inside)
  rw [same] at low ⊢
  exact ⟨Nat.lt_of_le_of_lt low value.nonempty, value.within, starts.starts, value.stops⟩

end Stmt

namespace Program

variable {source : String} {i : Nat} {states : List State} {cuts : List Nat} {s t : State} {x : Stmt}

/-- The tokens of a statement stand together, whatever fails around it. -/
theorem Blocks.fills (h : Blocks source i states cuts)
    (member : x ∈ states.filterMap (value? <| Stmt.parse ·)) :
    ∃ ts, x.Fills ts ∧ ts <:+: (Token.body source).drop i := by
  induction h with
  | nil => simp at member
  | @cons i j s states cuts stands forward takes rest ih =>
    have whole : (Token.body source).drop i = _ := body_drop (Nat.le_of_lt forward)
    obtain ⟨s', listed, result⟩ := List.mem_filterMap.1 member
    rcases List.mem_cons.1 listed with rfl | later
    · cases shown : Stmt.parse s' with
      | error d t => simp [shown, value?] at result
      | ok y t =>
        rw [shown] at takes result
        obtain rfl := Option.some.inj result
        rw [whole]
        exact ⟨_, takes.2, (List.prefix_append ..).isInfix⟩
    · obtain ⟨ts, fills, inside⟩ := ih (List.mem_filterMap.2 ⟨s', later, result⟩)
      rw [whole]
      exact ⟨ts, fills, inside.trans (List.suffix_append ..).isInfix⟩

theorem Blocks.apart (h : Blocks source i states cuts) :
    (states.filterMap (value? <| Stmt.parse ·)).Pairwise fun x y => x.span.stop ≤ y.span.start := by
  induction h with
  | nil => exact .nil
  | @cons i j s states cuts stands forward takes rest ih =>
    rw [List.filterMap_cons]
    cases result : Stmt.parse s with
    | error d t => exact ih
    | ok x t =>
      rw [result] at takes
      refine .cons (fun y member => ?_) ih
      obtain ⟨ts, fills, inside⟩ := rest.fills member
      have later : y.token ∈ (Token.body source).drop j := inside.subset fills.token_mem
      have ordered := (Token.ordered_body source).sublist (List.drop_sublist i _)
      rw [body_drop (Nat.le_of_lt forward)] at ordered
      rw [(takes.2.span_eq (ordered.sublist (List.sublist_append_left ..))).1]
      exact Expr.stop_le (ordered.sublist (takes.2.value_sublist.append_right _)) later

theorem exists_fills (member : x ∈ (ofText source).program.statements) :
    ∃ ts, x.Fills ts ∧ ts <:+: Token.body source := by
  obtain ⟨cuts, blocks⟩ := blocks_callsOf source
  rw [(ofText_eq source).1] at member
  exact blocks.fills member

/-- A span that the front end gives for the source. -/
inductive Gives (source : String) : Span → Prop where
  | token {t : Token} (member : t ∈ Token.ofText source) : Gives source t.span
  | statement {x : Stmt} (member : x ∈ (ofText source).program.statements) : Gives source x.span
  | expression {x : Stmt} {e : Expr} (member : x ∈ (ofText source).program.statements)
      (part : e ∈ x.value.nodes) : Gives source e.span
  | diagnostic {d : Diagnostic} (member : d ∈ (ofText source).diagnostics) : Gives source d.span

theorem flat_sublist_body {e : Expr} (member : x ∈ (ofText source).program.statements) (part : e ∈ x.value.nodes) :
    e.flat.Sublist (Token.body source) := by
  obtain ⟨ts, fills, inside⟩ := exists_fills member
  exact (Expr.flat_infix part).sublist.trans (fills.value_sublist.trans inside.sublist)

theorem Gives.start_le {p : Span} (h : Gives source p) : p.start ≤ p.stop := by
  cases h with
  | token member => exact Token.start_le_stop member
  | statement member =>
    obtain ⟨ts, fills, inside⟩ := exists_fills member
    exact Nat.le_of_lt (fills.span_cuts inside.sublist).nonempty
  | expression member part => exact Nat.le_of_lt (Expr.span_cuts (flat_sublist_body member part)).nonempty
  | diagnostic member =>
    obtain ⟨k, place⟩ := exists_token_of_mem member
    rw [place]
    exact Token.start_le_stop (Token.nth_mem source k)

/-- Statements and expressions, also beside faults, span the tokens that they keep: from the first one to
the last one, whole characters, operators and operands in order, each inside the span of the whole. A
statement starts with the first token of its attempt and ends with its value. Statements come one behind
the other. No span ends before it starts. -/
theorem ofText_hulls (source : String) :
    (∀ x ∈ (ofText source).program.statements,
      x.span.Cuts source.toList ∧ x.span.stop = x.value.span.stop ∧ x.value.span.Inside x.span ∧
      ∀ e ∈ x.value.nodes, e.span.Cuts source.toList ∧ e.flat.Sublist (Token.ofText source) ∧
        e.flat.head?.map (·.span.start) = some e.span.start ∧
        e.flat.getLast?.map (·.span.stop) = some e.span.stop ∧ e.Beside) ∧
    (ofText source).program.statements = (callsOf source).filterMap (value? <| Stmt.parse ·) ∧
    (∀ s ∈ callsOf source, ∀ x t, Stmt.parse s = .ok x t →
      ∃ i < (Token.body source).length, s.Stands source i ∧ x.span.start = (Token.nth source i).span.start) ∧
    ((ofText source).program.statements.Pairwise fun x y => x.span.stop ≤ y.span.start) ∧
    ∀ p, Gives source p → p.start + p.size = p.stop := by
  obtain ⟨cuts, blocks⟩ := blocks_callsOf source
  obtain ⟨statements, -⟩ := ofText_eq source
  refine ⟨fun x member => ?_, statements, fun s member x t result => ?_, ?_, fun p given => ?_⟩
  · obtain ⟨ts, fills, inside⟩ := exists_fills member
    obtain ⟨same, within⟩ := fills.span_eq ((Token.ordered_body source).sublist inside.sublist)
    refine ⟨fills.span_cuts inside.sublist, by rw [same]; rfl, within, fun e part => ?_⟩
    have kept := flat_sublist_body member part
    exact ⟨Expr.span_cuts kept, kept.trans (List.dropLast_sublist _), e.head?_flat, e.getLast?_flat,
      (Expr.hull ((Token.ordered_body source).sublist kept)).2⟩
  · obtain ⟨i, j, forward, bound, stands, -⟩ := blocks.call member
    have run := Stmt.run_parse s
    rw [result] at run
    refine ⟨i, by omega, stands, ?_⟩
    rw [← stands.current, ← run.token_eq]
    rfl
  · rw [statements]
    exact blocks.apart
  · have := given.start_le
    unfold Span.size
    omega

example : (ofText "(a) + b; let ; -c").program.statements.map (fun x => (x.span, x.value.span)) =
    [(⟨0, 7⟩, ⟨1, 7⟩), (⟨15, 17⟩, ⟨15, 17⟩)] := by
  decide +kernel

end Program

end LetLang
