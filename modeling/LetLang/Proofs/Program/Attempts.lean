import LetLang.Proofs.Expr.Grammar
import LetLang.Proofs.Parse.Position
import LetLang.Proofs.Program.Run

/-!
# Attempts at given tokens

What an expression is read as depends on the tokens alone and on the levels that may still be open
(`Answers`). So the attempts of a source are put together from the last one to the first (`Yields`).
-/

namespace LetLang

open Parse (State)
open Token (Window body nth)

variable {source : String} {i j n : Nat} {p : Power} {d : Diagnostic} {e : Expr} {r : Except Diagnostic Expr}
  {xs : List Stmt} {ds : List Diagnostic}

/-! ### One expression -/

namespace Expr

/-- The expression of an integer token. -/
def ofNumber (t : Token) : Except Diagnostic Expr :=
  match Decimal.read? t.text with
  | some n => .ok (.int t n)
  | none => .error ⟨.badNumber t.text, t.span⟩

def Outcome.ofExcept (t : State) : Except Diagnostic Expr → Outcome
  | .ok e => .ok e t
  | .error d => .error d t

/-- What the expression at the `i`-th token is read as, where `n` more levels may be open. Afterwards the
`j`-th token is current. -/
def Answers (source : String) (p : Power) (n i j : Nat) (r : Except Diagnostic Expr) : Prop :=
  ∀ s : State, s.depth + n ≤ Parse.maxDepth → s.window.At source i →
    ∃ t, t.window.At source j ∧ Run (.whole p) s (.ofExcept t r)

theorem answers_of_spelled (spelled : SpelledAt source p n i j e) : Answers source p n i j (.ok e) := by
  intro s room standing
  obtain ⟨low, high, ⟨m, bound, form⟩, weak⟩ := spelled
  have inside : SpelledAt source p (Parse.maxDepth - s.depth) i j e := ⟨low, high, ⟨m, by omega, form⟩, weak⟩
  obtain ⟨t, result, there⟩ := (parse_at_iff standing).2 inside
  exact ⟨t, there, run_iff.2 result⟩

theorem answers_number (kind : (nth source i).kind = .int) (weak : ¬ p < (nth source (i + 1)).kind.power) :
    Answers source p 1 i i (ofNumber (nth source i)) := by
  intro s room standing
  have shown : s.enter.current = nth source i := standing.current
  have opens : s.enter.current.kind.opening? = some .int := by rw [opening?_eq_int, shown, kind]
  rw [← shown, ofNumber]
  refine ⟨s, standing, ?_⟩
  cases value : Decimal.read? s.enter.current.text with
  | none => exact .whole room (.openingFails (.badInt opens value))
  | some n => exact .whole room (.opened (.int opens value) (.stop (by rwa [← standing.ahead] at weak)))

theorem answers_refused (none : (nth source i).kind.opening? = none) :
    Answers source p 1 i i (.error ⟨.noOpening (nth source i).kind, (nth source i).span⟩) := by
  intro s room standing
  rw [← standing.current] at none ⊢
  exact ⟨s, standing, .whole room (.noOpening none)⟩

theorem Answers.unary (kind : (nth source i).kind = .bang ∨ (nth source i).kind = .minus)
    (operand : Answers source .unary n (i + 1) j r) (weak : ¬ p < (nth source (j + 1)).kind.power) :
    Answers source p (n + 1) i j (r.map (.unary (nth source i) (nth source i).text)) := by
  intro s room standing
  have shown : s.enter.current = nth source i := standing.current
  have opens : s.enter.current.kind.opening? = some .unary := by rwa [opening?_eq_unary, shown]
  have deeper : s.enter.advance.depth + n ≤ Parse.maxDepth := by
    show s.depth + 1 + n ≤ _
    omega
  have inside : s.depth < Parse.maxDepth := by omega
  obtain ⟨t, there, run⟩ := operand s.enter.advance deeper (standing.iterate 1)
  rw [← shown]
  refine ⟨t.leave, there, ?_⟩
  cases r with
  | error d => exact .whole inside (.openingFails (.unaryFails opens run))
  | ok e => exact .whole inside (.opened (.unary opens run) (.stop (by rwa [← there.ahead] at weak)))

end Expr

/-! ### One attempt and the following ones -/

namespace Program

open LetLang.Expr (Answers)

/-- Where the next statement begins behind a value that ends with the `j`-th token. -/
def behind (source : String) (j : Nat) : Nat := if (nth source (j + 1)).kind = .semicolon then j + 2 else j + 1

/-- What the attempts from the `i`-th token on give. -/
def Yields (source : String) (i : Nat) (xs : List Stmt) (ds : List Diagnostic) : Prop :=
  ∀ s : State, s.depth = 0 → s.window.At source i → ∃ u, Run s xs u ∧ u.diagnostics = ds.reverse ++ s.diagnostics

theorem yields_nil (last : (body source).length ≤ i) : Yields source i [] [] := fun s _ standing =>
  ⟨s, .finished ((Parse.isFinished_iff_of_at standing).2 last), rfl⟩

theorem lead_at {s : State} (standing : s.window.At source i) (plain : (nth source i).kind.form? = none) :
    Stmt.Lead s (s.note (.statement s.current)) (.expr (nth source i)) := by
  have shown : s.current = nth source i := standing.current
  rw [← shown] at plain ⊢
  exact .expr (by rw [plain]; rfl)

theorem Yields.expr (plain : (nth source i).kind.form? = none) (inside : i < (body source).length)
    (value : Answers source .lowest n i j (.ok e)) (room : n ≤ Parse.maxDepth)
    (rest : Yields source (behind source j) xs ds) : Yields source i (.expr (nth source i) e :: xs) ds := by
  intro s outermost standing
  have more := Parse.unfinished_of_at standing inside
  have lead := lead_at standing plain
  obtain ⟨t, there, run⟩ := value (s.note (.statement s.current)) (by show s.depth + n ≤ _; omega) standing
  -- The statement ends with its value or with the semicolon behind it.
  have stmt : ∃ v, Stmt.Run s (.ok (.expr (nth source i) e) v) ∧ v.advance.window.At source (behind source j) := by
    by_cases ends : (nth source (j + 1)).kind = .semicolon
    · rw [behind, if_pos ends]
      rw [← there.ahead] at ends
      exact ⟨t.advance, .done lead (.ended run ends), there.iterate 2⟩
    · rw [behind, if_neg ends]
      rw [← there.ahead] at ends
      exact ⟨t, .done lead (.bare run ends), there.iterate 1⟩
  obtain ⟨v, stmt, next⟩ := stmt
  obtain ⟨depth, kept⟩ := stmt.keeps
  obtain ⟨u, later, same⟩ := rest v.advance (depth.trans outermost) next
  exact ⟨u, .parsed more stmt later, same.trans (congrArg _ kept)⟩

theorem Yields.fault (plain : (nth source i).kind.form? = none) (inside : i < (body source).length)
    (value : Answers source .lowest n i j (.error d)) (room : n ≤ Parse.maxDepth)
    (rest : Yields source (j + 1) xs ds) : Yields source i xs (d :: ds) := by
  intro s outermost standing
  have more := Parse.unfinished_of_at standing inside
  obtain ⟨t, there, run⟩ := value (s.note (.statement s.current)) (by show s.depth + n ≤ _; omega) standing
  have stmt : Stmt.Run s (.error d t) := .fails (lead_at standing plain) (.fails run)
  obtain ⟨depth, kept⟩ := stmt.keeps
  obtain ⟨u, later, same⟩ := rest (t.record d).advance (depth.trans outermost) (there.iterate 1)
  refine ⟨u, .failed more stmt later, ?_⟩
  have recorded : (t.record d).advance.diagnostics = d :: s.diagnostics := congrArg _ kept
  rw [same, recorded, List.reverse_cons, List.append_assoc, List.singleton_append]

theorem ofText_of_yields (h : Yields source 0 xs ds) :
    (ofText source).program.statements = xs ∧ (ofText source).diagnostics = ds := by
  obtain ⟨u, run, reported⟩ := run_ofText source
  obtain ⟨v, given, same⟩ := h (.ofText source) rfl (Window.at_ofText source)
  obtain ⟨rfl, rfl⟩ := run.unique given
  refine ⟨rfl, ?_⟩
  rw [reported, same, List.reverse_append, List.reverse_reverse]
  rfl

end Program

end LetLang
