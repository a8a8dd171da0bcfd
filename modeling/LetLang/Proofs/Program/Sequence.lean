import LetLang.Proofs.Program.Reparse
import LetLang.Proofs.Program.Resume

/-!
# Programs in sequence

A source without faults may be followed by another one without a semicolon in between, if the tokens
stay apart and the second one does not start with a token that goes on with a statement: it is then
read as if it stood alone (`ofText_append_of_silent`).
-/

namespace LetLang

open Parse (State Abreast)
open Token (Window)

variable {a b : String}

namespace Token

/-- The windows stand at the same token of `a` alone and of `a` in front of `b`, or behind all of `a`. -/
def Window.Along (a b : String) (w v : Window) : Prop :=
  ∃ i ≤ (body a).length, w.At a i ∧ v.At (a ++ b) i

namespace Window.Along

variable {w v u : Window} {ts : List Token}

theorem start (a b : String) : Along a b (.ofText a) (.ofText (a ++ b)) :=
  ⟨0, Nat.zero_le _, at_ofText a, at_ofText (a ++ b)⟩

theorem numeric (h : w.Along a b v) : w.Numeric ∧ v.Numeric := by
  obtain ⟨i, -, here, there⟩ := h
  exact ⟨here.numeric, there.numeric⟩

theorem current (h : w.Along a b v) (separate : Separate a b) (inside : w.current.kind ≠ .eof) :
    v.current = w.current := by
  obtain ⟨i, -, here, there⟩ := h
  rw [there.current, here.current, separate.nth_left (here.ne_eof_iff.1 inside)]

theorem advance (h : w.Along a b v) (inside : w.current.kind ≠ .eof) : w.advance.Along a b v.advance := by
  obtain ⟨i, -, here, there⟩ := h
  exact ⟨i + 1, here.ne_eof_iff.1 inside, here.iterate 1, there.iterate 1⟩

theorem passes (h : w.Along a b v) (separate : Separate a b) (moved : w.Passes ts u) :
    ∃ u', v.Passes ts u' ∧ u.Along a b u' := by
  induction ts generalizing w v with
  | nil =>
    obtain rfl : u = w := moved
    exact ⟨v, .refl v, h⟩
  | cons t ts ih =>
    obtain ⟨rfl, inside, further⟩ := moved
    obtain ⟨u', moved', along⟩ := ih (h.advance inside) further
    exact ⟨u', ⟨h.current separate inside, inside, moved'⟩, along⟩

theorem reads (h : w.Along a b v) (separate : Separate a b) (moved : w.Reads ts u) :
    ∃ u', v.Reads ts u' ∧ u.Along a b u' := by
  obtain ⟨before, rfl, inside, passed⟩ := moved
  obtain ⟨u', passed', along⟩ := h.passes separate passed
  have shown := along.current separate inside
  exact ⟨u', ⟨before, by rw [shown], by rw [shown]; exact inside, passed'⟩, along⟩

/-- Behind the first source stands the first token of the second one. -/
theorem ended (h : w.Along a b v) (separate : Separate a b) (last : w.current.kind = .eof) :
    v.current.kind = (nth b 0).kind := by
  obtain ⟨i, bound, here, there⟩ := h
  rw [here.current, nth_eof_iff] at last
  obtain rfl : i = (body a).length := by omega
  have shown := separate.nth_right 0
  rw [Nat.add_zero] at shown
  rw [there.current, shown]
  rfl

/-- A token that does not go on with a statement stays one, and a semicolon stays a semicolon. -/
theorem closes (h : w.Along a b v) (separate : Separate a b) (apart : (nth b 0).kind.Apart) :
    (w.current.kind.power ≤ .lowest → v.current.kind.power ≤ .lowest) ∧
      (v.current.kind = .semicolon ↔ w.current.kind = .semicolon) := by
  by_cases last : w.current.kind = .eof
  · rw [h.ended separate last, last]
    exact ⟨fun _ => apart.power_le, iff_of_false apart.2 nofun⟩
  · rw [h.current separate last]
    exact ⟨id, Iff.rfl⟩

end Window.Along

/-- The semicolon and the operators are all that is not apart. -/
theorem apart_of_head (first : ∀ t ∈ (ofText b).head?,
    t.kind ∉ [.semicolon, .plus, .minus, .star, .slash, .equal, .notEqual, .less, .greater]) :
    (nth b 0).kind.Apart := by
  have shown := getElem?_ofText b 0 (Nat.zero_le _)
  rw [← List.head?_eq_getElem?] at shown
  have bare := first _ shown
  generalize (nth b 0).kind = k at bare
  cases k <;> first | exact ⟨rfl, by decide⟩ | exact absurd (by decide) bare

end Token

/-! ### One statement -/

theorem Parse.Abreast.onward {s s' : State} (same : Abreast (Window.Along a b) s s')
    (inside : s.current.kind ≠ .eof) : Abreast (Window.Along a b) s.advance s'.advance :=
  ⟨same.window.advance inside, same.depth⟩

namespace Stmt

variable {s s' t u : State} {make : Expr → Stmt} {e : Expr} {x : Stmt}

theorem Lead.along (h : Lead s t make) (separate : Token.Separate a b) (inside : s.current.kind ≠ .eof)
    (same : Abreast (Window.Along a b) s s') :
    ∃ t', Lead s' t' make ∧ Abreast (Window.Along a b) t t' := by
  have shown : s'.current = s.current := same.window.current separate inside
  have noted := same.note (.statement s'.current) (.statement s'.current)
  cases h with
  | expr form =>
    rw [← shown] at form ⊢
    exact ⟨_, .expr form, noted⟩
  | ret form =>
    have first := noted.onward inside
    rw [← shown] at form ⊢
    exact ⟨_, .ret form, first⟩
  | binding form name sign =>
    have second : s.ahead.kind ≠ .eof := by
      rw [name]
      decide
    have third : s.advance.ahead.kind ≠ .eof := by
      rw [sign]
      decide
    have first := same.onward inside
    have named : s'.ahead = s.ahead := first.window.current separate second
    have signed : s'.advance.ahead = s.advance.ahead := (first.onward second).window.current separate third
    have behind := ((noted.onward inside).onward second).onward third
    rw [← shown] at form ⊢
    rw [← named] at name ⊢
    rw [← signed] at sign
    exact ⟨_, .binding form name sign, behind⟩

/-- The operators in sight at the end of a value do not change, and neither does the semicolon. -/
theorem Value.along (h : Value s (.ok e u)) (separate : Token.Separate a b)
    (apart : (Token.nth b 0).kind.Apart) (same : Abreast (Window.Along a b) s s') :
    ∃ u', Value s' (.ok e u') ∧ Abreast (Window.Along a b) u u' ∧ u.current.kind ≠ .eof := by
  have value : ∀ {t}, Expr.Run (.whole .lowest) s (.ok e t) → ∃ t', Expr.Run (.whole .lowest) s' (.ok e t') ∧
      Abreast (Window.Along a b) t t' ∧ t.current.kind ≠ .eof := by
    intro t run
    obtain ⟨numeric, numeric'⟩ := same.window.numeric
    obtain ⟨ts, n, moved, spelled, bound, weak⟩ := run.sound numeric
    obtain ⟨v, moved', along⟩ := same.window.reads separate moved
    have last := moved.last_ne_eof
    have weak' := ((along.advance last).closes separate apart).1 weak
    rw [← same.depth] at bound
    obtain ⟨t', result, rfl⟩ := (Expr.parse_ok_iff numeric').2 ⟨ts, n, moved', spelled, bound, weak'⟩
    have run' := Expr.run_iff.2 result
    exact ⟨t', run', ⟨along, run'.depth_eq.trans (same.depth.trans run.depth_eq.symm)⟩, last⟩
  cases h with
  | ended run kind =>
    obtain ⟨t', run', after, last⟩ := value run
    have next := after.window.advance last
    refine ⟨_, .ended run' ((next.closes separate apart).2.2 kind), ⟨next, after.depth⟩, ?_⟩
    rw [State.current_advance, kind]
    decide
  | bare run kind =>
    obtain ⟨t', run', after, last⟩ := value run
    have next := after.window.advance last
    exact ⟨t', .bare run' (fun closed => kind ((next.closes separate apart).2.1 closed)), after, last⟩

theorem Run.along (h : Run s (.ok x t)) (separate : Token.Separate a b) (apart : (Token.nth b 0).kind.Apart)
    (inside : s.current.kind ≠ .eof) (same : Abreast (Window.Along a b) s s') :
    ∃ t', Run s' (.ok x t') ∧ Abreast (Window.Along a b) t t' ∧ t.current.kind ≠ .eof := by
  cases h with
  | done lead value =>
    obtain ⟨v, lead', onto⟩ := lead.along separate inside same
    obtain ⟨t', value', after, last⟩ := value.along separate apart onto
    exact ⟨t', .done lead' value', after, last⟩

end Stmt

/-! ### Whole sources -/

namespace Program

variable {s s' u : State} {xs : List Stmt}

/-- A run without faults goes on with whatever is read behind it. -/
theorem Run.along (h : Run s xs u) (silent : u.diagnostics = s.diagnostics) (separate : Token.Separate a b)
    (apart : (Token.nth b 0).kind.Apart) (same : Abreast (Window.Along a b) s s') :
    ∃ u', Abreast (Window.Along a b) u u' ∧ u'.diagnostics = s'.diagnostics ∧
      ∀ ys v, Run u' ys v → Run s' (xs ++ ys) v := by
  induction h generalizing s' with
  | finished last => exact ⟨s', same, rfl, fun ys v rest => rest⟩
  | @parsed s x t xs u more stmt rest ih =>
    have inside := ne_eof_of_isFinished more
    have kept : t.diagnostics = s.diagnostics := stmt.keeps.2
    obtain ⟨t', stmt', after, last⟩ := stmt.along separate apart inside same
    have kept' : t'.diagnostics = s'.diagnostics := stmt'.keeps.2
    obtain ⟨u', met, added, goes⟩ := ih (silent.trans kept.symm) (after.onward last)
    have more' : s'.isFinished = false := by
      rw [State.isFinished, State.current, same.window.current separate inside]
      exact more
    exact ⟨u', met, added.trans kept', fun ys v rest => .parsed more' stmt' (goes ys v rest)⟩
  | @failed s d t xs u more stmt rest ih =>
    have kept : t.diagnostics = s.diagnostics := stmt.keeps.2
    obtain ⟨new, added⟩ := rest.appends
    have count := congrArg List.length (silent.symm.trans added)
    have one : (t.record d).advance.diagnostics.length = s.diagnostics.length + 1 :=
      congrArg (List.length · + 1) kept
    rw [List.length_append] at count
    omega

/-- What has been read up to the end of the first source is followed by the reading of the second one,
at its new places. -/
theorem ofText_append_of_run (separate : Token.Separate a b)
    (there : u.window.At (a ++ b) (Token.body a).length) (level : u.depth = 0)
    (front : ∀ ys v, Run u ys v → Run (.ofText (a ++ b)) (xs ++ ys) v) :
    (ofText (a ++ b)).program.statements = xs ++
        (ofText b).program.statements.map (Stmt.mapSpan (Span.shift (Text.byteLength a.toList))) ∧
      (ofText (a ++ b)).diagnostics = u.diagnostics.reverse ++
        (ofText b).diagnostics.map (Diagnostic.mapSpan (Span.shift (Text.byteLength a.toList))) := by
  obtain ⟨v, run, reported⟩ := run_ofText b
  obtain ⟨z, whole, all⟩ := run_ofText (a ++ b)
  have back := resync_behind separate
  obtain ⟨v', new, met, added, added', goes⟩ := run.echoed back ⟨⟨0, Window.at_ofText b, there⟩, level⟩
  have spent : v'.current.kind = .eof := by
    rw [State.current, back.shows met.window]
    exact run.finishes
  have rest : Run v' [] v' := .finished ((State.isFinished_iff _).2 spent)
  obtain ⟨same, rfl⟩ := whole.unique (front _ _ (goes _ _ rest))
  constructor
  · rw [same, List.append_nil]
  · rw [all, added', reported, added]
    simp [State.ofText]

/-- A source without faults ends where the next one starts, unless that goes on with its last statement:
the statements and diagnostics of the next one are those that it has alone. -/
theorem ofText_append_of_silent (silent : (ofText a).diagnostics = []) (separate : Token.Separate a b)
    (first : ∀ t ∈ (Token.ofText b).head?,
      t.kind ∉ [.semicolon, .plus, .minus, .star, .slash, .equal, .notEqual, .less, .greater]) :
    (ofText (a ++ b)).program.statements = (ofText a).program.statements ++
        (ofText b).program.statements.map (Stmt.mapSpan (Span.shift (Text.byteLength a.toList))) ∧
      (ofText (a ++ b)).diagnostics =
        (ofText b).diagnostics.map (Diagnostic.mapSpan (Span.shift (Text.byteLength a.toList))) := by
  obtain ⟨u, run, reported⟩ := run_ofText a
  have apart := Token.apart_of_head first
  have empty (source : String) : (State.ofText source).diagnostics = [] := rfl
  have kept : u.diagnostics = (State.ofText a).diagnostics := by
    rw [reported, List.reverse_eq_nil_iff] at silent
    rw [silent, empty]
  have start : Abreast (Window.Along a b) (.ofText a) (.ofText (a ++ b)) := ⟨Window.Along.start a b, rfl⟩
  obtain ⟨u', met, added, goes⟩ := run.along kept separate apart start
  obtain ⟨i, bound, here, there⟩ := met.window
  obtain rfl : i = (Token.body a).length := by
    have spent : u.window.current.kind = .eof := run.finishes
    rw [here.current, Token.nth_eof_iff] at spent
    omega
  have whole := ofText_append_of_run separate there (met.depth.trans run.depth_eq) goes
  rw [added, empty, List.reverse_nil, List.nil_append] at whole
  exact whole

/-- An open parenthesis starts a statement of its own; that it is never closed leaves the first one alone. -/
theorem ofText_append_of_silent_group :
    (ofText "return a * -1 ").diagnostics = [] ∧ Token.Separate "return a * -1 " "(b é" ∧
      (ofText ("return a * -1 " ++ "(b é")).program.statements = (ofText "return a * -1 ").program.statements ++
        (ofText "(b é").program.statements.map (Stmt.mapSpan (Span.shift 14)) ∧
      (ofText ("return a * -1 " ++ "(b é")).diagnostics =
        (ofText "(b é").diagnostics.map (Diagnostic.mapSpan (Span.shift 14)) := by
  have silent : (ofText "return a * -1 ").diagnostics = [] := by decide +kernel
  have separate : Token.Separate "return a * -1 " "(b é" := by
    unfold Token.Separate
    decide +kernel
  have first : ∀ t ∈ (Token.ofText "(b é").head?,
      t.kind ∉ [.semicolon, .plus, .minus, .star, .slash, .equal, .notEqual, .less, .greater] := by
    decide +kernel
  have bytes : Text.byteLength "return a * -1 ".toList = 14 := by decide
  have sequence := ofText_append_of_silent silent separate first
  rw [bytes] at sequence
  exact ⟨silent, separate, sequence⟩

end Program

end LetLang
