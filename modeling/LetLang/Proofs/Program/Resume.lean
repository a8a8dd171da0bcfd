import LetLang.Proofs.Expr.Lockstep
import LetLang.Proofs.Program.Run

/-!
# Reading on behind a semicolon

Whatever stands in front of a semicolon, the statements behind it are read as if the source began
there (`ofText_append_of_semicolon`).
-/

namespace LetLang

open Parse (State Lockstep Abreast Echoes)
open Token (Kind Window)

/-- The same statement at another place. -/
def Stmt.mapSpan (g : Span → Span) : Stmt → Stmt
  | binding t name value => binding (t.mapSpan g) ⟨name.token.mapSpan g, name.text⟩ (value.mapSpan g)
  | ret t value => ret (t.mapSpan g) (value.mapSpan g)
  | expr t value => expr (t.mapSpan g) (value.mapSpan g)

variable {g : Span → Span} {Q R : Window → Window → Prop} {s s' t : State}

namespace Stmt

variable {make : Expr → Stmt} {o : Expr.Outcome} {r : EStateM.Result Diagnostic State Stmt}

theorem mapSpan_id (x : Stmt) : x.mapSpan id = x := by
  cases x with
  | binding t name value => rw [mapSpan, Expr.mapSpan_id]; rfl
  | ret t value | expr t value => rw [mapSpan, Expr.mapSpan_id]; rfl

theorem ne_semicolon_of_form? {k : Kind} {form : Form} (h : k.form? = some form) : k ≠ .semicolon := by
  rintro rfl
  contradiction

theorem Lead.echoed (lock : Lockstep g R) (h : Lead s t make) (same : Abreast R s s') :
    ∃ t' make', Lead s' t' make' ∧ Abreast R t t' ∧
      ∀ e, make' (e.mapSpan g) = (make e).mapSpan g := by
  have shown := same.current lock
  have noted := same.note (.statement s.current) (.statement s'.current)
  cases h with
  | binding form name sign =>
    have first := ne_semicolon_of_form? form
    have second : s.advance.current.kind ≠ .semicolon := by
      rw [State.current_advance, name]
      decide
    have third : s.advance.advance.current.kind ≠ .semicolon := by
      rw [State.current_advance, sign]
      decide
    have named := same.ahead lock first
    have signed := (same.advance lock first).ahead lock second
    refine ⟨_, _, .binding (by rw [shown]; exact form) (by rw [named]; exact name)
      (by rw [signed]; exact sign),
      ((noted.advance lock first).advance lock second).advance lock third, fun e => ?_⟩
    rw [shown, named]
    rfl
  | ret form =>
    have first := ne_semicolon_of_form? form
    refine ⟨_, _, .ret (by rw [shown]; exact form), noted.advance lock first, fun e => ?_⟩
    rw [shown]
    rfl
  | expr form =>
    refine ⟨_, _, .expr (by rw [shown]; exact form), noted, fun e => ?_⟩
    rw [shown]
    rfl

theorem Value.echoed (lock : Lockstep g R) (h : Value s o) (same : Abreast R s s') :
    ∃ o', Value s' o' ∧ Echoes g R (Expr.mapSpan g) o o' := by
  cases h with
  | ended run kind =>
    obtain ⟨_, run', echo⟩ := run.echoed lock trivial same
    cases echo with
    | ok after =>
      have last := run.bare trivial
      exact ⟨_, .ended run' (by rw [after.ahead lock last]; exact kind), .ok (after.advance lock last)⟩
  | bare run kind =>
    obtain ⟨_, run', echo⟩ := run.echoed lock trivial same
    cases echo with
    | ok after =>
      exact ⟨_, .bare run' (by rw [after.ahead lock (run.bare trivial)]; exact kind), .ok after⟩
  | fails run =>
    obtain ⟨_, run', echo⟩ := run.echoed lock trivial same
    cases echo with
    | error after => exact ⟨_, .fails run', .error after⟩

theorem Run.echoed (lock : Lockstep g R) (h : Run s r) (same : Abreast R s s') :
    ∃ r', Run s' r' ∧ Echoes g R (mapSpan g) r r' := by
  have shown := same.current lock
  have noted := same.note (.statement s.current) (.statement s'.current)
  cases h with
  | noName form name =>
    have first := ne_semicolon_of_form? form
    have named := same.ahead lock first
    refine ⟨_, .noName (by rw [shown]; exact form) (by rw [named]; exact name), ?_⟩
    rw [named]
    exact .error noted
  | noEquals form name sign =>
    have first := ne_semicolon_of_form? form
    have second : s.advance.current.kind ≠ .semicolon := by
      rw [State.current_advance, name]
      decide
    have named := same.ahead lock first
    have signed := (same.advance lock first).ahead lock second
    refine ⟨_, .noEquals (by rw [shown]; exact form) (by rw [named]; exact name)
      (by rw [signed]; exact sign), ?_⟩
    rw [signed]
    exact .error (noted.advance lock first)
  | done lead value =>
    obtain ⟨t', make', lead', onto, made⟩ := lead.echoed lock same
    obtain ⟨_, value', echo⟩ := value.echoed lock onto
    cases echo with
    | ok after =>
      refine ⟨_, .done lead' value', ?_⟩
      rw [made]
      exact .ok after
  | fails lead value =>
    obtain ⟨t', make', lead', onto, -⟩ := lead.echoed lock same
    obtain ⟨_, value', echo⟩ := value.echoed lock onto
    cases echo with
    | error after => exact ⟨_, .fails lead' value', .error after⟩

end Stmt

namespace Program

/-- `Q` relates the windows where an attempt may start, `R` those inside of one. -/
structure Resync (g : Span → Span) (Q R : Window → Window → Prop) : Prop extends Lockstep g R where
  enters {w v : Window} : Q w v → w.current.kind ≠ .eof → R w v
  leaves {w v : Window} : R w v → Q w.advance v.advance

variable {xs : List Stmt} {u : State}

theorem Resync.starts (sync : Resync g Q R) (same : Abreast Q s s') (more : s.isFinished = false) :
    Abreast R s s' ∧ s'.isFinished = false := by
  have inside : Abreast R s s' := ⟨sync.enters same.window (ne_eof_of_isFinished more), same.depth⟩
  refine ⟨inside, ?_⟩
  rw [State.isFinished, inside.current sync.toLockstep]
  exact more

/-- What follows the run that is followed may be any run. -/
theorem Run.echoed (sync : Resync g Q R) (h : Run s xs u) (same : Abreast Q s s') :
    ∃ u' new, Abreast Q u u' ∧ u.diagnostics = new ++ s.diagnostics ∧
      u'.diagnostics = new.map (Diagnostic.mapSpan g) ++ s'.diagnostics ∧
      ∀ ys v, Run u' ys v → Run s' (xs.map (Stmt.mapSpan g) ++ ys) v := by
  induction h generalizing s' with
  | @finished s last => exact ⟨s', [], same, rfl, rfl, fun ys v rest => rest⟩
  | @parsed s x t xs u more stmt rest ih =>
    obtain ⟨inside, more'⟩ := sync.starts same more
    obtain ⟨_, stmt', echo⟩ := stmt.echoed sync.toLockstep inside
    cases echo with
    | @ok _ _ t' after =>
      have kept : t.diagnostics = s.diagnostics := stmt.keeps.2
      have kept' : t'.diagnostics = s'.diagnostics := stmt'.keeps.2
      have next : Abreast Q t.advance t'.advance := ⟨sync.leaves after.window, after.depth⟩
      obtain ⟨u', new, last, added, added', goes⟩ := ih next
      exact ⟨u', new, last, by rw [added, ← kept]; rfl, by rw [added', ← kept']; rfl,
        fun ys v rest => .parsed more' stmt' (goes ys v rest)⟩
  | @failed s d t xs u more stmt rest ih =>
    obtain ⟨inside, more'⟩ := sync.starts same more
    obtain ⟨_, stmt', echo⟩ := stmt.echoed sync.toLockstep inside
    cases echo with
    | @error _ _ t' after =>
      have kept : t.diagnostics = s.diagnostics := stmt.keeps.2
      have kept' : t'.diagnostics = s'.diagnostics := stmt'.keeps.2
      have next : Abreast Q (t.record d).advance (t'.record (d.mapSpan g)).advance :=
        ⟨sync.leaves after.window, after.depth⟩
      obtain ⟨u', new, last, added, added', goes⟩ := ih next
      refine ⟨u', new ++ [d], last, ?_, ?_, fun ys v rest => .failed more' stmt' (goes ys v rest)⟩
      · rw [added, List.append_assoc, ← kept]
        rfl
      · rw [added', List.map_append, List.append_assoc, ← kept']
        rfl

/-! ### Up to the semicolon and from it on -/

variable {a b : String} {t : Token}

theorem resync_front (last : (Token.body a).getLast? = some t) (kind : t.kind = .semicolon) :
    Resync id (fun w v => ∃ i ≤ (Token.body a).length, w.At a i ∧ v.At (a ++ b) i)
      (fun w v => ∃ i < (Token.body a).length, w.At a i ∧ v.At (a ++ b) i) where
  shows := by
    rintro w v ⟨i, inside, here, there⟩
    rw [here.current, there.current, (Token.separate_of_semicolon last kind).nth_left inside]
    rfl
  moves := by
    rintro w v ⟨i, inside, here, there⟩ bare
    refine ⟨i + 1, ?_, here.iterate 1, there.iterate 1⟩
    -- The last token is the semicolon, so a window that shows another one stands in front of it.
    obtain ⟨m, count, same⟩ := Token.nth_last last
    have before : i ≠ m := by
      rintro rfl
      rw [here.current, same] at bare
      exact bare kind
    omega
  enters := by
    rintro w v ⟨i, inside, here, there⟩ more
    exact ⟨i, here.ne_eof_iff.1 more, here, there⟩
  leaves := by
    rintro w v ⟨i, inside, here, there⟩
    exact ⟨i + 1, inside, here.iterate 1, there.iterate 1⟩

theorem resync_behind (separate : Token.Separate a b) :
    Resync (Span.shift (Text.byteLength a.toList))
      (fun w v => ∃ i, w.At b i ∧ v.At (a ++ b) ((Token.body a).length + i))
      (fun w v => ∃ i, w.At b i ∧ v.At (a ++ b) ((Token.body a).length + i)) where
  shows := by
    rintro w v ⟨i, here, there⟩
    rw [here.current, there.current, separate.nth_right]
  moves := by
    rintro w v ⟨i, here, there⟩ -
    exact ⟨i + 1, here.iterate 1, there.iterate 1⟩
  enters := fun related _ => related
  leaves := by
    rintro w v ⟨i, here, there⟩
    exact ⟨i + 1, here.iterate 1, there.iterate 1⟩

theorem resync_back (last : (Token.body a).getLast? = some t) (kind : t.kind = .semicolon) :
    Resync (Span.shift (Text.byteLength a.toList))
      (fun w v => ∃ i, w.At b i ∧ v.At (a ++ b) ((Token.body a).length + i))
      (fun w v => ∃ i, w.At b i ∧ v.At (a ++ b) ((Token.body a).length + i)) :=
  resync_behind (Token.separate_of_semicolon last kind)

/-- A semicolon parts a source: what stands behind it is read as a source of its own, and whatever
was wrong in front of it is reported and forgotten. -/
theorem ofText_append_of_semicolon (last : (Token.body a).getLast? = some t) (kind : t.kind = .semicolon) :
    (ofText (a ++ b)).program.statements = (ofText a).program.statements ++
        (ofText b).program.statements.map (Stmt.mapSpan (Span.shift (Text.byteLength a.toList))) ∧
      (ofText (a ++ b)).diagnostics = (ofText a).diagnostics ++
        (ofText b).diagnostics.map (Diagnostic.mapSpan (Span.shift (Text.byteLength a.toList))) := by
  obtain ⟨u, run, reported⟩ := run_ofText a
  obtain ⟨v, run', reported'⟩ := run_ofText b
  obtain ⟨z, whole, all⟩ := run_ofText (a ++ b)
  have front := resync_front (b := b) last kind
  have back := resync_back (b := b) last kind
  have start : Abreast (fun w v => ∃ i ≤ (Token.body a).length, w.At a i ∧ v.At (a ++ b) i)
      (.ofText a) (.ofText (a ++ b)) :=
    ⟨⟨0, Nat.zero_le _, Window.at_ofText a, Window.at_ofText (a ++ b)⟩, rfl⟩
  obtain ⟨u', new, met, added, added', goes⟩ := run.echoed front start
  obtain ⟨i, bound, here, there⟩ := met.window
  obtain rfl : i = (Token.body a).length := by
    have spent : u.window.current.kind = .eof := run.finishes
    rw [here.current, Token.nth_eof_iff] at spent
    omega
  obtain ⟨v', new', met', added₂, added₂', goes'⟩ := run'.echoed back
    ⟨⟨0, Window.at_ofText b, there⟩, met.depth.trans run.depth_eq⟩
  have spent : v'.current.kind = .eof := by
    rw [State.current, back.shows met'.window]
    exact run'.finishes
  have rest : Run v' [] v' := .finished ((State.isFinished_iff _).2 spent)
  obtain ⟨same, rfl⟩ := whole.unique (goes _ _ (goes' _ _ rest))
  constructor
  · rw [same, List.append_nil, List.map_id'' Stmt.mapSpan_id]
  · rw [all, added₂', added', reported, added, reported', added₂, List.map_id'' Diagnostic.mapSpan_id]
    simp [State.ofText]

/-- Neither the character that is none of the language nor the open parenthesis matters to `-y)`. -/
theorem ofText_append_of_semicolon_unclosed :
    (Token.body "é (x + ;").getLast? = some ⟨.semicolon, ";", ⟨8, 9⟩⟩ ∧
      (ofText ("é (x + ;" ++ "-y)")).program.statements = (ofText "é (x + ;").program.statements ++
        (ofText "-y)").program.statements.map (Stmt.mapSpan (Span.shift 9)) ∧
      (ofText ("é (x + ;" ++ "-y)")).diagnostics = (ofText "é (x + ;").diagnostics ++
        (ofText "-y)").diagnostics.map (Diagnostic.mapSpan (Span.shift 9)) := by
  have last : (Token.body "é (x + ;").getLast? = some ⟨.semicolon, ";", ⟨8, 9⟩⟩ := by decide +kernel
  have bytes : Text.byteLength "é (x + ;".toList = 9 := by decide
  have parted := ofText_append_of_semicolon (b := "-y)") last rfl
  rw [bytes] at parted
  exact ⟨last, parted⟩

end Program

end LetLang
