import LetLang.Proofs.Program.Blame
import LetLang.Proofs.Program.Resume
import LetLang.Proofs.Program.Unambiguous

/-!
# Layout does not matter

Two sources whose tokens differ only by their places are read alike: the trees and the diagnostics of
the second are those of the first with the place of each token replaced (`ofText_alike`).
-/

namespace LetLang

open Parse (State Abreast)
open Token (Window)

namespace Token

/-- Token by token, the sources agree in kind and text. -/
def Alike (a b : String) : Prop := (ofText a).map lexeme = (ofText b).map lexeme

instance (a b : String) : Decidable (Alike a b) := inferInstanceAs (Decidable (_ = _))

/-- The map takes the place of each token of `a` to the place of the token of `b` with its index. -/
def Carries (g : Span → Span) (a b : String) : Prop := ∀ k, g (nth a k).span = (nth b k).span

/-- The place in `b` of the token that has the index of the one at this place in `a`. -/
def respan (a b : String) (s : Span) : Span := (nth b (((ofText a).map span).idxOf s)).span

variable {a b : String} {g : Span → Span}

theorem Alike.length_eq (h : Alike a b) : (body a).length = (body b).length := by
  have whole := congrArg List.length h
  rw [List.length_map, List.length_map, length_ofText, length_ofText] at whole
  exact Nat.succ.inj whole

theorem Alike.lexeme_nth (h : Alike a b) (k : Nat) : (nth b k).lexeme = (nth a k).lexeme := by
  have first := getElem?_ofText a _ (Nat.min_le_right k (body a).length)
  have second := getElem?_ofText b _ (Nat.min_le_right k (body b).length)
  have shown : ((ofText a).map lexeme)[min k (body a).length]? = ((ofText b).map lexeme)[min k (body b).length]? := by
    rw [h, h.length_eq]
  rw [List.getElem?_map, List.getElem?_map, first, second, nth_min, nth_min] at shown
  exact (Option.some.inj shown).symm

theorem Alike.nth_eq (h : Alike a b) (carries : Carries g a b) (k : Nat) : nth b k = (nth a k).mapSpan g := by
  obtain ⟨kind, text⟩ := Prod.mk.inj (h.lexeme_nth k)
  have place := carries k
  unfold mapSpan
  rw [place, ← kind, ← text]

/-- The places of the tokens tell them apart. -/
theorem idxOf_span (source : String) (k : Nat) :
    ((ofText source).map span).idxOf (nth source k).span = min k (body source).length := by
  have inside : min k (body source).length < ((ofText source).map span).length := by
    rw [List.length_map, length_ofText]
    omega
  have found := getElem?_ofText source _ (Nat.min_le_right k (body source).length)
  have place : ((ofText source).map span)[min k (body source).length] = (nth source k).span := by
    apply Option.some.inj
    rw [← List.getElem?_eq_getElem inside, List.getElem?_map, found, nth_min]
    rfl
  rw [← place]
  exact (laid_ofText source).spans_nodup.idxOf_getElem _ inside

theorem Alike.carries_respan (h : Alike a b) : Carries (respan a b) a b := by
  intro k
  rw [respan, idxOf_span, h.length_eq, nth_min]

end Token

theorem Stmt.render_mapSpan (g : Span → Span) (x : Stmt) : (x.mapSpan g).render = x.render := by
  cases x with
  | binding | ret => simp only [mapSpan, render, Expr.render_mapSpan, Token.mapSpan]
  | expr t value => exact Expr.render_mapSpan g value

namespace Program

variable {a b : String} {g : Span → Span}

theorem render_of_mapSpan {p q : Program} (h : q.statements = p.statements.map (Stmt.mapSpan g)) :
    q.render = p.render := by
  have texts : Stmt.render ∘ Stmt.mapSpan g = Stmt.render := funext (Stmt.render_mapSpan g)
  rw [render, render, h, List.map_map, texts]

/-- Windows at the same index stay so, and show the same token at two places. -/
theorem resync_alike (alike : Token.Alike a b) (carries : Token.Carries g a b) :
    Resync g (fun w v => ∃ i, w.At a i ∧ v.At b i) (fun w v => ∃ i, w.At a i ∧ v.At b i) where
  shows := by
    rintro w v ⟨i, here, there⟩
    rw [here.current, there.current, alike.nth_eq carries]
  moves := by
    rintro w v ⟨i, here, there⟩ -
    exact ⟨i + 1, here.iterate 1, there.iterate 1⟩
  enters := fun related _ => related
  leaves := by
    rintro w v ⟨i, here, there⟩
    exact ⟨i + 1, here.iterate 1, there.iterate 1⟩

theorem ofText_carried (alike : Token.Alike a b) (carries : Token.Carries g a b) :
    (ofText b).program.statements = (ofText a).program.statements.map (Stmt.mapSpan g) ∧
      (ofText b).diagnostics = (ofText a).diagnostics.map (Diagnostic.mapSpan g) := by
  obtain ⟨u, run, reported⟩ := run_ofText a
  obtain ⟨v, run', reported'⟩ := run_ofText b
  have sync := resync_alike alike carries
  have start : Abreast (fun w v => ∃ i, w.At a i ∧ v.At b i) (.ofText a) (.ofText b) :=
    ⟨⟨0, Window.at_ofText a, Window.at_ofText b⟩, rfl⟩
  obtain ⟨u', new, met, added, added', goes⟩ := run.echoed sync start
  have spent : u'.current.kind = .eof := by
    rw [State.current, sync.shows met.window]
    exact run.finishes
  have rest : Run u' [] u' := .finished ((State.isFinished_iff _).2 spent)
  obtain ⟨same, rfl⟩ := run'.unique (goes _ _ rest)
  constructor
  · rw [same, List.append_nil]
  · rw [reported', added', reported, added]
    simp [State.ofText]

/-- Reading looks at the kinds and texts of the tokens only and carries their places along. Whatever map
takes the places of the first source to those of the second one takes its trees and diagnostics with
them, so the canonical text and the messages are the same. -/
theorem ofText_alike (alike : Token.Alike a b) :
    Token.Carries (Token.respan a b) a b ∧
    (∀ g, Token.Carries g a b →
      (ofText b).program.statements = (ofText a).program.statements.map (Stmt.mapSpan g) ∧
      (ofText b).diagnostics = (ofText a).diagnostics.map (Diagnostic.mapSpan g)) ∧
    List.Forall₂ (fun d d' => d'.fault = d.fault ∧
        ∃ k, d.span = (Token.nth a k).span ∧ d'.span = (Token.nth b k).span)
      (ofText a).diagnostics (ofText b).diagnostics ∧
    (ofText b).program.render = (ofText a).program.render ∧
    (ofText b).diagnostics.map Diagnostic.message = (ofText a).diagnostics.map Diagnostic.message := by
  have carries := alike.carries_respan
  obtain ⟨statements, diagnostics⟩ := ofText_carried alike carries
  refine ⟨carries, fun g => ofText_carried alike, ?_, render_of_mapSpan statements, ?_⟩
  · rw [diagnostics, List.forall₂_map_right_iff, List.forall₂_same]
    intro d member
    obtain ⟨k, place⟩ := exists_token_of_mem member
    refine ⟨rfl, k, place, ?_⟩
    rw [← carries k, ← place]
    rfl
  · rw [diagnostics, List.map_map]
    rfl

/-- One line and four, with a fault in the middle and one at the end. -/
theorem ofText_alike_lines :
    Token.Alike "let x=-(1);é y+" "let x =\n -( 1\t);\r\né y\n +" ∧
      (ofText "let x =\n -( 1\t);\r\né y\n +").program.statements =
        (ofText "let x=-(1);é y+").program.statements.map
          (Stmt.mapSpan (Token.respan "let x=-(1);é y+" "let x =\n -( 1\t);\r\né y\n +")) ∧
      (ofText "let x =\n -( 1\t);\r\né y\n +").diagnostics =
        (ofText "let x=-(1);é y+").diagnostics.map
          (Diagnostic.mapSpan (Token.respan "let x=-(1);é y+" "let x =\n -( 1\t);\r\né y\n +")) ∧
      (ofText "let x =\n -( 1\t);\r\né y\n +").program.render = (ofText "let x=-(1);é y+").program.render := by
  have alike : Token.Alike "let x=-(1);é y+" "let x =\n -( 1\t);\r\né y\n +" := by decide +kernel
  obtain ⟨carries, carried, -, text, -⟩ := ofText_alike alike
  obtain ⟨statements, diagnostics⟩ := carried _ carries
  exact ⟨alike, statements, diagnostics, text⟩

end Program

end LetLang
