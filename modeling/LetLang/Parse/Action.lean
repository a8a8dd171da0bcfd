import LetLang.Program.Parser

/-!
Single steps of a parse, for tools that drive a parse by hand: any reader may be called at any
token. A diagnostic that a step answers is not recorded.
-/

namespace LetLang.Parse

open Token (Kind)

inductive Action where
  | advance
  | expect (kind : Kind)
  /-- Opens expressions until one is refused, `times` at most. -/
  | enter (times : Nat)
  | leave (times : Nat)
  | record (diagnostic : Diagnostic)
  | program
  | stmt
  | form (form : Stmt.Form)
  | expr (power : Power)
  | opening (opening : Expr.Opening)
  | binary (left : Expr)

inductive Answer where
  | done
  | token (token : Token)
  | program (program : Program)
  | stmt (stmt : Stmt)
  | expr (expr : Expr)
  | fault (diagnostic : Diagnostic)
  /-- An expression was refused after so many others. -/
  | refused (diagnostic : Diagnostic) (opened : Nat)
  deriving Inhabited

/-- Runs a reader and tells what it answers. -/
def answer {α : Type} (tell : α → Answer) (reader : Reader α) (s : State) : Answer × State :=
  match reader s with
  | .ok a s => (tell a, s)
  | .error d s => (.fault d, s)

/-- Opens expressions until one is refused; `opened` were opened before. -/
def enterTimes : (times opened : Nat) → State → Answer × State
  | 0, _, s => (.done, s)
  | times + 1, opened, s =>
    match Reader.enter s with
    | .ok () s => enterTimes times (opened + 1) s
    | .error d s => (.refused d opened, s)

def Action.run : Action → State → Answer × State
  | advance => answer .token Reader.advance
  | expect kind => answer (fun () => .done) (Reader.expect kind)
  | enter times => enterTimes times 0
  | leave times => fun s => (.done, { s with depth := s.depth - times })
  | record d => fun s => (.done, s.record d)
  | program => fun s => let (p, s) := Program.parse s; (.program p, s)
  | stmt => answer .stmt Stmt.parse
  | form f => answer .stmt (Stmt.parseForm f)
  | expr power => answer .expr (Expr.parse power)
  | opening o => answer .expr (Expr.parseOpening Expr.parse o)
  | binary left => answer .expr (Expr.parseBinary Expr.parse left)

/-- The state after some actions. -/
def State.after (s : State) (actions : List Action) : State :=
  actions.foldl (fun s a => (a.run s).2) s

end LetLang.Parse
