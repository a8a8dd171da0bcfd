import LetLang.Program.Basic
import LetLang.Stmt.Parser

/-!
Reading programs. Each attempt at a statement gives the statement or records its diagnostic, and
then moves one token forward, so bad input cannot stall the reading.
-/

namespace LetLang.Program

open Parse (State)

/-- One attempt at a statement. -/
def attempt (s : State) : Option Stmt × State :=
  match Stmt.parse s with
  | .ok stmt s => (some stmt, s.advance)
  | .error d s => (none, (s.record d).advance)

/-- Attempts up to the end of the source, `moves` at most. -/
def attempts : (moves : Nat) → State → List Stmt × State
  | 0, s => ([], s)
  | moves + 1, s =>
    if s.isFinished then ([], s)
    else
      let (stmt?, s) := attempt s
      let (stmts, s) := attempts moves s
      (stmt?.toList ++ stmts, s)

/-- The statements from the current token to the end of the source. -/
def parse (s : State) : Program × State :=
  let (stmts, s) := attempts s.window.moves s
  (⟨stmts⟩, s)

/-- What a whole source gives: the statements that could be read, the diagnostics of the other
ones and the log, each in source order. -/
structure Outcome where
  program : Program
  diagnostics : List Diagnostic
  log : List Log.Record
  deriving Inhabited

def ofText (source : String) : Outcome :=
  let (program, s) := parse (.ofText source)
  let diagnostics := s.diagnostics.reverse
  { program
    diagnostics
    log := .parsing (Text.byteLength source.toList) :: s.log.reverse ++
      [.parsed program.size diagnostics.length] }

end LetLang.Program
