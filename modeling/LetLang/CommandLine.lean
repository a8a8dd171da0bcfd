import LetLang.Program.Parser
import LetLang.Report

/-!
The command line. With one argument it parses that file; without arguments it parses each line of
standard input on its own. What is parsed is printed in canonical form, or else its diagnostics are
reported. Files are read through a function, so a run is a value: what is written and the exit code.
-/

namespace LetLang.CommandLine

inductive ReadFault where
  | notFound
  | notPermitted
  | notDirectory
  | isDirectory
  | notText
  | other (description : String)
  deriving DecidableEq, Inhabited

def ReadFault.message : ReadFault → String
  | notFound => "No such file or directory (os error 2)"
  | notPermitted => "Permission denied (os error 13)"
  | notDirectory => "Not a directory (os error 20)"
  | isDirectory => "Is a directory (os error 21)"
  | notText => "stream did not contain valid UTF-8"
  | other description => description

/-- What a run writes and its exit code. -/
structure Output where
  stdout : String := ""
  stderr : String := ""
  exitCode : Nat := 0
  deriving DecidableEq, Inhabited

/-- The answer to one source: the canonical text, or a report for each diagnostic. The flag says
whether the source was free of faults. -/
def answer (label source : String) : String × Bool :=
  let outcome := Program.ofText source
  if outcome.diagnostics.isEmpty then
    (outcome.program.render ++ "\n", true)
  else
    let chars := source.toList
    let reports := outcome.diagnostics.map fun d => (Report.ofDiagnostic chars label d).render
    (String.join reports, false)

def decode (bytes : List UInt8) : Except ReadFault String :=
  match String.fromUTF8? (ByteArray.mk bytes.toArray) with
  | some text => .ok text
  | none => .error .notText

def runFile (path : String) (content : Except ReadFault (List UInt8)) : Output :=
  match content.bind decode with
  | .error fault => { stderr := s!"Failed to read {path}: {fault.message}\n", exitCode := 1 }
  | .ok source =>
    let (stdout, clean) := answer path source
    { stdout, exitCode := if clean then 0 else 1 }

/-- The lines of an input without their line ends. A line ends with a line feed, which a carriage
return may precede; the last line may lack it. -/
def byteLines : List UInt8 → List (List UInt8)
  | [] => []
  | 13 :: 10 :: bs => [] :: byteLines bs
  | b :: bs =>
    if b = 10 then [] :: byteLines bs
    else
      match byteLines bs with
      | [] => [[b]]
      | l :: ls => (b :: l) :: ls

/-- Answers the lines in turn, up to the first one that is not text. -/
def runLines : List (List UInt8) → Output
  | [] => {}
  | line :: lines =>
    match decode line with
    | .error fault => { stderr := s!"Failed to read input: {fault.message}\n", exitCode := 1 }
    | .ok source =>
      let output := runLines lines
      { output with stdout := (answer "<stdin>" source).1 ++ output.stdout }

/-- Runs the command line of the program, by the name it was started with, on its arguments. -/
def run (name : String) (args : List String) (readFile : String → Except ReadFault (List UInt8))
    (stdin : List UInt8) : Output :=
  match args with
  | [] => runLines (byteLines stdin)
  | [path] => runFile path (readFile path)
  | _ => { stderr := s!"usage: {name} [FILE]\n", exitCode := 2 }

end LetLang.CommandLine
