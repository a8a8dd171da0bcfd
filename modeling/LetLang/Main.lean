import LetLang.CommandLine

/-!
The program: reads the file or standard input and writes what `CommandLine.run` says. Lines of
standard input are answered as they come in.
-/

namespace LetLang.CommandLine

/-- The reason that the operating system gives; some of its calls answer the code negated. -/
def ReadFault.ofError : IO.Error → ReadFault
  | .noFileOrDirectory .. => .notFound
  | .permissionDenied .. => .notPermitted
  | .inappropriateType _ code _ =>
    if code = 20 ∨ code = 0 - 20 then .notDirectory else .isDirectory
  | e => .other (toString e)

def readContent (path : String) : IO (Except ReadFault (List UInt8)) := do
  try
    return .ok (← IO.FS.readBinFile path).toList
  catch e =>
    return .error (ReadFault.ofError e)

/-- Writes the texts and answers the exit code. -/
def Output.write (output : Output) : IO UInt32 := do
  IO.print output.stdout
  (← IO.getStdout).flush
  IO.eprint output.stderr
  return output.exitCode.toUInt32

/-- The bytes up to the next line feed, which is the last one; empty at the end of the stream. -/
partial def nextLine (stream : IO.FS.Stream) (read : ByteArray) : IO ByteArray := do
  let byte ← stream.read 1
  if byte.isEmpty then
    return read
  else if byte.toList = [10] then
    return read ++ byte
  else
    nextLine stream (read ++ byte)

partial def serve (name : String) (stream : IO.FS.Stream) : IO UInt32 := do
  let line ← nextLine stream .empty
  if line.isEmpty then
    return 0
  let code ← (run name [] (fun _ => .error .notFound) line.toList).write
  if code = 0 then serve name stream else return code

end LetLang.CommandLine

def main (args : List String) : IO UInt32 := do
  let name := (← IO.appPath).toString
  match args with
  | [] => LetLang.CommandLine.serve name (← IO.getStdin)
  | [path] =>
    let content ← LetLang.CommandLine.readContent path
    (LetLang.CommandLine.run name args (fun _ => content) []).write
  | _ => (LetLang.CommandLine.run name args (fun _ => .error .notFound) []).write
