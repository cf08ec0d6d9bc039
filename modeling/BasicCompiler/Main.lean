/-
# The command line

Reads the file or the standard input that the arguments ask for, and writes what `CommandLine.answer` says.
-/
import BasicCompiler.CommandLine

open BasicCompiler.CommandLine

def readErrorOf : IO.Error → ReadError
  | .inappropriateType _ 21 _ => .isDirectory
  | .inappropriateType _ _ _ => .notDirectory
  | .invalidArgument _ _ _ => .nameTooLong
  | _ => .notFound

def readText (name : String) : IO (Except ReadError String) := do
  try return .ok (← IO.FS.readFile name)
  catch e => return .error (readErrorOf e)

def main (args : List String) : IO UInt32 := do
  let (text, stdin) ←
    match Request.ofArguments args with
    | .ok (.compile (some name) _ _) => do pure (← readText name, "")
    | .ok (.compile none _ _) => do pure (.error .notFound, ← (← IO.getStdin).readToEnd)
    | _ => pure (.error .notFound, "")
  let a := answer args (fun _ => text) stdin
  (← IO.getStdout).putStr a.stdout
  (← IO.getStderr).putStr a.stderr
  return a.code.toUInt32
