/-
# What the arguments ask for

An argument that begins with two dashes names an option: what stands behind its dashes, up to the first `=`.
-/
import BasicCompiler.Types.Builtin

namespace BasicCompiler.CommandLine

/-- What is printed of a compiled text. -/
inductive Output where
  | tokens
  | ast
  | ir
deriving DecidableEq

inductive UsageError where
  | unknownOutput (name : String)
  | unexpected (arg : String)
  | repeated (option : String)

def unknownOutputMessage (name : String) : String :=
  s!"unknown output '{name}', expected tokens, ast or ir"

def UsageError.message : UsageError → String
  | .unknownOutput name => "Invalid value for '--emit <emit>': " ++ unknownOutputMessage name
  | .unexpected arg =>
      s!"Found argument '{arg}' which wasn't expected, or isn't valid in this context"
  | .repeated option =>
      s!"The argument '{option}' was provided more than once, but cannot be used multiple times"

def Output.ofName : String → Except UsageError Output
  | "tokens" => .ok .tokens
  | "ast" => .ok .ast
  | "ir" => .ok .ir
  | name => .error (.unknownOutput name)

/-- What the command line asks for. -/
inductive Request where
  | version
  | compile (file : Option String) (output : Output) (pointer : PointerWidth)

/-! ## Reading -/

/-- What has been read of the arguments. -/
structure Arguments where
  file : Option String
  /-- How often `emit` is named. -/
  emitCount : Nat
  /-- The values of `emit`, in order. -/
  outputs : List String
  /-- How often `ptr32` is named. -/
  ptr32Count : Nat

namespace Arguments

def none : Arguments := ⟨.none, 0, [], 0⟩

def addFile (a : Arguments) (name : String) : Except UsageError Arguments :=
  match a.file with
  | .none => .ok { a with file := some name }
  | some _ => .error (.unexpected name)

def addOutput (a : Arguments) (name : String) : Arguments := { a with outputs := a.outputs ++ [name] }

/-- What the arguments ask for together: every value of `emit` has to be known, and no
option may be named twice. -/
def request (a : Arguments) : Except UsageError Request := do
  let outputs ← a.outputs.mapM Output.ofName
  if 1 < a.emitCount then .error (.repeated "--emit <emit>")
  else if 1 < a.ptr32Count then .error (.repeated "--ptr32")
  else
    let pointer := if a.ptr32Count = 0 then PointerWidth.bits64 else .bits32
    return .compile a.file (outputs.headD .ir) pointer

end Arguments

/-- An option behind its dashes: its name, and what stands behind the first `=`, if
there is one. -/
structure LongOption where
  name : String
  value : Option String

/-- Reads an option. Further signs right behind the first `=` do not count. -/
def LongOption.ofChars (chars : List Char) : LongOption :=
  let body := chars.dropWhile (· = '-')
  let name := String.ofList (body.takeWhile (· != '='))
  match body.dropWhile (· != '=') with
  | [] => ⟨name, none⟩
  | signs => ⟨name, some (String.ofList (signs.dropWhile (· = '=')))⟩

/-- Reads the arguments from left to right. With `isAwaited` the option before is `emit`
without a value. -/
def readArguments (a : Arguments) (isAwaited : Bool) : List String → Except UsageError Request
  | [] => a.request
  | arg :: rest =>
      match arg.toList with
      | ['-', '-'] => do (← rest.foldlM Arguments.addFile a).request
      | '-' :: '-' :: chars =>
          match LongOption.ofChars chars with
          | ⟨"emit", none⟩ => readArguments { a with emitCount := a.emitCount + 1 } true rest
          | ⟨"emit", some value⟩ =>
              readArguments ({ a with emitCount := a.emitCount + 1 }.addOutput value) false rest
          | ⟨"ptr32", _⟩ => readArguments { a with ptr32Count := a.ptr32Count + 1 } false rest
          | ⟨"version", _⟩ => .ok .version
          | ⟨name, _⟩ => .error (.unexpected ("--" ++ name))
      | '-' :: letter :: _ =>
          if letter = 'V' then .ok .version
          else .error (.unexpected (String.ofList ['-', letter]))
      | _ =>
          if isAwaited then readArguments (a.addOutput arg) false rest
          else
            match a.addFile arg with
            | .ok a => readArguments a false rest
            | .error e => .error e

def Request.ofArguments (args : List String) : Except UsageError Request :=
  readArguments Arguments.none false args

end BasicCompiler.CommandLine
