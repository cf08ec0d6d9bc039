/-
# What the command line answers

`dbcc [--emit tokens|ast|ir] [--ptr32] [FILE]` compiles a file, or without one each line of the standard input by
itself.
-/
import BasicCompiler.CommandLine.Arguments
import BasicCompiler.CommandLine.Directory
import BasicCompiler.Compiler
import BasicCompiler.Ir.Printer
import BasicCompiler.Source.Printer

namespace BasicCompiler.CommandLine

/-- What is written, and the code that the program ends with. -/
structure Answer where
  code : Nat
  stdout : String
  stderr : String

def tokenLine (t : Token) : String := t.kind.tag ++ " " ++ t.text ++ "\n"

def outputOf (ctx : Context) (output : Output) (file : SourceFile) : Outcome String :=
  match output with
  | .tokens => (readTokens file.text).andThen fun ts => ⟨some (String.join (ts.map tokenLine)), []⟩
  | .ast => (Source.parseProgram file.text).andThen fun p => ⟨some p.text, []⟩
  | .ir => (compile ctx file).andThen fun m => ⟨some m.text, []⟩

def echoes (file : SourceFile) (reports : List Report) : String :=
  String.join (reports.map fun r => (file.diagnose r).echo file)

def answerFile (ctx : Context) (output : Output) (file : SourceFile) : Answer :=
  let o := outputOf ctx output file
  match o.result with
  | some text => ⟨0, text, echoes file o.reports⟩
  | none => ⟨1, "", echoes file o.reports ++ s!"Error: compilation of {file.name} failed\n"⟩

def unreadableFile (name : String) (e : ReadError) : Answer :=
  ⟨1, "", s!"Error: could not read {name}\n\nCaused by:\n    " ++ e.message ++ "\n"⟩

def linesOf (chars : List Char) : List (List Char) :=
  match chars with
  | [] => []
  | c :: rest =>
      if c = '\n' then [c] :: linesOf rest
      else
        match linesOf rest with
        | [] => [[c]]
        | line :: lines => (c :: line) :: lines

def answerLines (ctx : Context) (output : Output) (stdin : String) : Answer :=
  let files := (linesOf stdin.toList).map fun line => (⟨"<stdin>", String.ofList line⟩ : SourceFile)
  let outcomes := files.map fun file => (file, outputOf ctx output file)
  ⟨0, String.join (outcomes.map fun (_, o) => o.result.getD ""),
    String.join (outcomes.map fun (file, o) => echoes file o.reports)⟩

/-- Answers a request. `read` gives the text of the file that a path leads to. -/
def Request.answer (read : String → Except ReadError String) (stdin : String) : Request → Answer
  | .version => ⟨0, "dbcc 0.1.0\n", ""⟩
  | .compile (some name) output pointer =>
      match read name with
      | .ok text => answerFile (Context.standard pointer) output ⟨name, text⟩
      | .error e => unreadableFile name e
  | .compile none output pointer => answerLines (Context.standard pointer) output stdin

def answer (args : List String) (read : String → Except ReadError String) (stdin : String) :
    Answer :=
  match Request.ofArguments args with
  | .ok request => request.answer read stdin
  | .error e => ⟨1, "", "error: " ++ e.message ++ "\n"⟩

end BasicCompiler.CommandLine
