/-
# From a source text to a module

The stages run one after the other, and each only if those before it reported no errors: reading the text, checking
the program, and lowering it to a module that has the name of the file.
-/
import BasicCompiler.Lowering.Program
import BasicCompiler.Source.Parser.Program
import BasicCompiler.Typed.Checker.Program

namespace BasicCompiler

def readTokens (text : String) : Outcome (List Token) :=
  let s := TokenStream.ofText text
  ⟨some s.tokens, Source.lexReports s 0⟩

def checkProgram (ctx : Context) (p : Source.Program) : Outcome Typed.Program :=
  match Typed.check ctx p with
  | .ok typed => ⟨some typed, []⟩
  | .error errors => ⟨none, errors.flatMap (·.reports)⟩

def lowerProgram (name : String) (p : Typed.Program) : Outcome Ir.Module :=
  match Lowering.lower p name with
  | .ok m => ⟨some m, []⟩
  | .error errors => ⟨none, errors.map (·.report)⟩

def checkText (ctx : Context) (text : String) : Outcome Typed.Program :=
  (Source.parseProgram text).andThen (checkProgram ctx)

def compile (ctx : Context) (file : SourceFile) : Outcome Ir.Module :=
  (checkText ctx file.text).andThen (lowerProgram file.name)

end BasicCompiler
