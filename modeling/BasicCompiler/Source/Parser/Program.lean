/-
# Reading programs

A program is a sequence of functions, type declarations and statements in any order.
-/
import BasicCompiler.Diagnostic
import BasicCompiler.Source.Parser.Stmt

namespace BasicCompiler.Source

namespace Parse

def param : Parse Param := do
  let byRef ← eatWord .kwByRef
  let id ← ident .parameterName
  let type ← optionalType
  return ⟨id, type, byRef⟩

def paramList : Nat → Parse (List Param)
  | 0 => failNext fun _ => .exhausted
  | n + 1 => do
      let p ← param
      if ← eatPunct .comma then
        let rest ← paramList n
        return p :: rest
      else return [p]

/-- Parameters behind the opening parenthesis, through the closing one. -/
def params : Parse (List Param) := do
  if ← eatPunct .closeParen then return []
  let ps ← paramList (← steps)
  let _ ← consumePunct .closeParen .closeParameters
  return ps

def function : Parse Function := do
  let word ← advance
  let id ← ident .functionName
  let _ ← consumePunct .openParen .openParameters
  let params ← params
  let result ← optionalType
  let body ← block (← steps) .functionBody [.kwEndFunction]
  let close ← advance
  let endValue ← if ← atStatementEnd then pure none else pure (some (← expression))
  endOfStatement
  return ⟨id, params, result, body, endValue, word.span.join close.span⟩

/-- The fields of a type declaration up to, not including, `endtype`. -/
def fields : Nat → Parse (List Field)
  | 0 => failNext fun _ => .exhausted
  | n + 1 => do
      let t ← peek
      if t.kind = .keyword .kwEndType then return []
      else if t.kind = .eof then failNext fun _ => .unclosedType
      else
        let id ← ident .fieldName
        let _ ← consume (.keyword .kwAs) .fieldType
        let type ← typeName
        endOfStatement
        let rest ← fields n
        return ⟨id, type⟩ :: rest

def typeDecl : Parse TypeDecl := do
  let word ← advance
  let id ← ident .declaredTypeName
  endOfStatement
  let fields ← fields (← steps)
  let close ← advance
  endOfStatement
  return ⟨id, fields, word.span.join close.span⟩

end Parse

/-- A part of a program. -/
inductive Item where
  | function (f : Function)
  | typeDecl (t : TypeDecl)
  | stmt (s : Stmt)

def Program.prepend (p : Program) : Item → Program
  | .function f => { p with functions := f :: p.functions }
  | .typeDecl t => { p with types := t :: p.types }
  | .stmt s => { p with stmts := s :: p.stmts }

def Program.empty : Program := ⟨[], [], []⟩

namespace Parse

def item : Parse Item := do
  match (← peek).kind with
  | .keyword .kwFunction => return .function (← function)
  | .keyword .kwType => return .typeDecl (← typeDecl)
  | _ => return .stmt (← statement (← steps) .topLevel)

def items : Nat → Parse Program
  | 0 => failNext fun _ => .exhausted
  | n + 1 => do
      if ← nextIs .eof then return Program.empty
      let i ← item
      let rest ← items n
      return rest.prepend i

def program : Parse Program := do items (← steps)

end Parse

/-! ## Reading texts -/

def lexReport (fault : Spanned LexFault) : Report := ⟨.error, fault.span, fault.node.message⟩

def ParseError.report (e : ParseError) : Report := ⟨.error, e.span, e.fault.message⟩

def lexReports (s : TokenStream) (unseen : Nat) : List Report :=
  (s.faultsUpTo (s.lexemes.length + 1 - unseen)).map lexReport

/-- Reports in the order they were made: each fault behind the lexical ones met before it,
and at the end those met until only `unseen` tokens were left. -/
def reportsOf (s : TokenStream) (unseen : Nat) : List ParseError → List Report
  | [] => lexReports s unseen
  | e :: rest =>
      let before := lexReports s e.unseen
      before ++ e.report :: (reportsOf s unseen rest).drop before.length

def runParse {α : Type} (parse : Parse α) (s : TokenStream) : Outcome α :=
  match parse (TokenReader.ofStream s) with
  | .ok (a, r) => ⟨some a, reportsOf s r.rest.length r.reports⟩
  | .error errors => ⟨none, reportsOf s (s.lexemes.length + 1) errors⟩

def parseProgram (text : String) : Outcome Program :=
  runParse Parse.program (TokenStream.ofText text)

def parseExpression (text : String) : Outcome Expr :=
  runParse Parse.expression (TokenStream.ofText text)

end BasicCompiler.Source
