/-
# What is declared before any body

Commands, types, functions and globals are declared in this order. A type is laid out after every type it embeds, so a
type that embeds itself is found out.
-/
import BasicCompiler.Context
import BasicCompiler.Typed.Checker.State

namespace BasicCompiler.Typed.Check

/-! ## Commands -/

def command (index : Nat) (decl : CommandDecl) : Check Unit := do
  match parsePattern decl.pattern with
  | .error e => fail (.badPattern e) Span.none
  | .ok members =>
      let params := members.tail.map (·.toParam)
      let result := (members.head?.map (·.type.toTy)).getD .void
      modify fun s => { s with commands := s.commands ++ [⟨decl.name, decl.linkName, params, result⟩] }
      let _ ← addOverload ⟨decl.name, Span.none⟩ ⟨params, result, .command index, Span.none⟩
      return ()

/-- Declares commands; the first has the number `index`. -/
def commandsFrom (index : Nat) : List CommandDecl → Check Unit
  | [] => pure ()
  | decl :: rest => do
      command index decl
      commandsFrom (index + 1) rest

/-! ## Types -/

/-- Declares the name of a type and answers the scope of its members. -/
def typeName (decl : Source.TypeDecl) : Check ScopeId := do
  if (BuiltinType.ofName? decl.name.node).isSome then
    fail (.builtinTypeName decl.name.node) decl.name.span
  else
    let scope ← pushScope none
    let (id, types) := (← get).types.declare decl.name.node
    modify fun s => { s with types }
    let symbol ← addSymbol ScopeTree.root decl.name (.userType id)
    modify fun s => { s with scopes := s.scopes.setOwner scope symbol }
    return scope

def typeNames : List Source.TypeDecl → Check (List ScopeId)
  | [] => pure []
  | decl :: rest => do
      let scope ← typeName decl
      let scopes ← typeNames rest
      return scope :: scopes

/-- Resolves the types of fields, laying out each type that is embedded. -/
def fieldTypes (layOut : UserTypeId → Check Unit) : List Source.Field → Check (List (String × Ty))
  | [] => pure []
  | field :: rest => do
      let type ← resolveTypeName field.type
      match type.user? with
      | some inner => layOut inner
      | none => pure ()
      let rest ← fieldTypes layOut rest
      return (field.name.node, type) :: rest

/-- Declares the members of a type in its scope; the first has the number `index`. -/
def memberSymbols (scope : ScopeId) (index : Nat) :
    List (Source.Field × Member) → Check Unit
  | [] => pure ()
  | (field, m) :: rest => do
      let _ ← addSymbol scope field.name (.variable ⟨m.type, .member index⟩)
      memberSymbols scope (index + 1) rest

/-- Lays out a type after every type it embeds. `path` are the types that embed it on
the way here. -/
def layOutType (decls : List (Source.TypeDecl × ScopeId)) :
    Nat → List UserTypeId → UserTypeId → Check Unit
  | 0, _, _ => fail .exhausted Span.none
  | depth + 1, path, id => do
      match decls[id]? with
      | none => pure ()
      | some (decl, scope) =>
          if ((← get).types.get id).isLaidOut then pure ()
          else if path.contains id then fail (.containsItself decl.name.node) decl.name.span
          else
            let fields ← fieldTypes (layOutType decls depth (id :: path)) decl.fields
            modify fun s => { s with types := s.types.layout id fields }
            let members := ((← get).types.get id).members
            memberSymbols scope 0 (decl.fields.zip members)

def layOutTypes (decls : List (Source.TypeDecl × ScopeId)) : List UserTypeId → Check Unit
  | [] => pure ()
  | id :: rest => do
      layOutType decls (decls.length + 1) [] id
      layOutTypes decls rest

def types (decls : List Source.TypeDecl) : Check Unit := do
  let scopes ← typeNames decls
  layOutTypes (decls.zip scopes) (List.range decls.length)

/-! ## Functions -/

def params : List Source.Param → Check (List Param)
  | [] => pure []
  | p :: rest => do
      let type ← typeOrSuffix p.name.node p.type
      let rest ← params rest
      return ⟨type, if p.byRef then .inOutRef else .value, .once⟩ :: rest

/-- Declares the parameters of a function in its scope; the first has the number
`index`. -/
def paramSymbols (scope : ScopeId) (index : Nat) :
    List (Source.Param × Param) → Check (List SymbolId)
  | [] => pure []
  | (p, sig) :: rest => do
      let symbol ← addSymbol scope p.name (.variable ⟨sig.type, .param index p.byRef⟩)
      let rest ← paramSymbols scope (index + 1) rest
      return symbol :: rest

/-- The name a function is linked under: its own, unless that is taken by an overload
before it or by the main program. -/
def linkName (name : String) (overload : Nat) : String :=
  let folded := fold name
  if overload = 0 && folded ≠ "main" then folded else s!"{folded}.{overload}"

def functionSignature (id : FunctionId) (f : Source.Function) : Check Unit := do
  let ps ← params f.params
  let result ←
    match f.result with
    | some type => do pure (some (← resolveTypeName type))
    | none => pure none
  let (symbol, overload) ←
    addOverload f.name ⟨ps, result.getD .void, .function id, f.name.span⟩
  let scope ← pushScope (some symbol)
  let symbols ← paramSymbols scope 0 (f.params.zip ps)
  let sig : Signature :=
    { symbol, overload, result, params := symbols, scope
      linkName := linkName f.name.node overload
      analysis := .pending }
  modify fun s => { s with signatures := s.signatures ++ [sig] }

/-- Declares functions; the first has the number `id`. -/
def functionsFrom (id : FunctionId) : List Source.Function → Check Unit
  | [] => pure ()
  | f :: rest => do
      functionSignature id f
      functionsFrom (id + 1) rest

/-! ## Globals and labels -/

mutual

/-- The declarations of globals in a statement; at the top level those without a word
in front are some too. -/
def stmtGlobals (topLevel : Bool) : Source.Stmt → List Source.VarDecl
  | .declare _ decl =>
      if decl.scope = .globalVar || (topLevel && decl.scope = .automatic) then [decl] else []
  | .ifChain _ bs none => branchGlobals topLevel bs
  | .ifChain _ bs (some body) => branchGlobals topLevel bs ++ blockGlobals topLevel body
  | .select _ _ cs => caseGlobals topLevel cs
  | .doLoop _ body | .whileLoop _ _ body | .repeatLoop _ body _ | .forLoop _ _ _ _ _ _ body =>
      blockGlobals topLevel body
  | .label _ _ | .assign _ _ _ _ | .call _ _ _ | .goto _ _ | .ret _ _ | .exitLoop _
  | .continueLoop _ | .fallthrough _ | .stop _ => []

def stmtsGlobals (topLevel : Bool) : List Source.Stmt → List Source.VarDecl
  | [] => []
  | s :: rest => stmtGlobals topLevel s ++ stmtsGlobals topLevel rest

def blockGlobals (topLevel : Bool) : Source.Block → List Source.VarDecl
  | .mk _ body => stmtsGlobals topLevel body

def branchGlobals (topLevel : Bool) : List Source.Branch → List Source.VarDecl
  | [] => []
  | .mk _ body :: rest => blockGlobals topLevel body ++ branchGlobals topLevel rest

def caseGlobals (topLevel : Bool) : List Source.Case → List Source.VarDecl
  | [] => []
  | .mk _ _ body :: rest => blockGlobals topLevel body ++ caseGlobals topLevel rest

end

mutual

def stmtLabels : Source.Stmt → List Ident
  | .label _ id => [id]
  | .ifChain _ bs none => branchLabels bs
  | .ifChain _ bs (some body) => branchLabels bs ++ blockLabels body
  | .select _ _ cs => caseLabels cs
  | .doLoop _ body | .whileLoop _ _ body | .repeatLoop _ body _ | .forLoop _ _ _ _ _ _ body =>
      blockLabels body
  | .declare _ _ | .assign _ _ _ _ | .call _ _ _ | .goto _ _ | .ret _ _ | .exitLoop _
  | .continueLoop _ | .fallthrough _ | .stop _ => []

def stmtsLabels : List Source.Stmt → List Ident
  | [] => []
  | s :: rest => stmtLabels s ++ stmtsLabels rest

def blockLabels : Source.Block → List Ident
  | .mk _ body => stmtsLabels body

def branchLabels : List Source.Branch → List Ident
  | [] => []
  | .mk _ body :: rest => blockLabels body ++ branchLabels rest

def caseLabels : List Source.Case → List Ident
  | [] => []
  | .mk _ _ body :: rest => blockLabels body ++ caseLabels rest

end

/-- Every declaration of a global: the top level first, then function by function. -/
def programGlobals (program : Source.Program) : List Source.VarDecl :=
  stmtsGlobals true program.stmts ++ program.functions.flatMap fun f => blockGlobals false f.body

def global (decl : Source.VarDecl) : Check Unit := do
  let type ← declType decl
  let symbol ← addSymbol ScopeTree.root decl.name (.variable ⟨type, .global⟩)
  modify fun s =>
    { s with
      globals := s.globals ++ [symbol]
      predeclared := s.predeclared ++ [(decl.name.span, symbol)] }

def globals : List Source.VarDecl → Check Unit
  | [] => pure ()
  | decl :: rest => do
      global decl
      globals rest

/-- Declares the labels of the body at work; the first has the number `index`. -/
def labelsFrom (index : Nat) : List Ident → Check Unit
  | [] => pure ()
  | id :: rest => do
      let symbol ← addSymbol (← get).body.scope id (.label index)
      modify fun s => { s with body := { s.body with labels := s.body.labels ++ [symbol] } }
      labelsFrom (index + 1) rest

end BasicCompiler.Typed.Check
