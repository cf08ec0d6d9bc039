/-
# What checking knows

The scopes and types declared so far, a signature for every function, the body at work, and what has been reported. A
check that stops says nothing by itself: it leaves behind the reports that were made before it.
-/
import BasicCompiler.Typed.Rules

namespace BasicCompiler.Typed

/-- How far a function has been analysed. -/
inductive Analysis where
  | pending
  | running
  | done (f : Function)

def Analysis.isPending : Analysis → Bool
  | .pending => true
  | _ => false

def Analysis.function? : Analysis → Option Function
  | .done f => some f
  | _ => none

structure Signature where
  symbol : SymbolId
  /-- Number among the overloads of its name. -/
  overload : Nat
  /-- Missing until it is declared or inferred. -/
  result : Option Ty
  params : List SymbolId
  scope : ScopeId
  linkName : String
  analysis : Analysis

/-- The body being analysed. -/
structure Body where
  scope : ScopeId
  function : Option FunctionId
  locals : List SymbolId
  labels : List SymbolId
  /-- The first `return` without a value. -/
  bareReturn : Option Span

def Body.start (scope : ScopeId) (function : Option FunctionId) : Body :=
  ⟨scope, function, [], [], none⟩

structure CheckState where
  scopes : ScopeTree SymbolKind
  types : TypeTable
  commands : List Command
  globals : List SymbolId
  /-- The globals by the places of their names. -/
  predeclared : List (Span × SymbolId)
  signatures : List Signature
  body : Body
  reports : List CheckError

def CheckState.start (pointer : PointerWidth) (memberAlign : Nat) : CheckState :=
  { scopes := ScopeTree.empty
    types := TypeTable.empty pointer memberAlign
    commands := []
    globals := []
    predeclared := []
    signatures := []
    body := Body.start ScopeTree.root none
    reports := [] }

abbrev Check := StateT CheckState (Except (List CheckError))

namespace Check

def report (errors : List CheckError) : Check Unit :=
  modify fun s => { s with reports := s.reports ++ errors }

def stop {α : Type} : Check α := fun s => .error s.reports

def fail {α : Type} (fault : CheckFault) (span : Span) : Check α := do
  report [⟨fault, span, []⟩]
  stop

/-- Applies a rule that depends on the declared types alone. -/
def rule {α : Type} (r : TypeTable → Result α) : Check α := fun s =>
  match r s.types with
  | .ok a => .ok (a, s)
  | .error errors => (report errors >>= fun _ => stop) s

/-! ## Symbols -/

/-- The clash of a new declaration with the symbol `existing`. -/
def redeclaration (scopes : ScopeTree SymbolKind) (id : Ident) (existing : SymbolId) :
    CheckError :=
  match scopes.get? existing with
  | some previous =>
      { fault := .alreadyDeclared id.node previous.kind.describe
        span := id.span
        notes :=
          if previous.span = Span.none then []
          else [⟨.previousDeclaration, previous.span⟩] }
  | none => ⟨.undeclared id.node, id.span, []⟩

def addSymbol (scope : ScopeId) (id : Ident) (kind : SymbolKind) : Check SymbolId := fun s =>
  match s.scopes.add scope id.node id.span kind with
  | .ok (symbol, scopes) => .ok (symbol, { s with scopes })
  | .error existing => (report [redeclaration s.scopes id existing] >>= fun _ => stop) s

def pushScope (owner : Option SymbolId) : Check ScopeId := fun s =>
  let (scope, scopes) := s.scopes.push ScopeTree.root owner
  .ok (scope, { s with scopes })

def lookUp (name : String) (reach : Reach) : Check (Option SymbolId) := fun s =>
  .ok (s.scopes.find s.body.scope name reach, s)

/-- What the symbol of a name in the root scope stands for. -/
def rootKind (name : String) : Check (Option SymbolKind) := fun s =>
  .ok (((s.scopes.findHere ScopeTree.root name).bind s.scopes.get?).map (·.kind), s)

def symbolKind (id : SymbolId) : Check (Option SymbolKind) := fun s =>
  .ok ((s.scopes.get? id).map (·.kind), s)

/-! ## Declarations of overloads -/

def sameParams (a b : List Param) : Bool :=
  a.length == b.length && (List.zipWith (fun p q => p.type = q.type && p.count = q.count) a b).all id

/-- Adds an overload to a symbol that has some already. -/
def extendOverloads (symbol : SymbolId) (id : Ident) (overload : Overload) :
    Check (SymbolId × Nat) := do
  match ← symbolKind symbol with
  | some (.function overloads) =>
      if overloads.any fun o => sameParams o.params overload.params then
        fail (.sameParameters id.node) id.span
      else
        modify fun s =>
          { s with scopes := s.scopes.modifyKind symbol fun _ => .function (overloads ++ [overload]) }
        return (symbol, overloads.length)
  | some kind => fail (.alreadyDeclared id.node kind.describe) id.span
  | none => fail (.undeclared id.node) id.span

/-- Declares an overload; answers the symbol and the number among its overloads. -/
def addOverload (id : Ident) (overload : Overload) : Check (SymbolId × Nat) := do
  match (← get).scopes.findHere ScopeTree.root id.node with
  | some symbol => extendOverloads symbol id overload
  | none =>
      let symbol ← addSymbol ScopeTree.root id (.function [overload])
      return (symbol, 0)

/-! ## Type names -/

/-- The type of a value that is declared with a type name. -/
def resolveTypeName (name : Source.TypeName) : Check Ty := do
  let base ←
    match BuiltinType.ofName? name.name.node with
    | some .void | some .any | some .array => fail (.noValueType name.name.node) name.span
    | some t => pure (Ty.builtin t)
    | none =>
        match ← rootKind name.name.node with
        | some (.userType id) => pure (Ty.user id)
        | _ => fail (.unknownType name.name.node) name.name.span
  return if name.isArray then .arrayOf base else base

/-- The type of a name declared with or without a type. -/
def typeOrSuffix (name : String) : Option Source.TypeName → Check Ty
  | some type => resolveTypeName type
  | none => pure (suffixType name)

def declType (decl : Source.VarDecl) : Check Ty := do
  let base ← typeOrSuffix decl.name.node decl.type
  return if decl.dim.isSome then .arrayOf base else base

/-! ## Variables of the body -/

def declareLocal (id : Ident) (type : Ty) : Check SymbolId := do
  let symbol ← addSymbol (← get).body.scope id (.variable ⟨type, .localVar⟩)
  modify fun s => { s with body := { s.body with locals := s.body.locals ++ [symbol] } }
  return symbol

def varExpr (id : SymbolId) (span : Span) : Check Expr := do
  match (← get).scopes.get? id with
  | some ⟨_, _, _, .variable v⟩ => return .var ⟨v.type, span⟩ id
  | some symbol => fail (.notVariable symbol.name symbol.kind.describe) span
  | none => fail .declaresNoVariable span

/-! ## Signatures -/

def signature (id : FunctionId) (span : Span) : Check Signature := do
  match (← get).signatures[id]? with
  | some sig => return sig
  | none => fail (.noFunction id) span

def modifySignature (id : FunctionId) (change : Signature → Signature) : Check Unit :=
  modify fun s => { s with signatures := s.signatures.modify id change }

def withResult (overload : Nat) (result : Ty) : SymbolKind → SymbolKind
  | .function overloads => .function (overloads.modify overload fun o => { o with result })
  | kind => kind

/-- Settles the result of a function, in its signature and among the overloads. -/
def setResult (id : FunctionId) (result : Ty) : Check Unit :=
  modify fun s =>
    match s.signatures[id]? with
    | none => s
    | some sig =>
        { s with
          signatures := s.signatures.modify id fun sig => { sig with result := some result }
          scopes := s.scopes.modifyKind sig.symbol (withResult sig.overload result) }

/-- The result of a called function. `analyse` is used on a function that has none yet
and has not been looked at. -/
def resultOf (analyse : FunctionId → Check Unit) (id : FunctionId) (span : Span) : Check Ty := do
  let sig ← signature id span
  match sig.result with
  | some result => return result
  | none =>
      if sig.analysis.isPending then
        analyse id
        return (← signature id span).result.getD .void
      else fail (.recursiveInference sig.linkName) span

end Check

end BasicCompiler.Typed
