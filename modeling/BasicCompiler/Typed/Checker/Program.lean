/-
# Checking a whole program

After everything is declared the functions are analysed in order, unless a call has asked for one before, and then the
main program.
-/
import BasicCompiler.Typed.Checker.Body
import BasicCompiler.Typed.Checker.Declarations

namespace BasicCompiler.Typed

namespace Check

/-- Runs a check with another body at work and goes back to the one before. -/
def withBody {α : Type} (body : Body) (check : Check α) : Check α := do
  let outer := (← get).body
  modify fun s => { s with body }
  let a ← check
  modify fun s => { s with body := outer }
  return a

/-- The result of an analysed body: nothing, if no value was returned. -/
def settleResult (id : FunctionId) (span : Span) : Check Ty := do
  match (← signature id span).result with
  | some result => return result
  | none =>
      setResult id .void
      return .void

/-- Analyses the body of a function, which is the one at work. -/
def functionBody (analyse : FunctionId → Check Unit) (id : FunctionId) (f : Source.Function) :
    Check Function := do
  labelsFrom 0 (blockLabels f.body)
  let body ← block analyse f.body
  let endValue ← optional (returnValue analyse) f.endValue
  let result ← settleResult id f.span
  let atWork := (← get).body
  let sig ← signature id f.span
  match atWork.bareReturn with
  | some span =>
      if !result.isVoid then fail (.mustReturn f.name.node) span
  | none => pure ()
  return {
    name := f.name.node
    linkName := sig.linkName
    symbol := some sig.symbol
    params := sig.params
    result
    locals := atWork.locals
    labels := atWork.labels
    scope := sig.scope
    body
    endValue
    span := f.span }

/-- Analyses a function. `depth` bounds how many functions may be at work inside. -/
def function (functions : List Source.Function) : Nat → FunctionId → Check Unit
  | 0, _ => fail .exhausted Span.none
  | depth + 1, id => do
      match functions[id]? with
      | none => fail (.noFunction id) Span.none
      | some f =>
          let sig ← signature id f.span
          modifySignature id fun sig => { sig with analysis := .running }
          let typed ←
            withBody (Body.start sig.scope (some id))
              (functionBody (function functions depth) id f)
          modifySignature id fun sig => { sig with analysis := .done typed }

/-- Analyses the functions that have not been looked at. -/
def pendingFunctions (analyse : FunctionId → Check Unit) : List FunctionId → Check Unit
  | [] => pure ()
  | id :: rest => do
      let sig ← signature id Span.none
      if sig.analysis.isPending then analyse id
      pendingFunctions analyse rest

def stmtsSpan (stmts : List Source.Stmt) : Span :=
  match stmts.head?, stmts.getLast? with
  | some first, some last => first.span.join last.span
  | _, _ => Span.none

def mainProgram (analyse : FunctionId → Check Unit) (body : List Source.Stmt) : Check Function := do
  let scope ← pushScope none
  modify fun s => { s with body := Body.start scope none }
  labelsFrom 0 (stmtsLabels body)
  let typed ← stmts analyse body
  let atWork := (← get).body
  return {
    name := "main"
    linkName := "main"
    symbol := none
    params := []
    result := .void
    locals := atWork.locals
    labels := atWork.labels
    scope
    body := .mk (stmtsSpan body) typed
    endValue := none
    span := stmtsSpan body }

def program (ctx : Context) (p : Source.Program) : Check Program := do
  commandsFrom 0 ctx.commands
  types p.types
  functionsFrom 0 p.functions
  globals (programGlobals p)
  let analyse := function p.functions p.functions.length
  pendingFunctions analyse (List.range p.functions.length)
  let main ← mainProgram analyse p.stmts
  let s ← get
  return {
    scopes := s.scopes
    types := s.types
    commands := s.commands
    globals := s.globals
    functions := s.signatures.filterMap (·.analysis.function?)
    main }

end Check

/-- Resolves every name of a program and types every expression. A program about which
anything was reported is not accepted. -/
def check (ctx : Context) (p : Source.Program) : Except (List CheckError) Program := do
  let (typed, s) ← (Check.program ctx p).run (CheckState.start ctx.pointer ctx.memberAlign)
  if s.reports.isEmpty then return typed else throw s.reports

end BasicCompiler.Typed
