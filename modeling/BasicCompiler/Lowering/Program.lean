/-
# The module of a program

The module declares the runtime and the commands, the types and the globals, and then has one function for each
function of the program and one for the main program.
-/
import BasicCompiler.Diagnostic
import BasicCompiler.Lowering.Stmt

namespace BasicCompiler.Lowering

/-! ## Declarations -/

/-- The functions of the runtime: name, parameters and result. -/
def runtime : List (String × List Ir.Ty × Ir.Ty) := [
  ("__rt_string_from_lit", [.handle], .handle),
  ("__rt_string_concat", [.handle, .handle], .handle),
  ("__rt_string_free", [.handle], .void),
  ("__rt_string_clone", [.handle], .handle),
  ("__rt_string_assign", [.ptr .handle, .handle], .void),
  ("__rt_string_cmp", [.handle, .handle], .i32),
  ("__rt_to_string_int", [.i64], .handle),
  ("__rt_to_string_uint", [.i64], .handle),
  ("__rt_to_string_float", [.f64], .handle),
  ("__rt_to_string_bool", [.bool], .handle),
  ("__rt_array_new", [.i32, .i64], .handle),
  ("__rt_array_elem", [.handle, .i32], .handle),
  ("__rt_array_free", [.handle], .void),
  ("__rt_array_assign", [.ptr .handle, .handle], .void),
  ("__rt_pow_i64", [.i64, .i64], .i64),
  ("__rt_pow_u64", [.i64, .i64], .i64),
  ("__rt_pow_f64", [.f64, .f64], .f64),
  ("__rt_end", [], .void)
]

def declareRuntime (b : Ir.Builder) : Ir.Builder :=
  runtime.foldl (fun b (name, params, result) => b.declareExternal name params false result) b

/-- The parameters of a command as it is linked, and whether more may follow: a repeated
one is announced by its number. -/
def commandParams (types : TypeTable) : List Param → List Ir.Ty × Bool
  | [] => ([], false)
  | p :: rest =>
      if p.count.isRepeated then ([.i32], true)
      else
        let (params, isVararg) := commandParams types rest
        (paramType types p.type p.pass :: params, isVararg)

def declareCommands (types : TypeTable) (seen : List String) (b : Ir.Builder) :
    List Typed.Command → Ir.Builder
  | [] => b
  | c :: rest =>
      if seen.contains c.linkName then declareCommands types seen b rest
      else
        let (params, isVararg) := commandParams types c.params
        let b := b.declareExternal c.linkName params isVararg (irType types c.result)
        declareCommands types (c.linkName :: seen) b rest

def declareTypes (types : TypeTable) (b : Ir.Builder) : Ir.Builder :=
  types.user.foldl
    (fun b t => b.addStruct (fold t.name) (t.members.map fun m => irType types m.type)) b

def declareGlobal (p : Typed.Program) (b : Ir.Builder) (id : SymbolId) : Ir.Builder :=
  match p.scopes.get? id with
  | some ⟨name, _, _, .variable v⟩ =>
      b.addGlobal ⟨Lower.globalName name, irType p.types v.type, some .zero, false⟩
  | _ => b

/-! ## Functions -/

namespace Lower

/-- A parameter of a function: its symbol, its type and whether it is passed by its
address. -/
structure ParamInfo where
  id : SymbolId
  type : Ty
  byRef : Bool

def paramInfos (p : Typed.Program) (span : Span) :
    List SymbolId → Except LowerError (List ParamInfo)
  | [] => .ok []
  | id :: rest =>
      match p.asVariable? id with
      | none => .error ⟨.parameterNotVariable, span⟩
      | some v => do
          let byRef :=
            match v.storage with
            | .param _ byRef => byRef
            | _ => false
          let rest ← paramInfos p span rest
          return ⟨id, v.type, byRef⟩ :: rest

def ParamInfo.irType (types : TypeTable) (p : ParamInfo) : Ir.Ty :=
  paramType types p.type (if p.byRef then .inOutRef else .value)

/-- The address of a parameter. One passed by value has a slot, and a string in it is a
copy. -/
def paramSlot (p : ParamInfo) (reg : Ir.Reg) : Lower Ir.Reg := do
  if p.byRef then return reg
  else
    let type ← typeOf p.type
    let slot ← build (·.alloca type)
    if p.type.isString then
      let copy ← call "__rt_string_clone" [reg]
      perform (.store slot copy)
      registerSlot slot p.type
    else perform (.store slot reg)
    return slot

def paramSlots : List (ParamInfo × Ir.Reg) → Lower (List (SymbolId × Ir.Reg))
  | [] => pure []
  | (p, reg) :: rest => do
      let slot ← paramSlot p reg
      let slots ← paramSlots rest
      return (p.id, slot) :: slots

def localSlots : List SymbolId → Lower (List (SymbolId × Ir.Reg))
  | [] => pure []
  | id :: rest => do
      match (← read).program.asVariable? id with
      | none => localSlots rest
      | some v =>
          let type ← typeOf v.type
          let slot ← build (·.alloca type)
          let nought ← constZero type
          perform (.store slot nought)
          registerSlot slot v.type
          let slots ← localSlots rest
          return (id, slot) :: slots

def labelBlocks : List SymbolId → Lower (List (SymbolId × Ir.BlockId))
  | [] => pure []
  | id :: rest => do
      let name := ((← read).program.scopes.get? id).map (·.name)
      let block ← createBlock (fold (name.getD ""))
      let blocks ← labelBlocks rest
      return (id, block) :: blocks

/-- Ends a function where its text ends: control may not come there, or what is to be
returned there is. -/
def endOfFunction (endValue : Option Typed.Expr) : Lower Unit := do
  let b := (← get).builder
  if b.isTerminated then pure ()
  else if !b.isReachable then terminate .unreachable
  else returnStmt endValue

def functionBody (f : Typed.Function) (params : List ParamInfo) (regs : List Ir.Reg) :
    Lower Unit := do
  changeCleanups (·.pushFrame)
  let paramSlots ← paramSlots (params.zip regs)
  let localSlots ← localSlots f.locals
  let labels ← labelBlocks f.labels
  withReader (fun env => { env with slots := paramSlots ++ localSlots, labels }) do
    block f.body
    endOfFunction f.endValue

end Lower

def startEnv (p : Typed.Program) (f : Typed.Function) (isMain : Bool) : Env :=
  { program := p
    result := f.result
    isMain
    slots := []
    labels := []
    loop := none
    nextCase := none
    target := none }

def lowerFunction (p : Typed.Program) (b : Ir.Builder) (f : Typed.Function) (isMain : Bool) :
    Except LowerError LowerState := do
  let params ← Lower.paramInfos p f.span f.params
  let result := if isMain then .i32 else irType p.types f.result
  let (regs, b) := b.startFunction f.linkName (params.map (·.irType p.types)) result
  let ((), s) ← (Lower.functionBody f params regs (startEnv p f isMain)).run ⟨b, CleanupStack.empty⟩
  return s

def emitFunction (p : Typed.Program) (b : Ir.Builder) (f : Typed.Function) (isMain : Bool) :
    Except LowerError Ir.Builder := do
  let s ← lowerFunction p b f isMain
  return s.builder.finishFunction

/-- Emits functions one after the other, with the faults of those that failed. -/
def emitFunctions (p : Typed.Program) (b : Ir.Builder) :
    List (Typed.Function × Bool) → Ir.Builder × List LowerError
  | [] => (b, [])
  | (f, isMain) :: rest =>
      match emitFunction p b f isMain with
      | .ok b => emitFunctions p b rest
      | .error e =>
          let (b, errors) := emitFunctions p b rest
          (b, e :: errors)

def declareAll (p : Typed.Program) (name : String) : Ir.Builder :=
  let b := declareRuntime (Ir.Builder.start name)
  let b := declareCommands p.types [] b p.commands
  let b := declareTypes p.types b
  p.globals.foldl (declareGlobal p) b

/-- The module of a program under a name, or why there is none. -/
def lower (p : Typed.Program) (name : String) : Except (List LowerError) Ir.Module :=
  let functions := p.functions.map (·, false) ++ [(p.main, true)]
  match emitFunctions p (declareAll p name) functions with
  | (b, []) => .ok b.finish
  | (_, errors) => .error errors

def LowerError.report (e : LowerError) : Report := ⟨.error, e.span, e.fault.message⟩

end BasicCompiler.Lowering
