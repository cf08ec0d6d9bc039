/-
# Emitting the code of one function

What is emitted depends on the program, on where the variables and labels of the function are, and on what surrounds
the statement.
-/
import BasicCompiler.Ir.Builder
import BasicCompiler.Lowering.Cleanup
import BasicCompiler.Lowering.Types
import BasicCompiler.Typed.Tree

namespace BasicCompiler.Lowering

/-! ## Faults -/

inductive LowerFault where
  | notVariable
  | parameterNotVariable
  | noStorage (name : String)
  | noAddress
  | noValue
  | noTarget
  | noLoop
  | noNextCase
  | notArray
  | invalidSplat
  | noConversion (source target : String)

def LowerFault.message : LowerFault → String
  | .notVariable => "Not a variable"
  | .parameterNotVariable => "Parameter is not a variable"
  | .noStorage name => s!"No storage for '{name}'"
  | .noAddress => "Expression has no address"
  | .noValue => "Expression has no value"
  | .noTarget => "No assignment target to read"
  | .noLoop => "Not inside a loop"
  | .noNextCase => "No case to fall through to"
  | .notArray => "Not an array"
  | .invalidSplat => "Invalid splat"
  | .noConversion source target => s!"Cannot convert {source} to {target}"

structure LowerError where
  fault : LowerFault
  span : Span

/-! ## Surroundings -/

/-- Where `exit` and `continue` go, and how many frames stay open then. -/
structure LoopTargets where
  onExit : Ir.BlockId
  onContinue : Ir.BlockId
  depth : Nat

/-- Where `fallthrough` goes, if there is a case behind this one, and how many frames
stay open then. -/
structure CaseTarget where
  next : Option Ir.BlockId
  depth : Nat

structure Env where
  program : Typed.Program
  result : Ty
  isMain : Bool
  /-- The addresses of parameters and locals. -/
  slots : List (SymbolId × Ir.Reg)
  labels : List (SymbolId × Ir.BlockId)
  loop : Option LoopTargets
  nextCase : Option CaseTarget
  /-- The address of the target of the assignment at work. -/
  target : Option Ir.Reg

structure LowerState where
  builder : Ir.Builder
  cleanups : CleanupStack

abbrev Lower := ReaderT Env (StateT LowerState (Except LowerError))

namespace Lower

def fail {α : Type} (fault : LowerFault) (span : Span) : Lower α :=
  fun _ _ => .error ⟨fault, span⟩

def types : Lower TypeTable := return (← read).program.types

def typeOf (ty : Ty) : Lower Ir.Ty := return irType (← types) ty

/-! ## Building -/

/-- Runs a step of the builder that answers something. -/
def build {α : Type} (step : Ir.Builder → α × Ir.Builder) : Lower α := fun _ s =>
  let (a, builder) := step s.builder
  .ok (a, { s with builder })

def change (step : Ir.Builder → Ir.Builder) : Lower Unit := fun _ s =>
  .ok ((), { s with builder := step s.builder })

def emit (op : Ir.Op) : Lower Ir.Reg := build (·.emit op)

def perform (op : Ir.Op) : Lower Unit := change (·.perform op)

def call (callee : String) (args : List Ir.Reg) : Lower Ir.Reg := emit (.call callee args)

def callVoid (callee : String) (args : List Ir.Reg) : Lower Unit := perform (.call callee args)

def constInt (value : Int64) (type : Ir.Ty) : Lower Ir.Reg := emit (.const (.int value) type)

def constZero (type : Ir.Ty) : Lower Ir.Reg := emit (.const .zero type)

def castWith (kind : Option Ir.Cast) (reg : Ir.Reg) (type : Ir.Ty) : Lower Ir.Reg :=
  match kind with
  | some kind => emit (.cast kind reg type)
  | none => pure reg

def createBlock (label : String) : Lower Ir.BlockId := build (·.createBlock label)

def setBlock (id : Ir.BlockId) : Lower Unit := change (·.setBlock id)

def terminate (t : Ir.Terminator) : Lower Unit := change (·.terminate t)

def br (target : Ir.BlockId) : Lower Unit := terminate (.br target)

def condBr (cond : Ir.Reg) (onTrue onFalse : Ir.BlockId) : Lower Unit :=
  terminate (.condBr cond onTrue onFalse)

def detach (label : String) : Lower Unit := do setBlock (← createBlock label)

def createBlocks {α : Type} (label : α → String) : List α → Lower (List Ir.BlockId)
  | [] => pure []
  | a :: rest => do
      let id ← createBlock (label a)
      let ids ← createBlocks label rest
      return id :: ids

/-! ## Releases -/

def changeCleanups (step : CleanupStack → CleanupStack) : Lower Unit := fun _ s =>
  .ok ((), { s with cleanups := step s.cleanups })

def register (c : Cleanup) : Lower Unit := changeCleanups (·.register c)

def depth : Lower Nat := return (← get).cleanups.depth

def emitCleanup (c : Cleanup) : Lower Unit := do
  match c.indirect? with
  | some type =>
      let handle ← emit (.load c.reg type)
      callVoid c.owned.release [handle]
  | none => callVoid c.owned.release [c.reg]

def emitCleanups : List Cleanup → Lower Unit
  | [] => pure ()
  | c :: rest => do
      emitCleanup c
      emitCleanups rest

def runReleases (cs : List Cleanup) : Lower Unit := do
  changeCleanups (·.ran cs)
  emitCleanups cs

/-- Runs the releases of every frame above the lowest `depth` ones. -/
def releaseFrom (depth : Nat) : Lower Unit := do
  runReleases ((← get).cleanups.pendingFrom depth)

/-- Closes the innermost frame. Its releases are run unless control cannot come here. -/
def closeFrame : Lower Unit := do
  let s ← get
  let (pending, cleanups) := s.cleanups.popFrame
  set { s with cleanups }
  if !s.builder.isTerminated && s.builder.isReachable then runReleases pending

def withFrame {α : Type} (action : Lower α) : Lower α := do
  changeCleanups (·.pushFrame)
  let a ← action
  closeFrame
  return a

/-- Calls a runtime function that makes a string, and notes its release. -/
def freshString (callee : String) (args : List Ir.Reg) : Lower Ir.Reg := do
  let handle ← call callee args
  register (.direct .string handle)
  return handle

/-- Notes the releases of members of the structure at `slot`; the first has the number
`index`. -/
def registerMembers (types : TypeTable) (registerField : Ir.Reg → Ty → Lower Unit)
    (slot : Ir.Reg) (index : Nat) : List Member → Lower Unit
  | [] => pure ()
  | m :: rest => do
      if types.needsFini m.type then
        let field ← emit (.field slot index)
        registerField field m.type
      registerMembers types registerField slot (index + 1) rest

/-- Notes the release of all that a slot of type `ty` holds, where declared types are
nested at most `depth` deep. -/
def registerSlotWithin (types : TypeTable) : Nat → Ir.Reg → Ty → Lower Unit
  | _, slot, .builtin .string => register (.slot .string slot)
  | _, slot, .builtin .array | _, slot, .arrayOf _ => register (.slot .array slot)
  | _, _, .builtin _ | _, _, .pointerTo _ => pure ()
  | 0, _, .user _ => pure ()
  | depth + 1, slot, .user id =>
      if types.needsFini (.user id) then
        registerMembers types (registerSlotWithin types depth) slot 0 (types.get id).members
      else pure ()

def registerSlot (slot : Ir.Reg) (ty : Ty) : Lower Unit := do
  let types ← types
  registerSlotWithin types types.user.length slot ty

/-! ## Variables -/

def globalName (name : String) : String := "g." ++ fold name

def varAddress (id : SymbolId) : Lower Ir.Reg := do
  let env ← read
  match env.slots.lookup id, env.program.scopes.get? id with
  | some slot, _ => return slot
  | none, some ⟨name, _, _, .variable ⟨_, .global⟩⟩ => emit (.global (globalName name))
  | none, some symbol => fail (.noStorage symbol.name) symbol.span
  | none, none => fail (.noStorage "") Span.none

def storeValue (address value : Ir.Reg) (ty : Ty) : Lower Unit :=
  if ty.isString then callVoid "__rt_string_assign" [address, value]
  else if ty.isArray then callVoid "__rt_array_assign" [address, value]
  else perform (.store address value)

end Lower

end BasicCompiler.Lowering
