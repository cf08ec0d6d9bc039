/-
# Building a module

A module is built one function at a time. Instructions go to the end of the current block, slots to the front of the
first one.
-/
import BasicCompiler.Ir.Module

namespace BasicCompiler.Ir

/-- A function whose blocks are not all there yet. -/
structure OpenFunction where
  name : String
  params : List (Reg × Ty)
  result : Ty
  /-- The blocks that have been left, in order. -/
  closed : List Block

structure Builder where
  nextReg : Reg
  nextBlock : BlockId
  nextString : Nat
  module : Module
  function : Option OpenFunction
  block : Option Block
  /-- Number of slots at the front of the first block. -/
  slotCount : Nat
  /-- The labels of blocks that have not been entered. -/
  labels : List (BlockId × String)

namespace Builder

def start (name : String) : Builder :=
  { nextReg := 0
    nextBlock := 0
    nextString := 0
    module := Module.empty name
    function := none
    block := none
    slotCount := 0
    labels := [] }

def freshReg (b : Builder) : Reg × Builder := (b.nextReg, { b with nextReg := b.nextReg + 1 })

/-! ## Functions -/

/-- Puts the current block behind the blocks of the function. -/
def closeBlock (b : Builder) : Builder :=
  match b.block with
  | none => b
  | some block =>
      { b with
        block := none
        function := b.function.map fun f => { f with closed := f.closed ++ [block] } }

def finishFunction (b : Builder) : Builder :=
  let b := b.closeBlock
  match b.function with
  | none => { b with labels := [] }
  | some f =>
      { b with
        function := none
        labels := []
        module :=
          { b.module with
            functions := b.module.functions ++ [.defined f.name f.params f.result f.closed] } }

def abandonFunction (b : Builder) : Builder :=
  { b with function := none, block := none, labels := [] }

/-- Begins a function; the registers of its parameters come first, and its first block
is the current one. -/
def startFunction (b : Builder) (name : String) (params : List Ty) (result : Ty) :
    List Reg × Builder :=
  let b := b.finishFunction
  let regs := List.range params.length
  (regs,
    { b with
      nextReg := params.length
      nextBlock := 1
      slotCount := 0
      function := some ⟨name, regs.zip params, result, []⟩
      block := some ⟨0, some "entry", [], none⟩ })

def finish (b : Builder) : Module := b.finishFunction.module

/-! ## Declarations -/

def declareExternal (b : Builder) (name : String) (params : List Ty) (isVararg : Bool)
    (result : Ty) : Builder :=
  { b with
    module :=
      { b.module with
        functions := b.module.functions ++ [.external name params isVararg result] } }

def addStruct (b : Builder) (name : String) (fields : List Ty) : Builder :=
  { b with module := { b.module with structs := b.module.structs ++ [⟨name, fields⟩] } }

def addGlobal (b : Builder) (g : Global) : Builder :=
  { b with module := { b.module with globals := b.module.globals ++ [g] } }

/-! ## Blocks -/

def createBlock (b : Builder) (label : String) : BlockId × Builder :=
  (b.nextBlock, { b with nextBlock := b.nextBlock + 1, labels := b.labels ++ [(b.nextBlock, label)] })

def terminate (b : Builder) (t : Terminator) : Builder :=
  { b with block := b.block.map fun block => { block with terminator := block.terminator.or (some t) } }

def setBlock (b : Builder) (id : BlockId) : Builder :=
  let b := (b.terminate (.br id)).closeBlock
  { b with
    block := some ⟨id, b.labels.lookup id, [], none⟩
    labels := b.labels.filter (·.1 != id) }

/-- Whether nothing can be added to the current block: it has ended, or there is none. -/
def isTerminated (b : Builder) : Bool :=
  match b.block with
  | some block => block.terminator.isSome
  | none => true

/-- Whether the current block is the first, or a block that has been left goes on to
it. -/
def isReachable (b : Builder) : Bool :=
  match b.function, b.block with
  | some f, some block =>
      f.closed.isEmpty ||
        f.closed.any fun c => c.terminator.any fun t => t.successors.contains block.id
  | _, _ => false

/-! ## Instructions -/

/-- Puts an instruction at the end of the current block. -/
def append (b : Builder) (i : Instr) : Builder :=
  { b with block := b.block.map fun block => { block with instrs := block.instrs ++ [i] } }

def emit (b : Builder) (op : Op) : Reg × Builder :=
  let (r, b) := b.freshReg
  (r, b.append ⟨some r, op⟩)

def perform (b : Builder) (op : Op) : Builder := b.append ⟨none, op⟩

/-- Puts an instruction behind the first `n` of a block. -/
def insertAt (n : Nat) (i : Instr) (block : Block) : Block :=
  { block with instrs := block.instrs.insertIdx n i }

/-- Adds a slot behind the other slots of the first block. -/
def alloca (b : Builder) (type : Ty) : Reg × Builder :=
  let (r, b) := b.freshReg
  let slot := insertAt b.slotCount ⟨some r, .alloca type⟩
  let b := { b with slotCount := b.slotCount + 1 }
  match b.function with
  | some f =>
      match f.closed with
      | first :: rest => (r, { b with function := some { f with closed := slot first :: rest } })
      | [] => (r, { b with block := b.block.map slot })
  | none => (r, { b with block := b.block.map slot })

/-- Adds a constant text to the module and the address of its first byte to the
function. -/
def stringConstant (b : Builder) (text : String) : Reg × Builder :=
  let name := s!".str.{b.nextString}"
  let g : Global := ⟨name, .array .i8 (text.utf8ByteSize + 1), some (.str text), true⟩
  ({ b with nextString := b.nextString + 1 }.addGlobal g).emit (.global name)

end Builder

end BasicCompiler.Ir
