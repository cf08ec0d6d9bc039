/-
# Modules of the intermediate representation

A module holds structures, globals and functions. A function is a list of blocks; a block is a list of instructions
and a terminator.
-/
import BasicCompiler.Decimal.Double

namespace BasicCompiler.Ir

abbrev Reg := Nat

abbrev BlockId := Nat

inductive Ty where
  | void
  /-- One bit. -/
  | bool
  | i8
  | i16
  | i32
  | i64
  | f16
  | f32
  | f64
  | ptr (inner : Ty)
  /-- Scalars side by side; a matrix lies row by row. -/
  | vector (elem : Ty) (count : Nat)
  | array (elem : Ty) (count : Nat)
  | struct (fields : List Ty)
deriving Inhabited

/-! ## Equality of types -/

mutual

def Ty.same : Ty → Ty → Bool
  | .void, .void | .bool, .bool | .i8, .i8 | .i16, .i16 | .i32, .i32 | .i64, .i64
  | .f16, .f16 | .f32, .f32 | .f64, .f64 => true
  | .ptr a, .ptr b => a.same b
  | .vector a m, .vector b n => a.same b && m == n
  | .array a m, .array b n => a.same b && m == n
  | .struct as, .struct bs => Ty.sameAll as bs
  | _, _ => false

def Ty.sameAll : List Ty → List Ty → Bool
  | [], [] => true
  | a :: as, b :: bs => a.same b && Ty.sameAll as bs
  | _, _ => false

end

mutual

theorem Ty.same_iff : ∀ a b : Ty, a.same b = true ↔ a = b
  | .void, b | .bool, b | .i8, b | .i16, b | .i32, b | .i64, b | .f16, b | .f32, b | .f64, b => by
      cases b <;> simp [Ty.same]
  | .ptr a, b => by cases b <;> simp [Ty.same, Ty.same_iff a]
  | .vector a m, b => by cases b <;> simp [Ty.same, Ty.same_iff a]
  | .array a m, b => by cases b <;> simp [Ty.same, Ty.same_iff a]
  | .struct as, b => by cases b <;> simp [Ty.same, Ty.sameAll_iff as]

theorem Ty.sameAll_iff : ∀ as bs : List Ty, Ty.sameAll as bs = true ↔ as = bs
  | [], bs => by cases bs <;> simp [Ty.sameAll]
  | a :: as, bs => by cases bs <;> simp [Ty.sameAll, Ty.same_iff a, Ty.sameAll_iff as]

end

instance : DecidableEq Ty := fun a b => decidable_of_iff _ (Ty.same_iff a b)

namespace Ty

/-- The pointer that strings and arrays are handled by. -/
def handle : Ty := .ptr .i8

def isFloat : Ty → Bool
  | .f16 | .f32 | .f64 => true
  | _ => false

def isPtr : Ty → Bool
  | .ptr _ => true
  | _ => false

def scalar : Ty → Ty
  | .vector elem _ => elem
  | t => t

/-- Width of an integer or of a vector's integer lanes; nothing else has one. -/
def intBits (t : Ty) : Nat :=
  match t.scalar with
  | .bool => 1
  | .i8 => 8
  | .i16 => 16
  | .i32 => 32
  | .i64 => 64
  | _ => 0

end Ty

inductive Constant where
  | int (value : Int64)
  | float (value : Double)
  | bool (value : Bool)
  | null
  /-- Zero bits of any type. -/
  | zero
  /-- The bytes of a text and a zero byte. -/
  | str (text : String)

inductive BinaryOpcode where
  | add | sub | mul | sdiv | udiv | srem | urem
  | fadd | fsub | fmul | fdiv | frem
  | and | or | xor | shl | ashr | lshr
deriving DecidableEq

inductive UnaryOpcode where
  | neg | fneg | not
deriving DecidableEq

/-- How two values compare; the signed ones also order floats. -/
inductive Predicate where
  | eq | ne | slt | sle | sgt | sge | ult | ule | ugt | uge
deriving DecidableEq

inductive Cast where
  | sext | zext | trunc | fptosi | fptoui | sitofp | uitofp | fpcast
  | ptrtoint | inttoptr | bitcast
deriving DecidableEq

/-- What an instruction does. -/
inductive Op where
  | const (value : Constant) (type : Ty)
  | binary (opcode : BinaryOpcode) (left right : Reg)
  | unary (opcode : UnaryOpcode) (operand : Reg)
  | icmp (predicate : Predicate) (left right : Reg)
  | fcmp (predicate : Predicate) (left right : Reg)
  | cast (kind : Cast) (operand : Reg) (type : Ty)
  /-- A scalar in every lane. -/
  | splat (scalar : Reg) (type : Ty)
  /-- One value per lane. -/
  | vector (lanes : List Reg) (type : Ty)
  | extract (vector : Reg) (lane : Nat)
  | insert (vector value : Reg) (lane : Nat)
  | shuffle (vector : Reg) (lanes : List Nat)
  | alloca (type : Ty)
  | load (address : Reg) (type : Ty)
  | store (address value : Reg)
  /-- The address of a field of the structure at an address. -/
  | field (address : Reg) (index : Nat)
  | global (name : String)
  | call (callee : String) (args : List Reg)

structure Instr where
  result : Option Reg
  op : Op

inductive Terminator where
  | ret (value : Option Reg)
  | br (target : BlockId)
  | condBr (cond : Reg) (onTrue onFalse : BlockId)
  | unreachable
deriving DecidableEq

def Terminator.successors : Terminator → List BlockId
  | .ret _ | .unreachable => []
  | .br target => [target]
  | .condBr _ onTrue onFalse => [onTrue, onFalse]

structure Block where
  id : BlockId
  label : Option String
  instrs : List Instr
  terminator : Option Terminator

inductive Function where
  /-- A function of another module; with `isVararg` more arguments may follow. -/
  | external (name : String) (params : List Ty) (isVararg : Bool) (result : Ty)
  | defined (name : String) (params : List (Reg × Ty)) (result : Ty) (blocks : List Block)

namespace Function

def name : Function → String
  | .external name _ _ _ | .defined name _ _ _ => name

def isExternal : Function → Bool
  | .external _ _ _ _ => true
  | .defined _ _ _ _ => false

end Function

structure Global where
  name : String
  type : Ty
  init : Option Constant
  isConst : Bool

structure StructDef where
  name : String
  fields : List Ty

structure Module where
  name : String
  functions : List Function
  globals : List Global
  structs : List StructDef

namespace Module

def empty (name : String) : Module := ⟨name, [], [], []⟩

/-- The module without the functions of other modules. -/
def withoutExternals (m : Module) : Module :=
  { m with functions := m.functions.filter fun f => !f.isExternal }

end Module

end BasicCompiler.Ir
