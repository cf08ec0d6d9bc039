/-
# How source types and operators are represented

The type in the intermediate representation of every source type, and the instruction that each operator and
conversion becomes. Nothing here emits anything.
-/
import BasicCompiler.Ir.Module
import BasicCompiler.Source.Operator
import BasicCompiler.Types.Layout
import BasicCompiler.Types.Pattern

namespace BasicCompiler.Lowering

/-! ## Types -/

def pointerInt : PointerWidth → Ir.Ty
  | .bits32 => .i32
  | .bits64 => .i64

def scalarType (pointer : PointerWidth) : BuiltinType → Ir.Ty
  | .bool => .bool
  | .int8 | .uint8 | .unorm8 | .snorm8 => .i8
  | .int16 | .uint16 | .unorm16 | .snorm16 => .i16
  | .int32 | .uint32 | .unorm32 | .snorm32 => .i32
  | .int64 | .uint64 => .i64
  | .float16 => .f16
  | .float32 => .f32
  | .float64 => .f64
  | .intptr | .uintptr => pointerInt pointer
  | .string | .array | .pointer | .any => .handle
  | _ => .void

def builtinType (pointer : PointerWidth) (t : BuiltinType) : Ir.Ty :=
  if t.isSimd then .vector (scalarType pointer t.component) t.info.components
  else scalarType pointer t

/-- The type of values of `ty`, where declared types are nested at most `depth` deep. -/
def irTypeWithin (types : TypeTable) : Nat → Ty → Ir.Ty
  | _, .builtin t => builtinType types.pointer t
  | _, .arrayOf _ | _, .pointerTo _ => .handle
  | 0, .user _ => .struct []
  | depth + 1, .user id => .struct ((types.get id).members.map fun m => irTypeWithin types depth m.type)

/-- The type of values of `ty`. No type embeds itself, so the number of declared types
bounds the nesting. -/
def irType (types : TypeTable) (ty : Ty) : Ir.Ty := irTypeWithin types types.user.length ty

/-- The type of a parameter; what is written through is passed by its address. -/
def paramType (types : TypeTable) (ty : Ty) (pass : PassBy) : Ir.Ty :=
  if pass.needsLvalue then .ptr (irType types ty) else irType types ty

/-! ## Operators -/

def predicate (op : BinaryOp) (signed : Bool) : Ir.Predicate :=
  match op with
  | .ne => .ne
  | .lt => if signed then .slt else .ult
  | .le => if signed then .sle else .ule
  | .gt => if signed then .sgt else .ugt
  | .ge => if signed then .sge else .uge
  | _ => .eq

def floatOpcode? : BinaryOp → Option Ir.BinaryOpcode
  | .add => some .fadd
  | .sub => some .fsub
  | .mul => some .fmul
  | .div => some .fdiv
  | .mod => some .frem
  | _ => none

def intOpcode (op : BinaryOp) (signed : Bool) : Ir.BinaryOpcode :=
  match op with
  | .add => .add
  | .sub => .sub
  | .mul => .mul
  | .div => if signed then .sdiv else .udiv
  | .mod => if signed then .srem else .urem
  | .bitAnd | .and => .and
  | .bitOr | .or => .or
  | .bitXor | .xor => .xor
  | .shl => .shl
  | .shr => if signed then .ashr else .lshr
  | .pow | .eq | .ne | .lt | .gt | .le | .ge => .add

/-- The instruction of an operator that is no comparison and no power, between values
of the type `ty`. -/
def opcode (op : BinaryOp) (ty : Ty) : Ir.BinaryOpcode :=
  match ty.isFloat, floatOpcode? op with
  | true, some opcode => opcode
  | _, _ => intOpcode op ty.isSigned

/-! ## Conversions -/

/-- The change of width between two integers or two floats; nothing if there is none. -/
def resizeCast? (source target : Ir.Ty) (signed : Bool) : Option Ir.Cast :=
  if source = target then none
  else if source.scalar.isFloat then some .fpcast
  else if target.intBits < source.intBits then some .trunc
  else if signed && 1 < source.intBits then some .sext
  else some .zext

/-- The conversion between two numbers, or lane by lane between two vectors. -/
def numericCast? (types : TypeTable) (source target : Ty) : Option Ir.Cast :=
  match source.isFloat, target.isFloat with
  | true, true => if irType types source = irType types target then none else some .fpcast
  | true, false => some (if target.isSigned then .fptosi else .fptoui)
  | false, true => some (if source.isSigned then .sitofp else .uitofp)
  | false, false => resizeCast? (irType types source) (irType types target) source.isSigned

def reinterpretCast? (source target : Ir.Ty) : Option Ir.Cast :=
  match source.isPtr, target.isPtr with
  | true, false => some .ptrtoint
  | false, true => some .inttoptr
  | _, _ => if source = target then none else some .bitcast

end BasicCompiler.Lowering
