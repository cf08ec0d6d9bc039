/-
# The built-in types

Forty-one types: numbers of several widths, normalized integers, vectors and matrices, strings, and the handles
`array` and `pointer`. `BuiltinType.info` is the table of their attributes.
-/
import BasicCompiler.Text.CaseFold

namespace BasicCompiler

/-- Width of a pointer on the target. -/
inductive PointerWidth where
  | bits32
  | bits64
deriving DecidableEq

namespace PointerWidth

def bytes : PointerWidth → Nat
  | .bits32 => 4
  | .bits64 => 8

def bits (w : PointerWidth) : Nat := 8 * w.bytes

end PointerWidth

inductive BuiltinType where
  | void | any | bool | int8 | uint8 | int16 | uint16 | int32 | uint32 | int64 | uint64 | float16
  | float32 | float64 | unorm8 | snorm8 | unorm16 | snorm16 | unorm32 | snorm32 | intptr
  | uintptr | vec2i | vec3i | vec4i | vec2f | vec3f | vec4f | vec2d | vec3d | vec4d | quatf
  | mat2f | mat3f | mat4f | mat2d | mat3d | mat4d | string | array | pointer
deriving DecidableEq, Inhabited

/-- What a type is made of, as far as promotion and conversion ask. -/
structure TypeFlags where
  signed : Bool
  unsigned : Bool
  float : Bool
  normalized : Bool
  simd : Bool
  pointer : Bool
  /-- Never takes part in the promotion of operands. -/
  noPromote : Bool
deriving DecidableEq

namespace TypeFlags

def plain : TypeFlags := ⟨false, false, false, false, false, false, false⟩

def unpromoted : TypeFlags := { plain with noPromote := true }

def signedInt : TypeFlags := { plain with signed := true }

def unsignedInt : TypeFlags := { plain with unsigned := true }

def floating : TypeFlags := { plain with signed := true, float := true }

def signedNorm : TypeFlags := { plain with signed := true, normalized := true }

def unsignedNorm : TypeFlags := { plain with unsigned := true, normalized := true }

def signedPointer : TypeFlags := { plain with signed := true, pointer := true }

def unsignedPointer : TypeFlags := { plain with unsigned := true, pointer := true }

def intVector : TypeFlags := { plain with signed := true, simd := true }

def floatVector : TypeFlags := { plain with signed := true, float := true, simd := true }

def rawPointer : TypeFlags := { plain with pointer := true, noPromote := true }

/-- The flags as one number, one bit for each in the order of the fields. -/
def toBits (f : TypeFlags) : Nat :=
  f.signed.toNat + 2 * f.unsigned.toNat + 4 * f.float.toNat + 8 * f.normalized.toNat +
    16 * f.simd.toNat + 32 * f.pointer.toNat + 64 * f.noPromote.toNat

end TypeFlags

/-- The attributes of a type. `bits` is the width of one component; integers of
pointer width are ranked with those of 64 bits. -/
structure TypeInfo where
  flags : TypeFlags
  rows : Nat
  cols : Nat
  bits : Nat

namespace TypeInfo

def scalar (flags : TypeFlags) (bits : Nat) : TypeInfo := ⟨flags, 1, 1, bits⟩

def components (i : TypeInfo) : Nat := i.rows * i.cols

end TypeInfo

namespace BuiltinType

def all : List BuiltinType := [
  .void, .any, .bool, .int8, .uint8, .int16, .uint16, .int32, .uint32, .int64, .uint64, .float16,
  .float32, .float64, .unorm8, .snorm8, .unorm16, .snorm16, .unorm32, .snorm32, .intptr, .uintptr,
  .vec2i, .vec3i, .vec4i, .vec2f, .vec3f, .vec4f, .vec2d, .vec3d, .vec4d, .quatf, .mat2f, .mat3f,
  .mat4f, .mat2d, .mat3d, .mat4d, .string, .array, .pointer
]

def info : BuiltinType → TypeInfo
  | .void => ⟨.unpromoted, 0, 0, 0⟩
  | .any => .scalar .unpromoted 0
  | .bool => .scalar .plain 1
  | .int8 => .scalar .signedInt 8
  | .uint8 => .scalar .unsignedInt 8
  | .int16 => .scalar .signedInt 16
  | .uint16 => .scalar .unsignedInt 16
  | .int32 => .scalar .signedInt 32
  | .uint32 => .scalar .unsignedInt 32
  | .int64 => .scalar .signedInt 64
  | .uint64 => .scalar .unsignedInt 64
  | .float16 => .scalar .floating 16
  | .float32 => .scalar .floating 32
  | .float64 => .scalar .floating 64
  | .unorm8 => .scalar .unsignedNorm 8
  | .snorm8 => .scalar .signedNorm 8
  | .unorm16 => .scalar .unsignedNorm 16
  | .snorm16 => .scalar .signedNorm 16
  | .unorm32 => .scalar .unsignedNorm 32
  | .snorm32 => .scalar .signedNorm 32
  | .intptr => .scalar .signedPointer 64
  | .uintptr => .scalar .unsignedPointer 64
  | .vec2i => ⟨.intVector, 1, 2, 32⟩
  | .vec3i => ⟨.intVector, 1, 3, 32⟩
  | .vec4i => ⟨.intVector, 1, 4, 32⟩
  | .vec2f => ⟨.floatVector, 1, 2, 32⟩
  | .vec3f => ⟨.floatVector, 1, 3, 32⟩
  | .vec4f => ⟨.floatVector, 1, 4, 32⟩
  | .vec2d => ⟨.floatVector, 1, 2, 64⟩
  | .vec3d => ⟨.floatVector, 1, 3, 64⟩
  | .vec4d => ⟨.floatVector, 1, 4, 64⟩
  | .quatf => ⟨.floatVector, 1, 4, 32⟩
  | .mat2f => ⟨.floatVector, 2, 2, 32⟩
  | .mat3f => ⟨.floatVector, 3, 3, 32⟩
  | .mat4f => ⟨.floatVector, 4, 4, 32⟩
  | .mat2d => ⟨.floatVector, 2, 2, 64⟩
  | .mat3d => ⟨.floatVector, 3, 3, 64⟩
  | .mat4d => ⟨.floatVector, 4, 4, 64⟩
  | .string => .scalar .plain 0
  | .array => .scalar .unpromoted 0
  | .pointer => .scalar .rawPointer 0

/-- Source spellings; the first one of each type is the one it is shown with. -/
def spellings : List (String × BuiltinType) := [
  ("void", .void), ("any", .any), ("boolean", .bool), ("int8", .int8), ("byte", .uint8),
  ("uint8", .uint8), ("int16", .int16), ("word", .uint16), ("uint16", .uint16),
  ("integer", .int32), ("int32", .int32), ("dword", .uint32), ("uint32", .uint32),
  ("int64", .int64), ("uint64", .uint64), ("float16", .float16), ("float", .float32),
  ("float32", .float32), ("double", .float64), ("float64", .float64), ("unorm8", .unorm8),
  ("snorm8", .snorm8), ("unorm16", .unorm16), ("snorm16", .snorm16), ("unorm32", .unorm32),
  ("snorm32", .snorm32), ("intptr", .intptr), ("uintptr", .uintptr), ("vec2i", .vec2i),
  ("vec3i", .vec3i), ("vec4i", .vec4i), ("vec2f", .vec2f), ("vec2", .vec2f), ("vec3f", .vec3f),
  ("vec3", .vec3f), ("vec4f", .vec4f), ("vec4", .vec4f), ("vec2d", .vec2d), ("vec3d", .vec3d),
  ("vec4d", .vec4d), ("quatf", .quatf), ("quat", .quatf), ("mat2f", .mat2f), ("mat2", .mat2f),
  ("mat3f", .mat3f), ("mat3", .mat3f), ("mat4f", .mat4f), ("mat4", .mat4f), ("mat2d", .mat2d),
  ("mat3d", .mat3d), ("mat4d", .mat4d), ("string", .string), ("array", .array),
  ("pointer", .pointer)
]

def ofName? (name : String) : Option BuiltinType := spellings.lookup (fold name)

def name (t : BuiltinType) : String :=
  ((spellings.find? (·.2 = t)).map (·.1)).getD "?"

def index (t : BuiltinType) : Nat := all.idxOf t

def isInteger (t : BuiltinType) : Bool :=
  t = .bool ||
    (t.info.components = 1 && (t.info.flags.signed || t.info.flags.unsigned) &&
      !(t.info.flags.float || t.info.flags.normalized || t.info.flags.noPromote))

def isFloat (t : BuiltinType) : Bool := t.info.flags.float && !t.info.flags.simd

def isNormalized (t : BuiltinType) : Bool := t.info.flags.normalized

def isSimd (t : BuiltinType) : Bool := t.info.flags.simd

def isNumeric (t : BuiltinType) : Bool :=
  t != .bool && (t.isInteger || t.isFloat || t.isNormalized)

def isSigned (t : BuiltinType) : Bool := t.info.flags.signed

/-- The scalar type of one component of a vector or matrix; any other type itself. -/
def component : BuiltinType → BuiltinType
  | .vec2i | .vec3i | .vec4i => .int32
  | .vec2f | .vec3f | .vec4f | .quatf | .mat2f | .mat3f | .mat4f => .float32
  | .vec2d | .vec3d | .vec4d | .mat2d | .mat3d | .mat4d => .float64
  | t => t

/-- Whether values of the type are as wide as a pointer. Strings and arrays are
handles. -/
def isPointerWide : BuiltinType → Bool
  | .intptr | .uintptr | .pointer | .string | .array | .any => true
  | _ => false

def size (w : PointerWidth) (t : BuiltinType) : Nat :=
  if t = .bool then 1
  else if t.isPointerWide then w.bytes
  else t.info.components * t.info.bits / 8

def align (w : PointerWidth) (t : BuiltinType) : Nat :=
  if t.isPointerWide then w.bytes else max 1 (t.info.bits / 8)

end BuiltinType

end BasicCompiler
