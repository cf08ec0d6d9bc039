/-
# Conversions between types

`conversion from to mode` chooses how a value changes its type.
-/
import BasicCompiler.Types.Ty

namespace BasicCompiler

/-- What asks for a conversion. -/
inductive ConversionMode where
  /-- A type name applied to a value. -/
  | explicit
  /-- Assignments, operands and returned values. -/
  | implicit
  /-- Arguments: nothing but a string is passed as a string. -/
  | argument
deriving DecidableEq

inductive Conversion where
  | none
  | extend
  | truncate
  | intToFloat
  | floatToInt
  | toBool
  | toString
  /-- A scalar copied into every component. -/
  | splat
  /-- The same bits under another type. -/
  | reinterpret
  | invalid
deriving DecidableEq

namespace Conversion

def isValid (c : Conversion) : Bool := c != .invalid

/-- Whether the conversion adds to the cost of a call. -/
def isCostly (c : Conversion) : Bool := c != .none && c != .invalid

def text : Conversion → String
  | .none => "none"
  | .extend => "extend"
  | .truncate => "trunc"
  | .intToFloat => "itof"
  | .floatToInt => "ftoi"
  | .toBool => "tobool"
  | .toString => "tostring"
  | .splat => "splat"
  | .reinterpret => "bitcast"
  | .invalid => "invalid"

end Conversion

namespace BuiltinType

/-- The conversion between two numbers of different types. -/
def numericConversion (source target : BuiltinType) : Conversion :=
  if !source.isFloat && target.isFloat then .intToFloat
  else if source.isFloat && !target.isFloat then .floatToInt
  else if source.info.bits < target.info.bits then .extend
  else if target.info.bits < source.info.bits then .truncate
  else .reinterpret

/-- A pointer and an integer as wide as one share their bits. -/
def pointerConversion : BuiltinType → BuiltinType → Conversion
  | .pointer, .intptr | .pointer, .uintptr | .intptr, .pointer | .uintptr, .pointer =>
      .reinterpret
  | _, _ => .invalid

def simdConversion (source target : BuiltinType) : Conversion :=
  if source.info.components ≠ target.info.components then .invalid
  else if source.component = target.component then .reinterpret
  else numericConversion source.component target.component

def conversion (source target : BuiltinType) (mode : ConversionMode) : Conversion :=
  if source = target then .none
  else if source.info.flags.noPromote || target.info.flags.noPromote then
    pointerConversion source target
  else if target = .string then
    if mode = .argument || source.isSimd then .invalid else .toString
  else if source = .string then .invalid
  else if target = .bool then if source.isSimd then .invalid else .toBool
  else
    match source.isSimd, target.isSimd with
    | false, true => .splat
    | true, false => .invalid
    | true, true => simdConversion source target
    | false, false => numericConversion source target

end BuiltinType

/-- The conversion from one type to another. Any pointer is as good as any other;
arrays of different elements and different declared types do not convert. -/
def Ty.conversion (source target : Ty) (mode : ConversionMode) : Conversion :=
  if source = target then .none
  else
    match source.builtin?, target.builtin? with
    | some .pointer, some .pointer => .reinterpret
    | some a, some b => if a = b then .invalid else a.conversion b mode
    | _, _ => .invalid

end BasicCompiler
