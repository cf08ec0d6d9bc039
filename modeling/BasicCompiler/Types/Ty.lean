/-
# The types of values

A value has a built-in type, is an array of or a pointer to values of another type, or has a type that the program
declares. Two types are the same type exactly when they are equal.
-/
import BasicCompiler.Types.Builtin

namespace BasicCompiler

/-- Number of a declared type, in the order of declaration. -/
abbrev UserTypeId := Nat

inductive Ty where
  | builtin (t : BuiltinType)
  | arrayOf (elem : Ty)
  | pointerTo (elem : Ty)
  | user (id : UserTypeId)
deriving DecidableEq, Inhabited

namespace Ty

def void : Ty := .builtin .void

def bool : Ty := .builtin .bool

def int32 : Ty := .builtin .int32

def string : Ty := .builtin .string

/-- The built-in type that decides size and conversions; declared types have none. -/
def builtin? : Ty → Option BuiltinType
  | .builtin t => some t
  | .arrayOf _ => some .array
  | .pointerTo _ => some .pointer
  | .user _ => none

def user? : Ty → Option UserTypeId
  | .user id => some id
  | _ => none

def element? : Ty → Option Ty
  | .arrayOf elem => some elem
  | _ => none

/-- Whether the built-in type behind `ty` has a property. -/
def satisfies (ty : Ty) (p : BuiltinType → Bool) : Bool := ty.builtin?.any p

def isVoid (ty : Ty) : Bool := ty = .void

def isString (ty : Ty) : Bool := ty = .string

def isArray (ty : Ty) : Bool := ty.satisfies (· = .array)

def isNumeric (ty : Ty) : Bool := ty.satisfies BuiltinType.isNumeric

def isInteger (ty : Ty) : Bool := ty.satisfies BuiltinType.isInteger

def isSimd (ty : Ty) : Bool := ty.satisfies BuiltinType.isSimd

def component? (ty : Ty) : Option BuiltinType := ty.builtin?.map BuiltinType.component

def isFloat (ty : Ty) : Bool := ty.component?.any BuiltinType.isFloat

def isSigned (ty : Ty) : Bool := ty.component?.any BuiltinType.isSigned

end Ty

end BasicCompiler
