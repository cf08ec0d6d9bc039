/-
# The common type of two operands

`promote a b` is the type both operands of a binary operator are converted to.
-/
import BasicCompiler.Types.Builtin

namespace BasicCompiler

namespace BuiltinType

/-- The narrowest normalized integer that has at least `bits` bits. -/
def normalizedOf (bits : Nat) (signed : Bool) : BuiltinType :=
  if bits ≤ 8 then if signed then .snorm8 else .unorm8
  else if bits ≤ 16 then if signed then .snorm16 else .unorm16
  else if signed then .snorm32 else .unorm32

/-- Whether integer `b` outranks `a`: wider, or as wide and unsigned where `a` is
signed, or alike in both and of pointer width where `a` is not. -/
def outranks (b a : BuiltinType) : Bool :=
  let x := b.info
  let y := a.info
  y.bits < x.bits ||
    (x.bits = y.bits &&
      ((x.flags.unsigned && !y.flags.unsigned) ||
        (x.flags.unsigned = y.flags.unsigned && x.flags.pointer && !y.flags.pointer)))

/-- The type both operands are converted to; nothing if the pair has none. -/
def promote (a b : BuiltinType) : Option BuiltinType :=
  if a = b then some a
  else if a.info.flags.noPromote || b.info.flags.noPromote then none
  else if a = .string || b = .string then some .string
  else if a.isSimd || b.isSimd then
    some (if a.info.components < b.info.components then b else a)
  else if a.isFloat && b.isFloat then some (if a.info.bits < b.info.bits then b else a)
  else if a.isFloat then some a
  else if b.isFloat then some b
  else if a.isNormalized || b.isNormalized then
    some (normalizedOf (max a.info.bits b.info.bits) (a.isSigned || b.isSigned))
  else some (if b.outranks a then b else a)

end BuiltinType

end BasicCompiler
