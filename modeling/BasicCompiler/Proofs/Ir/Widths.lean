/-
# Widths of types and conversions between them

How wide a pointer is depends on the target, and so does what conversions that keep the bits, and those between
pointers and integers, lead between.
-/
import BasicCompiler.Lowering.Types
import BasicCompiler.Proofs.Ir.Typing

namespace BasicCompiler.Ir

variable {kind : Cast}

/-- Number of bits on a target; aggregates are not measured. -/
def Ty.widthOn? (w : PointerWidth) : Ty → Option Nat
  | .bool => some 1
  | .i8 => some 8
  | .i16 | .f16 => some 16
  | .i32 | .f32 => some 32
  | .i64 | .f64 => some 64
  | .ptr _ => some w.bits
  | .vector elem count => (elem.widthOn? w).map (· * count)
  | .void | .array _ _ | .struct _ => none

namespace Cast

/-- Whether a conversion leads from one type to another on a target: bits are kept between
types of the same width only, integers are extended to wider ones and cut to narrower
ones, and a pointer is as wide as the integer that it is converted to. -/
def fitsOn (w : PointerWidth) (kind : Cast) (source target : Ty) : Bool :=
  match kind with
  | .bitcast => (source.widthOn? w).isSome && source.widthOn? w = target.widthOn? w
  | .ptrtoint => source.isPtr && target = Lowering.pointerInt w
  | .inttoptr => source = Lowering.pointerInt w && target.isPtr
  | kind => kind.takes source target

/-- Whether the bits of an integer of 64 bits are taken for those of one as wide as a pointer,
or the other way, though pointers have 32 bits. -/
def confuses (w : PointerWidth) (kind : Cast) (source target : Ty) : Bool :=
  w = .bits32 && kind = .bitcast && ((source = .i64 && target = .i32) || (source = .i32 && target = .i64))

def leads (w : PointerWidth) (kind : Cast) (source target : Ty) : Bool :=
  kind.fitsOn w source target || kind.confuses w source target

theorem leads_pointers (w : PointerWidth) (a b : Ty) : Cast.bitcast.leads w (.ptr a) (.ptr b) = true := by
  cases w <;> rfl

end Cast

theorem Ty.widthOn_bits64 (t : Ty) : t.widthOn? .bits64 = t.width? := by
  induction t using Ty.width?.induct <;> simp_all [Ty.widthOn?, Ty.width?, PointerWidth.bits, PointerWidth.bytes]

theorem Cast.takes_of_leads (h : kind.leads .bits64 source target = true) : kind.takes source target = true := by
  have fits : kind.fitsOn .bits64 source target = true := by simpa [leads, confuses] using h
  unfold fitsOn at fits
  split at fits
  · rw [Ty.widthOn_bits64, Ty.widthOn_bits64] at fits
    exact fits
  · exact fits
  · exact fits
  · exact fits

end BasicCompiler.Ir
