/-
# How declared types lie in memory

Members lie in order, each at the next offset that suits it: a multiple of its natural alignment or of the member
alignment of the target, whichever is smaller. Sizes and offsets are words of 64 bits, whatever the target is, and
their sums wrap.
-/
import BasicCompiler.Types.Ty

namespace BasicCompiler

/-- The operations on a type that take no runtime call. -/
structure Trivial where
  init : Bool
  fini : Bool
  copy : Bool
  move : Bool
deriving DecidableEq

namespace Trivial

def all : Trivial := ⟨true, true, true, true⟩

/-- What holds of a handle that owns what it refers to. -/
def handle : Trivial := ⟨true, false, false, true⟩

def inter (a b : Trivial) : Trivial :=
  ⟨a.init && b.init, a.fini && b.fini, a.copy && b.copy, a.move && b.move⟩

def toBits (t : Trivial) : Nat :=
  t.init.toNat + 2 * t.fini.toNat + 4 * t.copy.toNat + 8 * t.move.toNat

end Trivial

/-- A placed member. `size` is that of its type when it was placed. -/
structure Member where
  name : String
  type : Ty
  size : Nat
  offset : Nat

structure UserType where
  name : String
  members : List Member
  size : Nat
  align : Nat
  trivial : Trivial
  isLaidOut : Bool

namespace UserType

def declared (name : String) : UserType := ⟨name, [], 0, 1, Trivial.all, false⟩

def member? (t : UserType) (name : String) : Option (Nat × Member) :=
  match t.members.findIdx? fun m => sameName m.name name with
  | some index => t.members[index]?.map fun m => (index, m)
  | none => none

end UserType

/-- The declared types of a program and the target they are laid out for. -/
structure TypeTable where
  pointer : PointerWidth
  memberAlign : Nat
  user : List UserType

/-- What a word of 64 bits keeps of a sum. -/
def wrap (n : Nat) : Nat := n % UInt64.size

/-- The least multiple of `align` that is not below `n`, if no sum wraps on the way. -/
def roundUp (n align : Nat) : Nat := wrap (n + align - 1) / align * align

namespace TypeTable

/-- A table without types. Members are aligned to one byte at least. -/
def empty (pointer : PointerWidth) (memberAlign : Nat) : TypeTable :=
  ⟨pointer, max 1 memberAlign, []⟩

def get (t : TypeTable) (id : UserTypeId) : UserType := t.user.getD id (UserType.declared "")

def declare (t : TypeTable) (name : String) : UserTypeId × TypeTable :=
  (t.user.length, { t with user := t.user ++ [UserType.declared name] })

def sizeOf (t : TypeTable) : Ty → Nat
  | .user id => (t.get id).size
  | .builtin b => b.size t.pointer
  | .arrayOf _ => BuiltinType.array.size t.pointer
  | .pointerTo _ => BuiltinType.pointer.size t.pointer

def alignOf (t : TypeTable) : Ty → Nat
  | .user id => (t.get id).align
  | .builtin b => b.align t.pointer
  | .arrayOf _ => BuiltinType.array.align t.pointer
  | .pointerTo _ => BuiltinType.pointer.align t.pointer

def trivialOf (t : TypeTable) : Ty → Trivial
  | .user id => (t.get id).trivial
  | .builtin .string | .builtin .array | .arrayOf _ => Trivial.handle
  | .builtin _ | .pointerTo _ => Trivial.all

/-- Whether values of the type own something that must be released. -/
def needsFini (t : TypeTable) (ty : Ty) : Bool := !(t.trivialOf ty).fini

def nameOf (t : TypeTable) : Ty → String
  | .builtin b => b.name
  | .arrayOf elem => t.nameOf elem ++ "[]"
  | .pointerTo elem => "pointer to " ++ t.nameOf elem
  | .user id => (t.get id).name

/-- The members placed so far and what follows from them. -/
structure Placement where
  members : List Member
  /-- The end of the last member. -/
  bound : Nat
  align : Nat
  trivial : Trivial

namespace Placement

def start : Placement := ⟨[], 0, 1, Trivial.all⟩

end Placement

def memberAlignOf (t : TypeTable) (ty : Ty) : Nat := min (t.alignOf ty) t.memberAlign

def place (t : TypeTable) (p : Placement) (field : String × Ty) : Placement :=
  let (name, ty) := field
  let align := t.memberAlignOf ty
  let offset := roundUp p.bound align
  let size := t.sizeOf ty
  { members := p.members ++ [⟨name, ty, size, offset⟩]
    bound := wrap (offset + size)
    align := max p.align align
    trivial := p.trivial.inter (t.trivialOf ty) }

def placeAll (t : TypeTable) (fields : List (String × Ty)) : Placement :=
  fields.foldl t.place Placement.start

def layout (t : TypeTable) (id : UserTypeId) (fields : List (String × Ty)) : TypeTable :=
  let p := t.placeAll fields
  { t with
    user := t.user.modify id fun u =>
      { u with
        members := p.members
        size := roundUp p.bound p.align
        align := p.align
        trivial := p.trivial
        isLaidOut := true } }

end TypeTable

end BasicCompiler
