/-
# Well-typed modules

A register has no type of its own: the instruction that fills it determines what it holds, from the types of its
operands and from what the module declares.
-/
import BasicCompiler.Ir.Module
import Mathlib.Data.List.Forall2

namespace BasicCompiler.Ir

/-! ## What operations take -/

namespace Ty

def isInt : Ty → Bool
  | .bool | .i8 | .i16 | .i32 | .i64 => true
  | _ => false

def lanes? : Ty → Option Nat
  | .vector _ count => some count
  | _ => none

def width? : Ty → Option Nat
  | .bool => some 1
  | .i8 => some 8
  | .i16 | .f16 => some 16
  | .i32 | .f32 => some 32
  | .i64 | .f64 | .ptr _ => some 64
  | .vector elem count => elem.width?.map (· * count)
  | .void | .array _ _ | .struct _ => none

end Ty

def BinaryOpcode.isFloat : BinaryOpcode → Bool
  | .fadd | .fsub | .fmul | .fdiv | .frem => true
  | _ => false

def BinaryOpcode.takes (opcode : BinaryOpcode) (t : Ty) : Bool :=
  if opcode.isFloat then t.scalar.isFloat else t.scalar.isInt

def UnaryOpcode.takes : UnaryOpcode → Ty → Bool
  | .fneg, t => t.scalar.isFloat
  | .neg, t | .not, t => t.scalar.isInt

/-- Whether a conversion leads from one type to another. Vectors are converted lane by
lane. -/
def Cast.takes (kind : Cast) (source target : Ty) : Bool :=
  match kind with
  | .sext | .zext =>
      source.scalar.isInt && target.scalar.isInt && source.lanes? = target.lanes? &&
        source.intBits < target.intBits
  | .trunc =>
      source.scalar.isInt && target.scalar.isInt && source.lanes? = target.lanes? &&
        target.intBits < source.intBits
  | .fptosi | .fptoui => source.scalar.isFloat && target.scalar.isInt && source.lanes? = target.lanes?
  | .sitofp | .uitofp => source.scalar.isInt && target.scalar.isFloat && source.lanes? = target.lanes?
  | .fpcast =>
      source.scalar.isFloat && target.scalar.isFloat && source.lanes? = target.lanes? &&
        source != target
  | .ptrtoint => source.isPtr && target = .i64
  | .inttoptr => source = .i64 && target.isPtr
  | .bitcast => source.width?.isSome && source.width? = target.width?

def Constant.fits : Constant → Ty → Bool
  | .int _, t => t.isInt && t != .bool
  | .float _, t => t.isFloat
  | .bool _, t => t = .bool
  | .null, t => t.isPtr
  | .zero, _ => true
  | .str text, t => t = .array .i8 (text.utf8ByteSize + 1)

/-! ## What a module declares -/

structure Signature where
  params : List Ty
  isVararg : Bool
  result : Ty

def Function.signature : Function → Signature
  | .external _ params isVararg result => ⟨params, isVararg, result⟩
  | .defined _ params result _ => ⟨params.map (·.2), false, result⟩

/-- The type of the address of a global. An array is found at its first element. -/
def Global.address (g : Global) : Ty :=
  match g.type with
  | .array elem _ => .ptr elem
  | type => .ptr type

/-- What code is held to: the signatures that a name can be called with, and the types that a
conversion leads between. -/
structure Rules where
  signature : String → Signature → Prop
  takes : Cast → Ty → Ty → Bool

/-- The rules, and what the code of a function can refer to by name. -/
structure Linkage where
  rules : Rules
  address? : String → Option Ty

def Module.signature? (m : Module) (name : String) : Option Signature :=
  (m.functions.find? (·.name = name)).map (·.signature)

def Module.address? (m : Module) (name : String) : Option Ty := (m.globals.find? (·.name = name)).map (·.address)

def Module.linkage (m : Module) : Linkage := ⟨⟨fun name sig => m.signature? name = some sig, Cast.takes⟩, m.address?⟩

/-! ## The judgement -/

/-- The types of registers, by their numbers. -/
abbrev Types := List Ty

/-- The register holds values of the type. -/
def Types.Has (types : Types) (r : Reg) (t : Ty) : Prop := types[r]? = some t

/-- The arguments are those that the parameters ask for; only where the signature says so
more of them may follow. -/
def Signature.Accepts (sig : Signature) (types : Types) (args : List Reg) : Prop :=
  ∃ front extra, args = front ++ extra ∧ List.Forall₂ types.Has front sig.params ∧ (extra ≠ [] → sig.isVararg = true)

/-- The operation has what it needs, and gives a value of the type; one that gives nothing
is of the type `void`. -/
inductive Op.HasType (l : Linkage) (types : Types) : Op → Ty → Prop
  | const {value : Constant} {t : Ty} : value.fits t = true → HasType l types (.const value t) t
  | binary {opcode : BinaryOpcode} {left right : Reg} {t : Ty} : types.Has left t →
      types.Has right t → opcode.takes t = true → HasType l types (.binary opcode left right) t
  | unary {opcode : UnaryOpcode} {operand : Reg} {t : Ty} : types.Has operand t →
      opcode.takes t = true → HasType l types (.unary opcode operand) t
  | icmp {predicate : Predicate} {left right : Reg} {t : Ty} : types.Has left t →
      types.Has right t → t.isInt = true → HasType l types (.icmp predicate left right) .bool
  | fcmp {predicate : Predicate} {left right : Reg} {t : Ty} : types.Has left t →
      types.Has right t → t.isFloat = true → HasType l types (.fcmp predicate left right) .bool
  | cast {kind : Cast} {operand : Reg} {source target : Ty} : types.Has operand source →
      l.rules.takes kind source target = true → HasType l types (.cast kind operand target) target
  | splat {scalar : Reg} {elem : Ty} {count : Nat} : types.Has scalar elem →
      HasType l types (.splat scalar (.vector elem count)) (.vector elem count)
  | vector {lanes : List Reg} {elem : Ty} : (∀ r ∈ lanes, types.Has r elem) →
      HasType l types (.vector lanes (.vector elem lanes.length)) (.vector elem lanes.length)
  | extract {vector : Reg} {elem : Ty} {count lane : Nat} : types.Has vector (.vector elem count) →
      lane < count → HasType l types (.extract vector lane) elem
  | insert {vector value : Reg} {elem : Ty} {count lane : Nat} :
      types.Has vector (.vector elem count) → types.Has value elem → lane < count →
      HasType l types (.insert vector value lane) (.vector elem count)
  | shuffle {vector : Reg} {elem : Ty} {count : Nat} {lanes : List Nat} :
      types.Has vector (.vector elem count) → (∀ lane ∈ lanes, lane < count) →
      HasType l types (.shuffle vector lanes) (.vector elem lanes.length)
  | alloca {t : Ty} : HasType l types (.alloca t) (.ptr t)
  | load {address : Reg} {t : Ty} : types.Has address (.ptr t) → HasType l types (.load address t) t
  | store {address value : Reg} {t : Ty} : types.Has address (.ptr t) → types.Has value t →
      HasType l types (.store address value) .void
  | field {address : Reg} {fields : List Ty} {index : Nat} {t : Ty} :
      types.Has address (.ptr (.struct fields)) → fields[index]? = some t →
      HasType l types (.field address index) (.ptr t)
  | global {name : String} {t : Ty} : l.address? name = some t → HasType l types (.global name) t
  | call {callee : String} {args : List Reg} {sig : Signature} : l.rules.signature callee sig →
      sig.Accepts types args → HasType l types (.call callee args) sig.result

def Op.isCall : Op → Bool
  | .call _ _ => true
  | _ => false

/-- The register that the result goes to, if there is one, holds it. A call has a result
unless the callee gives nothing. -/
def Instr.Fills (types : Types) (i : Instr) (t : Ty) : Prop :=
  match i.result with
  | some r => types.Has r t ∧ (i.op.isCall = true → t ≠ .void)
  | none => t = .void

def Instr.WellTyped (l : Linkage) (types : Types) (i : Instr) : Prop := ∃ t, i.op.HasType l types t ∧ i.Fills types t

/-- A function returns what it declares. -/
def Terminator.WellTyped (types : Types) (result : Ty) : Terminator → Prop
  | .ret (some r) => types.Has r result ∧ result ≠ .void
  | .ret none => result = .void
  | .condBr cond _ _ => types.Has cond .bool
  | .br _ | .unreachable => True

structure Block.WellTyped (l : Linkage) (types : Types) (result : Ty) (b : Block) : Prop where
  instrs : ∀ i ∈ b.instrs, i.WellTyped l types
  terminator : ∀ t ∈ b.terminator, t.WellTyped types result

def Function.WellTyped (l : Linkage) : Function → Prop
  | .external _ _ _ _ => True
  | .defined _ params result blocks =>
      ∃ types : Types, (∀ p ∈ params, types.Has p.1 p.2) ∧ ∀ b ∈ blocks, b.WellTyped l types result

def Module.WellTyped (m : Module) : Prop := ∀ f ∈ m.functions, f.WellTyped m.linkage

/-! ## Arguments -/

theorem Signature.Accepts.of_all {params : List Ty} {isVararg : Bool} {result : Ty}
    (passed : List.Forall₂ types.Has args params) : (Signature.mk params isVararg result).Accepts types args :=
  ⟨args, [], (List.append_nil _).symm, passed, fun extra => absurd rfl extra⟩

theorem Signature.Accepts.cons {params : List Ty} {isVararg : Bool} {result t : Ty}
    (h : (Signature.mk params isVararg result).Accepts types args) (first : types.Has r t) :
    (Signature.mk (t :: params) isVararg result).Accepts types (r :: args) := by
  obtain ⟨front, extra, rfl, passed, vararg⟩ := h
  exact ⟨r :: front, extra, rfl, .cons first passed, vararg⟩

/-! ## More registers and more names -/

/-- The rules are the same, and whatever the first names, the second names with the same
type. -/
structure Linkage.Le (l l' : Linkage) : Prop where
  rules : l'.rules = l.rules
  address : ∀ name t, l.address? name = some t → l'.address? name = some t

section Mono

variable {types types' : Types}

theorem Linkage.Le.refl (l : Linkage) : l.Le l := ⟨rfl, fun _ _ h => h⟩

theorem Types.Has.mono (h : types.Has r t) (more : types <+: types') : types'.Has r t := by
  obtain ⟨new, rfl⟩ := more
  exact (List.getElem?_append_left (List.getElem?_eq_some_iff.mp h).1).trans h

theorem Signature.Accepts.mono {sig : Signature} (h : sig.Accepts types args) (more : types <+: types') :
    sig.Accepts types' args := by
  obtain ⟨front, extra, split, passed, vararg⟩ := h
  exact ⟨front, extra, split, passed.imp fun _ _ has => has.mono more, vararg⟩

theorem Op.HasType.mono {op : Op} (h : op.HasType l types t) (le : l.Le l') (more : types <+: types') :
    op.HasType l' types' t := by
  cases h with
  | const fits => exact .const fits
  | binary left right takes => exact .binary (left.mono more) (right.mono more) takes
  | unary operand takes => exact .unary (operand.mono more) takes
  | icmp left right int => exact .icmp (left.mono more) (right.mono more) int
  | fcmp left right float => exact .fcmp (left.mono more) (right.mono more) float
  | cast operand takes => exact .cast (operand.mono more) (by rwa [le.rules])
  | splat scalar => exact .splat (scalar.mono more)
  | vector lanes => exact .vector fun r mem => (lanes r mem).mono more
  | extract vector below => exact .extract (vector.mono more) below
  | insert vector value below => exact .insert (vector.mono more) (value.mono more) below
  | shuffle vector below => exact .shuffle (vector.mono more) below
  | alloca => exact .alloca
  | load address => exact .load (address.mono more)
  | store address value => exact .store (address.mono more) (value.mono more)
  | field address found => exact .field (address.mono more) found
  | global found => exact .global (le.address _ _ found)
  | call found accepts => exact .call (by rwa [le.rules]) (accepts.mono more)

theorem Instr.WellTyped.mono {i : Instr} (h : i.WellTyped l types) (le : l.Le l')
    (more : types <+: types') : i.WellTyped l' types' := by
  obtain ⟨t, typed, fills⟩ := h
  refine ⟨t, typed.mono le more, ?_⟩
  unfold Fills at fills ⊢
  split
  next r result =>
    rw [result] at fills
    exact ⟨fills.1.mono more, fills.2⟩
  next result =>
    rw [result] at fills
    exact fills

theorem Terminator.WellTyped.mono {term : Terminator} (h : term.WellTyped types result) (more : types <+: types') :
    term.WellTyped types' result := by
  cases term with
  | ret value =>
    cases value with
    | none => exact h
    | some r => exact ⟨h.1.mono more, h.2⟩
  | br target => trivial
  | condBr cond onTrue onFalse => exact Types.Has.mono h more
  | unreachable => trivial

end Mono

end BasicCompiler.Ir
