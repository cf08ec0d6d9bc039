/-
# Source types as they are represented

The type of a declared type is the structure of its members' types: no type embeds itself, so the bound on the nesting
is never reached.
-/
import BasicCompiler.Lowering.Expr
import BasicCompiler.Proofs.Ir.Widths
import BasicCompiler.Proofs.Typed.Declared
import BasicCompiler.Proofs.Types.Builtin
import Mathlib.Data.List.Perm.Subperm

namespace BasicCompiler

open List Option

variable {ty : Ty}

theorem Ty.eq_builtin (isBuiltin : ty.builtin? = some t) (notArray : t ≠ .array)
    (notPointer : t ≠ .pointer) : ty = .builtin t := by
  cases ty with
  | builtin t' => exact congrArg Ty.builtin (some.inj isBuiltin)
  | arrayOf elem => exact absurd (some.inj isBuiltin).symm notArray
  | pointerTo elem => exact absurd (some.inj isBuiltin).symm notPointer
  | user id => cases isBuiltin

namespace TypeTable

variable {t : TypeTable} {id : UserTypeId}

theorem get_of_le (past : t.user.length ≤ id) : t.get id = UserType.declared "" := by
  rw [get, getD_eq_getElem?_getD, getElem?_eq_none past]
  rfl

theorem IsNested.ranked (nested : t.IsNested) : ∃ rank : UserTypeId → Nat,
    (∀ id < t.user.length, rank id < t.user.length) ∧
      ∀ id, ∀ m ∈ (t.get id).members, ∀ j, m.type = .user j → j < t.user.length → rank j < rank id := by
  obtain ⟨order, nodup, laid, embeds, -⟩ := nested
  have bounded : ∀ id ∈ order, id < t.user.length := by
    intro id mem
    by_contra past
    have isLaid := (laid id).mp mem
    rw [get_of_le (Nat.not_lt.mp past)] at isLaid
    cases isLaid
  have short : order.length ≤ t.user.length := by
    have sub : order ⊆ range t.user.length := fun id mem => mem_range.mpr (bounded id mem)
    have count := (subperm_of_subset nodup sub).length_le
    rwa [length_range] at count
  refine ⟨fun id => if id ∈ order then order.idxOf id else 0, fun id below => ?_, fun id m mem j isUser below => ?_⟩
  · dsimp only
    split
    · next mem => exact Nat.lt_of_lt_of_le (idxOf_lt_length_of_mem mem) short
    · exact Nat.lt_of_le_of_lt (Nat.zero_le _) below
  · obtain ⟨before, behind, rfl, earlier⟩ := embeds id m mem j isUser below
    have apart : id ∉ before := fun inside => (nodup_append.mp nodup).2.2 id inside id mem_cons_self rfl
    dsimp only
    rw [if_pos (mem_append_left _ earlier), if_pos (mem_append_right _ mem_cons_self),
      idxOf_append_of_mem earlier, idxOf_append_of_notMem apart, idxOf_cons_self, Nat.add_zero]
    exact idxOf_lt_length_of_mem earlier

end TypeTable

namespace Lowering

open Typed

/-! ## Declared types -/

theorem irTypeWithin_of_le {id : UserTypeId} (past : types.user.length ≤ id) (depth : Nat) :
    irTypeWithin types depth (.user id) = .struct [] := by
  cases depth <;> simp [irTypeWithin, TypeTable.get_of_le past, UserType.declared]

theorem irTypeWithin_congr (same : ∀ j, ty = .user j → j < types.user.length →
    irTypeWithin types d (.user j) = irTypeWithin types e (.user j)) : irTypeWithin types d ty = irTypeWithin types e ty := by
  cases ty with
  | user j =>
    by_cases inside : j < types.user.length
    · exact same j rfl inside
    · rw [irTypeWithin_of_le (Nat.not_lt.mp inside), irTypeWithin_of_le (Nat.not_lt.mp inside)]
  | _ => simp only [irTypeWithin]

theorem irTypeWithin_stable {rank : UserTypeId → Nat}
    (lower : ∀ id, ∀ m ∈ (types.get id).members, ∀ j, m.type = .user j → j < types.user.length → rank j < rank id)
    (d : Nat) : ∀ e id, rank id < d → rank id < e →
      irTypeWithin types d (.user id) = irTypeWithin types e (.user id) := by
  induction d with
  | zero => exact fun e id below => absurd below (Nat.not_lt_zero _)
  | succ d ih =>
    intro e id below below'
    obtain ⟨e, rfl⟩ := Nat.exists_eq_add_one.mpr (Nat.zero_lt_of_lt below')
    refine congrArg Ir.Ty.struct (map_congr_left fun m mem => irTypeWithin_congr fun j embedded inside => ?_)
    have less := lower id m mem j embedded inside
    exact ih e j (by omega) (by omega)

theorem irType_user (nested : types.IsNested) (id : UserTypeId) :
    irType types (.user id) = .struct ((types.get id).members.map fun m => irType types m.type) := by
  obtain ⟨rank, most, lower⟩ := nested.ranked
  by_cases declared : id < types.user.length
  · unfold irType
    obtain ⟨n, depth⟩ := Nat.exists_eq_add_one.mpr (Nat.zero_lt_of_lt declared)
    have bound := most id declared
    rw [depth, irTypeWithin]
    refine congrArg Ir.Ty.struct (map_congr_left fun m mem => irTypeWithin_congr fun j embedded inside => ?_)
    have less := lower id m mem j embedded inside
    exact irTypeWithin_stable lower n _ j (by omega) (by omega)
  · rw [irType, irTypeWithin_of_le (Nat.not_lt.mp declared), TypeTable.get_of_le (Nat.not_lt.mp declared)]
    rfl

/-! ## Built-in types -/

theorem irType_of_builtin (isBuiltin : ty.builtin? = some t) : irType types ty = builtinType types.pointer t := by
  unfold irType
  cases ty with
  | builtin t' =>
    cases isBuiltin
    rw [irTypeWithin]
  | arrayOf elem | pointerTo elem =>
    cases isBuiltin
    rw [irTypeWithin]
    rfl
  | user id => cases isBuiltin

theorem builtinType_ne_void : ∀ t : BuiltinType, t ≠ .void → builtinType w t ≠ .void := by
  cases w <;> decide

theorem irType_ne_void (notVoid : ty.isVoid = false) : irType types ty ≠ .void := by
  cases ty with
  | builtin t =>
    rw [irType_of_builtin rfl]
    refine builtinType_ne_void t ?_
    rintro rfl
    cases notVoid
  | arrayOf elem =>
    rw [irType_of_builtin rfl]
    exact builtinType_ne_void .array (by decide)
  | pointerTo elem =>
    rw [irType_of_builtin rfl]
    exact builtinType_ne_void .pointer (by decide)
  | user id =>
    unfold irType
    cases types.user.length <;> simp [irTypeWithin]

theorem irType_void : irType types .void = .void := irType_of_builtin (t := .void) rfl

theorem irType_bool : irType types .bool = .bool := irType_of_builtin (t := .bool) rfl

theorem irType_int32 : irType types .int32 = .i32 := irType_of_builtin (t := .int32) rfl

theorem irType_string : irType types .string = .handle := irType_of_builtin (t := .string) rfl

theorem irType_arrayOf (elem : Ty) : irType types (.arrayOf elem) = .handle := irType_of_builtin (t := .array) rfl

theorem irType_of_isString (isString : ty.isString = true) : irType types ty = .handle := by
  rw [of_decide_eq_true isString]
  exact irType_string

theorem irType_of_isArray (isArray : ty.isArray = true) : irType types ty = .handle := by
  obtain ⟨t, isBuiltin, same⟩ := (any_eq_true _ _).mp isArray
  rw [irType_of_builtin isBuiltin, of_decide_eq_true same]
  rfl

/-! ## Scalars -/

def IsScalar (ty : Ty) (t : Ir.Ty) : Prop := if ty.isFloat then t.isFloat = true else t.isInt = true

instance (ty : Ty) (t : Ir.Ty) : Decidable (IsScalar ty t) :=
  inferInstanceAs (Decidable (if ty.isFloat then t.isFloat = true else t.isInt = true))

theorem isFloat_of_builtin (isBuiltin : ty.builtin? = some t) : ty.isFloat = (Ty.builtin t).isFloat := by
  unfold Ty.isFloat Ty.component?
  rw [isBuiltin]
  rfl

theorem isSigned_of_builtin (isBuiltin : ty.builtin? = some t) : ty.isSigned = (Ty.builtin t).isSigned := by
  unfold Ty.isSigned Ty.component?
  rw [isBuiltin]
  rfl

theorem builtinType_of_isNumeric : ∀ t : BuiltinType, t.isNumeric = true →
    builtinType w t ≠ .bool ∧ IsScalar (.builtin t) (builtinType w t) := by
  cases w <;> decide

theorem builtinType_of_isInteger : ∀ t : BuiltinType, t.isInteger = true → t ≠ .bool →
    ((builtinType w t).isInt && builtinType w t != .bool) = true := by
  cases w <;> decide

theorem builtinType_of_isFloat : ∀ t : BuiltinType, t.isFloat = true → (builtinType w t).isFloat = true := by
  cases w <;> decide

theorem builtinType_of_operandsAllowed (op : BinaryOp) : ∀ t : BuiltinType, operandsAllowed op t = true →
    if op.isComparison then Check.isSelectable (.builtin t) = true
    else if (Ty.builtin t).isString then op = .add
    else if op = .pow then t.isNumeric = true
    else op.isLogical = true ∨ (opcode op (.builtin t)).takes (builtinType w t) = true := by
  cases w <;> cases op <;> decide

/-- A conversion between two representations, where there is anything to convert. -/
def carries (w : PointerWidth) (kind : Option Ir.Cast) (source target : Ir.Ty) : Bool :=
  match kind with
  | none => source = target
  | some kind => kind.leads w source target

theorem carries_power : ∀ t : BuiltinType, t.isNumeric = true →
    carries w (resizeCast? (builtinType w t) (Lower.powerFunction (.builtin t)).1 (Ty.builtin t).isSigned)
        (builtinType w t) (Lower.powerFunction (.builtin t)).1 = true ∧
      carries w (resizeCast? (Lower.powerFunction (.builtin t)).1 (builtinType w t) (Ty.builtin t).isSigned)
        (Lower.powerFunction (.builtin t)).1 (builtinType w t) = true := by
  cases w <;> decide

theorem unary_takes : ∀ t : BuiltinType, (t.isNumeric || t.isSimd) = true →
    (if (Ty.builtin t).isFloat then Ir.UnaryOpcode.fneg else .neg).takes (builtinType w t) = true := by
  cases w <;> decide

theorem not_takes : ∀ t : BuiltinType, t.isInteger = true → Ir.UnaryOpcode.not.takes (builtinType w t) = true := by
  cases w <;> decide

/-! ## Conversions -/

def bareTable (w : PointerWidth) : TypeTable := .empty w 1

theorem numericCast_of_builtin (isSource : source.builtin? = some a) (isTarget : target.builtin? = some b) :
    numericCast? types source target = numericCast? (bareTable types.pointer) (.builtin a) (.builtin b) := by
  unfold numericCast?
  rw [isFloat_of_builtin isSource, isFloat_of_builtin isTarget, isSigned_of_builtin isSource,
    isSigned_of_builtin isTarget, irType_of_builtin isSource, irType_of_builtin isTarget,
    irType_of_builtin (t := a) rfl, irType_of_builtin (t := b) rfl]
  rfl

def conversionFits (w : PointerWidth) (conversion : Conversion) (a b : BuiltinType) : Bool :=
  match conversion with
  | .none | .invalid => true
  | .toString => b = .string && (a = .bool || a.isNumeric)
  | .toBool => b = .bool && decide (IsScalar (.builtin a) (builtinType w a))
  | .splat =>
      carries w (numericCast? (bareTable w) (.builtin a) (.builtin b.component)) (builtinType w a)
          (builtinType w b.component) &&
        builtinType w b = .vector (builtinType w b.component) b.info.components
  | .reinterpret => carries w (reinterpretCast? (builtinType w a) (builtinType w b)) (builtinType w a) (builtinType w b)
  | .extend | .truncate | .intToFloat | .floatToInt =>
      carries w (numericCast? (bareTable w) (.builtin a) (.builtin b)) (builtinType w a) (builtinType w b)

theorem conversion_fits (mode : ConversionMode) : ∀ a b : BuiltinType,
    conversionFits w (a.conversion b mode) a b = true := by
  cases w <;> cases mode <;> decide +kernel

theorem conversionFits_of_converts (h : Converts conversion source target) :
    ∃ a b, source.builtin? = some a ∧
      target.builtin? = some b ∧ conversionFits w conversion a b = true := by
  obtain ⟨changes, valid, mode, rfl⟩ := h
  unfold Ty.conversion at changes valid ⊢
  split at valid
  next same => exact absurd (if_pos same) changes
  next differ =>
    rw [if_neg differ]
    split at valid
    next isSource isTarget =>
      rw [isSource, isTarget]
      exact ⟨_, _, rfl, rfl, by cases w <;> decide⟩
    next a b _ isSource isTarget =>
      refine ⟨a, b, isSource, isTarget, ?_⟩
      split
      · rfl
      · exact conversion_fits mode a b
    · cases valid

theorem carries_toText : ∀ t : BuiltinType, t.isNumeric = true →
    if (Ty.builtin t).isFloat then carries w (resizeCast? (builtinType w t) .f64 true) (builtinType w t) .f64 = true
    else carries w (resizeCast? (builtinType w t) .i64 (Ty.builtin t).isSigned) (builtinType w t) .i64 = true := by
  cases w <;> decide

end Lowering

end BasicCompiler
