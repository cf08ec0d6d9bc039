/-
# Expressions that have values

A type is solid if it has values, and so have the elements if it is an array.
-/
import BasicCompiler.Proofs.Typed.Typing

namespace BasicCompiler

def Ty.IsSolid : Ty → Prop
  | .builtin t => t ≠ .void
  | .arrayOf elem => elem.IsSolid
  | .pointerTo _ | .user _ => True

instance Ty.decidableIsSolid : DecidablePred Ty.IsSolid
  | .builtin t => inferInstanceAs (Decidable (t ≠ .void))
  | .arrayOf elem => Ty.decidableIsSolid elem
  | .pointerTo _ | .user _ => inferInstanceAs (Decidable True)

theorem Ty.IsSolid.of_eq (solid : Ty.IsSolid ty) (same : ty' = ty) : ty'.IsSolid := by rwa [same]

theorem Ty.isSolid_bool : Ty.bool.IsSolid := by simp [Ty.IsSolid, Ty.bool]

theorem Ty.isSolid_string : Ty.string.IsSolid := by simp [Ty.IsSolid, Ty.string]

def Ty.IsResult (ty : Ty) : Prop := ty = .void ∨ ty.IsSolid

instance : DecidablePred Ty.IsResult := fun ty => inferInstanceAs (Decidable (ty = .void ∨ ty.IsSolid))

theorem Ty.isSolid_of_satisfies {ty : Ty} (h : ty.satisfies p = true) (void : p .void = false)
    (array : p .array = false) : ty.IsSolid := by
  cases ty with
  | builtin t =>
    rintro rfl
    simp [Ty.satisfies, Ty.builtin?, void] at h
  | arrayOf elem => simp [Ty.satisfies, Ty.builtin?, array] at h
  | _ => trivial

theorem BuiltinType.conversion_to_unpromoted {source target : BuiltinType}
    (unpromoted : target = .void ∨ target = .array) (ne : source ≠ target) :
    source.conversion target mode = .invalid := by
  unfold conversion
  rw [if_neg ne]
  rcases unpromoted with rfl | rfl <;> cases source <;> rfl

theorem Ty.isSolid_of_conversion {source target : Ty} (valid : (source.conversion target mode).isValid = true)
    (changes : source.conversion target mode ≠ .none) : target.IsSolid := by
  have unpromoted {t : BuiltinType} (isTarget : target.builtin? = some t)
      (special : t = .void ∨ t = .array) : False := by
    unfold Ty.conversion at valid changes
    split at valid
    · next same => exact changes (if_pos same)
    · split at valid
      · next atTarget =>
        rw [atTarget] at isTarget
        cases isTarget
        rcases special with h | h <;> cases h
      · next a b _ _ atTarget =>
        rw [isTarget] at atTarget
        cases atTarget
        split at valid
        · cases valid
        · next ne =>
          rw [BuiltinType.conversion_to_unpromoted special ne] at valid
          cases valid
      · cases valid
  cases target with
  | builtin t =>
    rintro rfl
    exact unpromoted rfl (.inl rfl)
  | arrayOf elem => exact (unpromoted rfl (.inr rfl)).elim
  | _ => trivial

namespace Typed

/-- Nothing that a body can refer to is without a value, calls apart. -/
structure Outlook.IsSolid (w : Outlook) : Prop where
  sees : ∀ id v, w.sees? id = some v → v.type.IsSolid
  members : ∀ id, ∀ m ∈ (w.types.get id).members, m.type.IsSolid
  result : ∀ callee ty, w.result? callee = some ty → ty.IsResult
  target : ∀ ty, w.target? = some ty → ty.IsSolid

theorem vectorOf?_ne_void {t r : BuiltinType} (simd : t.isSimd = true) (made : vectorOf? t.component count = some r) :
    r ≠ .void := by
  rintro rfl
  unfold vectorOf? at made
  split at made <;> cases t <;> simp_all [BuiltinType.component, BuiltinType.isSimd,
    BuiltinType.info, TypeInfo.scalar, TypeFlags.unpromoted, TypeFlags.plain]

theorem operandsAllowed_ne_void (allowed : operandsAllowed op t = true) : t ≠ .void := by
  rintro rfl
  cases op <;> cases allowed

theorem Before.isSolid (h : Before op ty) : ty.IsSolid := by
  obtain ⟨allowed, isNot⟩ := h
  cases op with
  | not =>
    rw [isNot rfl]
    exact Ty.isSolid_bool
  | neg =>
    rcases (Bool.or_eq_true _ _).mp allowed with numeric | simd
    · exact Ty.isSolid_of_satisfies numeric rfl rfl
    · exact Ty.isSolid_of_satisfies simd rfl rfl
  | bitNot => exact Ty.isSolid_of_satisfies allowed rfl rfl

theorem Between.isSolid (h : Between op operand result) : result.IsSolid := by
  unfold Between at h
  split at h
  · rw [h.2]
    exact Ty.isSolid_bool
  · obtain ⟨⟨t, rfl, allowed⟩, rfl⟩ := h
    split
    · exact Ty.isSolid_bool
    · exact operandsAllowed_ne_void allowed

theorem Const.HasType.isSolid {value : Const} (h : value.HasType ty) : ty.IsSolid := by
  cases value with
  | int n => exact Ty.isSolid_of_satisfies h.1 rfl rfl
  | float x =>
    obtain ⟨t, rfl, isFloat⟩ := h
    rintro rfl
    cases isFloat
  | bool b =>
    rw [h]
    exact Ty.isSolid_bool
  | str text =>
    rw [h]
    exact Ty.isSolid_string

theorem Expr.WellTyped.isSolid {w : Outlook} (solid : w.IsSolid) :
    (e : Expr) → e.WellTyped w →
      e.ty.IsSolid ∨ e.ty = .void ∧ ∃ info callee args, e = .call info callee args
  | .const info value, h => .inl (Const.HasType.isSolid h)
  | .var info id, h => by
    obtain ⟨v, found, same⟩ := h
    exact .inl ((solid.sees id v found).of_eq same)
  | .member info base place, h => by
    obtain ⟨-, id, m, -, found, same⟩ := h
    exact .inl ((solid.members id m (List.mem_of_getElem? found)).of_eq same)
  | .swizzle info base axes, h => by
    obtain ⟨-, t, r, isVector, -, made, same⟩ := h
    obtain ⟨-, simd⟩ := Option.filter_eq_some_iff.mp isVector
    have result : Ty.IsSolid (.builtin r) := vectorOf?_ne_void ((Bool.and_eq_true _ _).mp simd).1 made
    exact .inl (result.of_eq same)
  | .index info base place, h => by
    obtain ⟨typedBase, -, isArray, -⟩ := h
    rcases isSolid solid base typedBase with inside | ⟨void, -⟩
    · rw [isArray] at inside
      exact .inl inside
    · rw [isArray] at void
      cases void
  | .call info callee args, h => by
    obtain ⟨params, -, -, -, known⟩ := h
    rcases solid.result callee info.ty known with void | inside
    · exact .inr ⟨void, info, callee, args, rfl⟩
    · exact .inl inside
  | .construct info parts, h => by
    obtain ⟨t, same, simd, -⟩ := h
    refine .inl ?_
    change info.ty.IsSolid
    rw [same]
    rintro rfl
    cases simd
  | .unary info op operand, h => by
    obtain ⟨-, before, same⟩ := h
    exact .inl (before.isSolid.of_eq same)
  | .binary info op left right, h => .inl h.2.2.2.isSolid
  | .convert info conversion operand, h => by
    obtain ⟨-, changes, valid, mode, rfl⟩ := h
    exact .inl (Ty.isSolid_of_conversion valid changes)
  | .target info, h => .inl (solid.target info.ty h)

end Typed

end BasicCompiler
