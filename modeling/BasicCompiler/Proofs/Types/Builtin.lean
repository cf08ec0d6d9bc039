/-
# Facts about all the built-in types

There are finitely many built-in types, so a property that can be decided of each can be decided of all.
-/
import BasicCompiler.Types.Conversion

namespace BasicCompiler

namespace BuiltinType

theorem mem_all (t : BuiltinType) : t ∈ all := by
  cases t <;> decide

instance {P : BuiltinType → Prop} [DecidablePred P] : Decidable (∀ t, P t) :=
  decidable_of_iff (∀ t ∈ all, P t) ⟨fun each t => each t (mem_all t), fun each t _ => each t⟩

theorem component_ne_void : ∀ t : BuiltinType, t.isSimd = true → t.component ≠ .void := by
  decide

theorem conversion_of_void (mode : ConversionMode) (ne : .void ≠ target) :
    BuiltinType.void.conversion target mode = .invalid := by
  unfold conversion
  rw [if_neg ne]
  cases target <;> rfl

end BuiltinType

end BasicCompiler
