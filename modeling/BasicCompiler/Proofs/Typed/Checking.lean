/-
# Runs of checks

A check that is done in two steps succeeds where both do. A step that looks at the state leaves it as it is.
-/
import BasicCompiler.Proofs.Runs
import BasicCompiler.Typed.Checker.Program

namespace BasicCompiler

namespace Typed.Check

theorem bind_ok {f : α → Check β} {b : β} :
    (m >>= f) s = .ok (b, s') ↔ ∃ a s1, m s = .ok (a, s1) ∧ f a s1 = .ok (b, s') :=
  run_bind_ok

theorem pure_ok : (pure a : Check α) s = .ok (b, s') ↔ b = a ∧ s' = s := run_ok

theorem get_ok : (get : Check CheckState) s = .ok (t, s') ↔ t = s ∧ s' = s := pure_ok

theorem modify_ok : (modify f : Check Unit) s = .ok (u, s') ↔ s' = f s := run_unit_ok

theorem rule_ok : rule r s = .ok (a, s') ↔ r s.types = .ok a ∧ s' = s := by
  unfold rule
  cases r s.types with
  | error errors => exact ⟨fun run => (by cases run), fun h => (by cases h.1)⟩
  | ok b =>
    rw [Except.ok.injEq, Prod.mk.injEq, Except.ok.injEq]
    exact ⟨fun h => ⟨h.1, h.2.symm⟩, fun h => ⟨h.1, h.2.symm⟩⟩

end Typed.Check

end BasicCompiler
