/-
# Runs that succeed

Reading, checking and lowering carry a state and stop at the first fault.
-/
namespace BasicCompiler

theorem bind_ok_iff {x : Except ε α} {k : α → Except ε β} : x >>= k = .ok c ↔ ∃ a, x = .ok a ∧ k a = .ok c := by
  cases x with
  | error e | ok a => simp [bind, Except.bind]

theorem run_bind_ok {m : StateT σ (Except ε) α} {f : α → StateT σ (Except ε) β} :
    (m >>= f) s = .ok (b, s') ↔ ∃ a s1, m s = .ok (a, s1) ∧ f a s1 = .ok (b, s') := by
  change (m s >>= fun p => f p.1 p.2) = .ok (b, s') ↔ _
  rw [bind_ok_iff]
  exact Prod.exists

theorem run_ok : (Except.ok (a, s) : Except ε (α × σ)) = .ok (b, s') ↔ b = a ∧ s' = s := by
  rw [Except.ok.injEq, Prod.mk.injEq]
  exact ⟨fun h => ⟨h.1.symm, h.2.symm⟩, fun h => ⟨h.1.symm, h.2.symm⟩⟩

theorem run_unit_ok : (Except.ok ((), s) : Except ε (Unit × σ)) = .ok (u, s') ↔ s' = s :=
  run_ok.trans ⟨And.right, fun h => ⟨rfl, h⟩⟩

end BasicCompiler
