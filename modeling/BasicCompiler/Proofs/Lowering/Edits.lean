/-
# What every piece of the lowering keeps

Whatever is lowered, the state is only edited in a few ways.
-/
import BasicCompiler.Proofs.Lowering.Straight
import BasicCompiler.Proofs.Lowering.Woven

namespace BasicCompiler.Lowering

open Lower

inductive Edits : LowerState → LowerState → Prop where
  | refl (s : LowerState) : Edits s s
  | trans {s s₁ s₂ : LowerState} : Edits s s₁ → Edits s₁ s₂ → Edits s s₂
  | step {s : LowerState} (st : Step) : st.NoSlot → Edits s (st.play s)
  | createBlock {s : LowerState} (label : String) : Edits s (s.edit fun b => (b.createBlock label).2)
  | setBlock {s : LowerState} (id : Ir.BlockId) : Edits s (s.edit (·.setBlock id))
  | terminate {s : LowerState} (t : Ir.Terminator) : Edits s (s.edit (·.terminate t))
  | tidied {s : LowerState} {step : CleanupStack → CleanupStack} : (∀ c, (step c).frames = c.frames) →
      Edits s (s.tidy step)
  | framed {s s₁ : LowerState} : Edits (s.tidy (·.pushFrame)) s₁ → Edits s (s₁.tidy fun c => c.popFrame.2)

namespace Edits

theorem advances (h : Edits s s') : s.builder.Advances s'.builder := by
  induction h with
  | refl s => exact .refl _
  | trans _ _ first second => exact first.trans second
  | step st noSlot => exact st.play_advances noSlot
  | createBlock label => exact Ir.Builder.advances_createBlock label
  | setBlock id => exact Ir.Builder.advances_setBlock id
  | terminate t => exact Ir.Builder.advances_terminate t
  | tidied _ => exact .refl _
  | framed _ inside => exact inside

theorem frames_register {stack : CleanupStack} (same : stack.frames = top :: rest) :
    (stack.register c).frames = (c :: top) :: rest := by
  rw [CleanupStack.register, same]

/-- Only the innermost frame is changed, and only by notes that are added to it. -/
theorem frames (h : Edits s s') {top : List Cleanup} (same : s.cleanups.frames = top :: rest) :
    ∃ notes, s'.cleanups.frames = (notes ++ top) :: rest := by
  induction h generalizing top rest with
  | trans _ _ first second =>
    obtain ⟨notes, same1⟩ := first same
    obtain ⟨notes', same2⟩ := second same1
    exact ⟨notes' ++ notes, by rw [same2, List.append_assoc]⟩
  | step st _ =>
    cases st with
    | fresh callee args | note owned place => exact ⟨[_], frames_register same⟩
    | _ => exact ⟨[], same⟩
  | tidied keeps => exact ⟨[], (keeps _).trans same⟩
  | framed _ inside =>
    obtain ⟨notes, opened⟩ := inside rfl
    refine ⟨[], ?_⟩
    rw [LowerState.tidy_cleanups, CleanupStack.popFrame, opened]
    exact same
  | _ => exact ⟨[], same⟩

end Edits

/-! ## Pieces -/

variable {a : α}

theorem Made.steps {t : Terms} [Regs α] (made : Made t regs m) (calls : ∀ name, t.calls name)
    (run : m env s = .ok (a, s')) : Played (t.Admits env (fun _ => True) s) s s' := by
  have suits : t.Suits env fun _ => True := ⟨fun _ _ _ _ _ => calls _, fun _ _ _ => trivial⟩
  exact (made.played suits
    ⟨⟨rfl, fun _ _ h => h⟩, fun _ _ => .inl trivial, fun _ _ => .inl trivial, Nat.le_refl _, .refl _⟩ run).1

theorem Made.edits [Regs α] (made : Made .any regs m) (run : m env s = .ok (a, s')) : Edits s s' := by
  have played := made.steps (fun _ => trivial) run
  clear run
  induction played with
  | refl => exact .refl _
  | step st _ admits ih => exact ih.trans (.step st admits.noSlot)

namespace Lower

/-- A frame is closed by a pop, and then by its releases or by nothing. -/
theorem closeFrame_ok (run : closeFrame env s = .ok (u, s')) : let popped := s.tidy fun c => c.popFrame.2
    if !s.builder.isTerminated && s.builder.isReachable then
      emitCleanups s.cleanups.popFrame.1 env (popped.ran s.cleanups.popFrame.1) = .ok ((), s')
    else s' = popped := by
  change (if !s.builder.isTerminated && s.builder.isReachable then
    runReleases s.cleanups.popFrame.1 else pure ()) env (s.tidy fun c => c.popFrame.2) = _ at run
  split at run
  · next isOpen =>
    rw [if_pos isOpen]
    exact run
  · next shut =>
    rw [if_neg shut]
    exact (pure_ok.mp run).2

theorem withFrame_ok (run : withFrame action env s = .ok (a, s')) :
    ∃ s1, action env (s.tidy (·.pushFrame)) = .ok (a, s1) ∧ closeFrame env s1 = .ok ((), s') := by
  obtain ⟨_, s1, pushed, run⟩ := bind_ok.mp run
  cases pushed
  obtain ⟨b, s2, acted, run⟩ := bind_ok.mp run
  obtain ⟨_, s3, shut, run⟩ := bind_ok.mp run
  cases run
  exact ⟨s2, acted, shut⟩

end Lower

theorem Woven.edits (woven : Woven m) (run : m env s = .ok (a, s')) : Edits s s' := by
  induction woven generalizing env s s' with
  | made made => exact made.edits run
  | bind _ _ first second =>
    obtain ⟨b, s1, run1, run2⟩ := bind_ok.mp run
    exact (first run1).trans (second b run2)
  | look _ _ ih => exact ih env run
  | within f _ _ ih => exact ih (withReader_ok.mp run)
  | inspect _ ih => exact ih s run
  | createBlock label =>
    cases run
    exact .createBlock label
  | setBlock id =>
    cases run
    exact .setBlock id
  | terminate t =>
    cases run
    exact .terminate t
  | tidied keeps =>
    cases run
    exact .tidied keeps
  | framed _ ih =>
    obtain ⟨s1, acted, shut⟩ := withFrame_ok run
    have closed := Edits.framed (ih acted)
    have released := closeFrame_ok shut
    split at released
    · have ran : Edits _ ((s1.tidy fun c => c.popFrame.2).ran s1.cleanups.popFrame.1) := .tidied fun _ => rfl
      exact (closed.trans ran).trans ((Made.released _).edits released)
    · rw [released]
      exact closed

end BasicCompiler.Lowering
