/-
# Every block finds its place

A statement creates blocks and enters each of them once.
-/
import BasicCompiler.Proofs.Lowering.Standing
import BasicCompiler.Proofs.Typed.Labels

namespace BasicCompiler.Lowering

open List Ir.Builder
open Ir (BlockId Reg)
open Lower
open scoped List

variable {labels : List BlockId} {id : BlockId}

/-! ## Inside a statement -/

/-- A block that is entered with all that could be used at `s0`. -/
structure Resumes (labels : List BlockId) (filled₀ : BlockId → Reg → Prop) (s₀ : LowerState)
    (filled : BlockId → Reg → Prop) (s : LowerState) (id : BlockId) : Prop where
  noLabel : id ∉ labels
  positive : 0 < id
  below : id < s.builder.nextBlock
  certified : filled id = s₀.builder.Usable filled₀

theorem Resumes.moved (h : Resumes labels filled0 s0 filled s id)
    (moves : Moves labels filled s filled' s') : Resumes labels filled0 s0 filled' s' id where
  noLabel := h.noLabel
  positive := h.positive
  below := Nat.lt_of_lt_of_le h.below moves.nextBlock
  certified := (moves.kept id h.below h.noLabel).trans h.certified

/-- The lowering has come from `s0`, where it stood, to `s`, with the same frames open. It
has created `blocks` to resume there. Of what it created, `todo` are still to be entered;
of the blocks that were pending, it has entered those in `gone`. -/
structure Within (labels : List BlockId) (filled₀ : BlockId → Reg → Prop) (s₀ : LowerState)
    (blocks todo gone : List BlockId) (filled : BlockId → Reg → Prop) (s : LowerState) : Prop where
  moves : Moves labels filled₀ s₀ filled s
  placed : s.builder.Placed filled labels
  frames : s.cleanups.frames = s₀.cleanups.frames
  resumes : ∀ id ∈ blocks, Resumes labels filled₀ s₀ filled s id
  new : ∀ id ∈ todo, s₀.builder.nextBlock ≤ id ∧ id < s.builder.nextBlock ∧ id ∉ labels
  nodup : todo.Nodup
  pending : ∀ id, s.builder.Pending id ↔ s₀.builder.Pending id ∧ id ∉ gone ∨ id ∈ todo

namespace Within

theorem start (base : Stands labels env filled s) : Within labels filled s [] [] [] filled s where
  moves := .refl labels filled s
  placed := base.placed
  frames := rfl
  resumes := by simp
  new := by simp
  nodup := nodup_nil
  pending id := by simp

theorem stands (within : Within labels filled0 s0 blocks todo gone filled s)
    (base : Stands labels env filled0 s0) (isOpen : s.builder.IsOpen) : Stands labels env filled s :=
  base.back within.moves within.placed isOpen within.frames

theorem passes (within : Within labels filled0 s0 blocks [] gone filled s)
    (base : Stands labels env filled0 s0) (isOpen : s.builder.IsOpen) :
    Passes labels env gone filled0 s0 filled s where
  stands := within.stands base isOpen
  moves := within.moves
  pending id := by simpa using within.pending id

section

variable (within : Within labels filled0 s0 blocks todo gone filled s)
include within

theorem goal (mem : id ∈ blocks) : Goal labels filled s id where
  noLabel := (within.resumes id mem).noLabel
  positive := (within.resumes id mem).positive
  below := (within.resumes id mem).below
  enough r full := within.moves.usable r ((within.resumes id mem).certified ▸ full)

theorem forget (sub : blocks' ⊆ blocks) : Within labels filled0 s0 blocks' todo gone filled s :=
  { within with resumes := fun id mem => within.resumes id (sub mem) }

theorem after (passes : Passes labels env gone' filled s filled' s') (labelled : gone' ⊆ labels)
    (frames : s'.cleanups.frames = s.cleanups.frames) :
    Within labels filled0 s0 blocks todo (gone ++ gone') filled' s' where
  moves := within.moves.trans passes.moves
  placed := passes.stands.placed
  frames := frames.trans within.frames
  resumes id mem := (within.resumes id mem).moved passes.moves
  new id mem := by
    obtain ⟨above, below, noLabel⟩ := within.new id mem
    exact ⟨above, Nat.lt_of_lt_of_le below passes.moves.nextBlock, noLabel⟩
  nodup := within.nodup
  pending id := by
    have apart : id ∈ todo → id ∉ gone' := fun mem mem' => (within.new id mem).2.2 (labelled mem')
    rw [passes.pending, within.pending, mem_append]
    tauto

end

/-! ## Creating, ending and entering blocks -/

section

variable (base : Stands labels env filled0 s0)
include base

section

variable (within : Within labels filled0 s0 blocks todo gone filled s)
include within

theorem fresh_noLabel : s.builder.nextBlock ∉ labels :=
  fun mem => Nat.lt_irrefl _ (Nat.lt_of_lt_of_le (base.created _ mem).2 within.moves.nextBlock)

theorem create (name : String) (atEntry : Reg → Prop) :
    Within labels filled0 s0 blocks (todo ++ [s.builder.nextBlock]) gone
      (Function.update filled s.builder.nextBlock atEntry) (s.create name) := by
  obtain ⟨placed, usable⟩ := within.placed.createBlock name atEntry
  have moves : Moves labels filled s (Function.update filled s.builder.nextBlock atEntry)
      (s.create name) :=
    ⟨fun r => (usable r).mpr, fun id below _ => Function.update_of_ne (Nat.ne_of_lt below) _ _,
      Nat.le_succ _, Nat.le_refl _⟩
  refine ⟨within.moves.trans moves, placed, within.frames, ?_, ?_, ?_, ?_⟩
  · exact fun id mem => (within.resumes id mem).moved moves
  · refine forall_mem_append.mpr ⟨fun id mem => ?_, forall_mem_singleton.mpr ?_⟩
    · obtain ⟨above, below, noLabel⟩ := within.new id mem
      exact ⟨above, Nat.lt_succ_of_lt below, noLabel⟩
    · exact ⟨within.moves.nextBlock, Nat.lt_succ_self _, within.fresh_noLabel base⟩
  · refine nodup_append.mpr ⟨within.nodup, by simp, fun id mem other mem' same => ?_⟩
    have below := (within.new id mem).2.1
    rw [same, mem_singleton.mp mem'] at below
    exact Nat.lt_irrefl _ below
  · intro id
    rw [LowerState.create, LowerState.edit_builder,
      pending_createBlock within.placed name, within.pending, mem_append,
      mem_singleton, or_assoc]

theorem createOne (name : String) :
    Within labels filled0 s0 (blocks ++ [s.builder.nextBlock]) (todo ++ [s.builder.nextBlock]) gone
      (Function.update filled s.builder.nextBlock (s0.builder.Usable filled0)) (s.create name) := by
  have created := within.create base name (s0.builder.Usable filled0)
  have first : Resumes labels filled0 s0
      (Function.update filled s.builder.nextBlock (s0.builder.Usable filled0)) (s.create name)
      s.builder.nextBlock :=
    ⟨within.fresh_noLabel base, within.placed.nextBlock_pos, Nat.lt_succ_self _, Function.update_self _ _ _⟩
  exact { created with resumes := forall_mem_append.mpr ⟨created.resumes, forall_mem_singleton.mpr first⟩ }

theorem createAll (names : List String) :
    ∃ filled', Within labels filled0 s0 (blocks ++ range' s.builder.nextBlock names.length)
      (todo ++ range' s.builder.nextBlock names.length) gone filled' (s.createAll names) := by
  induction names generalizing s filled blocks todo with
  | nil => exact ⟨filled, by simpa [LowerState.createAll] using within⟩
  | cons name names ih =>
    obtain ⟨filled', within'⟩ := ih (within.createOne base name)
    rw [append_assoc, append_assoc] at within'
    exact ⟨filled', within'⟩

end

end

section

variable (within : Within labels filled0 s0 blocks todo gone filled s)
include within

theorem finish (isOpen : s.builder.IsOpen) (operands : ∀ r ∈ t.operands, s.builder.Usable filled r)
    (targets : ∀ d ∈ t.successors, s.builder.Admits filled labels d) :
    Within labels filled0 s0 blocks todo gone filled (s.finish t) ∧ ¬ (s.finish t).builder.IsOpen := by
  obtain ⟨placed, shut⟩ := within.placed.terminate isOpen operands targets
  have shape := reshapes_terminate within.placed.proper t
  have moves : Moves labels filled s filled (s.finish t) := .of_reshapes shape
  exact ⟨⟨within.moves.trans moves, placed, within.frames,
    fun id mem => (within.resumes id mem).moved moves, within.new, within.nodup,
    fun id => (shape.pending id).trans (within.pending id)⟩, shut⟩

theorem br (isOpen : s.builder.IsOpen)
    (mem : id ∈ blocks) : Within labels filled0 s0 blocks todo gone filled (s.finish (.br id)) := by
  exact (within.finish (t := .br id) isOpen (forall_mem_nil _) (forall_mem_singleton.mpr (within.goal mem).admits)).1

theorem condBr {cond : Reg} (isOpen : s.builder.IsOpen)
    (usable : s.builder.Usable filled cond) (onTrue_mem : onTrue ∈ blocks) (onFalse_mem : onFalse ∈ blocks) :
    Within labels filled0 s0 blocks todo gone filled (s.finish (.condBr cond onTrue onFalse)) := by
  refine (within.finish (t := .condBr cond onTrue onFalse) isOpen (forall_mem_singleton.mpr usable) ?_).1
  exact forall_mem_cons.mpr ⟨(within.goal onTrue_mem).admits, forall_mem_singleton.mpr (within.goal onFalse_mem).admits⟩

end

section

variable (front : List BlockId) (within : Within labels filled0 s0 blocks (front ++ id :: back) gone filled s)
include within

theorem enter
    (covers : ∀ r, s0.builder.Usable filled0 r → filled id r) (below : ∀ r, filled id r → r < s.builder.nextReg)
    (enough : s.builder.IsOpen → ∀ r, filled id r → s.builder.Usable filled r) :
    Within labels filled0 s0 blocks (front ++ back) gone filled (s.enter id) ∧
      (s.enter id).builder.IsOpen ∧ ∀ r, filled id r → (s.enter id).builder.Usable filled r := by
  have mem : id ∈ front ++ id :: back := by simp
  have pending : s.builder.Pending id := (within.pending id).mpr (.inr mem)
  have proper := within.placed.proper
  have noLabel := (within.new id mem).2.2
  have placed : (s.enter id).builder.Placed filled labels := by
    by_cases isOpen : s.builder.IsOpen
    · exact within.placed.setBlock_of_open isOpen pending (enough isOpen)
    · exact within.placed.setBlock_of_shut isOpen pending noLabel below
  have usable (r : Reg) (full : filled id r) : (s.enter id).builder.Usable filled r :=
    usable_setBlock proper full (below r full)
  have nextBlock := LowerState.enter_nextBlock s id
  have sub : front ++ back <+ front ++ id :: back := (Sublist.refl front).append (sublist_cons_self id back)
  refine ⟨⟨⟨fun r full => usable r (covers r full), within.moves.kept, ?_, ?_⟩, placed,
    within.frames, ?_, ?_, ?_, ?_⟩, isOpen_setBlock proper, usable⟩
  · rw [nextBlock]
    exact within.moves.nextBlock
  · rw [LowerState.enter_nextReg]
    exact within.moves.nextReg
  · intro other mem
    have resumes := within.resumes other mem
    exact { resumes with below := by rw [nextBlock]; exact resumes.below }
  · rw [nextBlock]
    exact fun other mem => within.new other (sub.subset mem)
  · exact within.nodup.sublist sub
  · intro other
    have absent : id ∉ front ++ back := (nodup_cons.mp (nodup_middle.mp within.nodup)).1
    have old : s0.builder.Pending id → False := fun h => Nat.lt_irrefl _
      (Nat.lt_of_lt_of_le h.1 (within.new id mem).1)
    have split : other ∈ front ++ id :: back ↔ other ∈ front ++ back ∨ other = id := by
      simp only [mem_append, mem_cons]
      tauto
    rw [LowerState.enter, LowerState.edit_builder, pending_setBlock proper, within.pending, split]
    constructor
    · rintro ⟨settled | kept | here, ne⟩
      · exact .inl settled
      · exact .inr kept
      · exact (ne here).elim
    · rintro (⟨pending, settled⟩ | kept)
      · exact ⟨.inl ⟨pending, settled⟩, fun same => old (same ▸ pending)⟩
      · exact ⟨.inr (.inl kept), fun same => absent (same ▸ kept)⟩

theorem resume (mem : id ∈ blocks) :
    Within labels filled0 s0 blocks (front ++ back) gone filled (s.enter id) ∧ (s.enter id).builder.IsOpen := by
  have resumes := within.resumes id mem
  obtain ⟨within', isOpen, -⟩ := within.enter front (fun r usable => resumes.certified ▸ usable)
    (fun r full => (within.moves.usable r (resumes.certified ▸ full)).1)
    (fun _ => (within.goal mem).enough)
  exact ⟨within', isOpen⟩

end

end Within

/-! ## Releases and frames -/

namespace Stands

section

variable (h : Stands labels env filled s)
include h

theorem release (noted : ∀ c ∈ cs, s.builder.Usable filled c.reg)
    (run : emitCleanups cs env s = .ok ((), s')) : Passes labels env [] filled s filled s' :=
  (h.straight (.released cs) (by simpa using noted) run).1

theorem releaseFrom {depth : Nat}
    (run : emitCleanups (s.cleanups.pendingFrom depth) env (leaving depth s) = .ok ((), s')) :
    Passes labels env [] filled s filled s' := by
  have running : Passes labels env [] filled s filled (leaving depth s) := h.tidied rfl h.noted
  exact running.trans (running.stands.release (fun c mem => h.noted c (mem_pendingFrom mem)) run)

theorem pushFrame : Passes labels env [] filled s filled (s.tidy (·.pushFrame)) := h.tidied rfl h.noted

theorem closeFrame (run : Lower.closeFrame env s = .ok ((), s')) : Passes labels env [] filled s filled s' := by
  have popped : (∀ c ∈ s.cleanups.popFrame.1, s.builder.Usable filled c.reg) ∧
      ∀ c ∈ s.cleanups.popFrame.2.frames.flatten, s.builder.Usable filled c.reg :=
    ⟨fun c mem => h.noted c (mem_of_mem_popFrame (.inl mem)), fun c mem => h.noted c (mem_of_mem_popFrame (.inr mem))⟩
  have passes : Passes labels env [] filled s filled (s.tidy fun c => c.popFrame.2) := h.tidied rfl popped.2
  have released := closeFrame_ok run
  split at released
  · have running : Passes labels env [] filled _ filled
        ((s.tidy fun c => c.popFrame.2).ran s.cleanups.popFrame.1) :=
      passes.stands.tidied rfl popped.2
    exact (passes.trans running).trans (running.stands.release popped.1 released)
  · rw [released]
    exact passes

theorem framed {α : Type} {m : Lower α} {a : α} (inside : ∀ s1, m env (s.tidy (·.pushFrame)) = .ok (a, s1) →
      ∃ filled', Passes labels env gone filled (s.tidy (·.pushFrame)) filled' s1)
    (run : withFrame m env s = .ok (a, s')) : ∃ filled', Passes labels env gone filled s filled' s' := by
  obtain ⟨s1, acted, shut⟩ := withFrame_ok run
  obtain ⟨filled', passes⟩ := inside s1 acted
  have all := (h.pushFrame.trans passes).trans (passes.stands.closeFrame shut)
  exact ⟨filled', by simpa using all⟩

theorem framedStraight (made : Made .any regs m)
    (there : ∀ r ∈ regs, s.builder.Usable filled r) (run : withFrame m env s = .ok (reg, s')) :
    Passes labels env [] filled s filled s' ∧ s'.builder.Usable filled reg := by
  obtain ⟨s1, acted, shut⟩ := withFrame_ok run
  obtain ⟨passes, usable⟩ := h.pushFrame.stands.straight made there acted
  have closing := passes.stands.closeFrame shut
  refine ⟨by simpa using (h.pushFrame.trans passes).trans closing, ?_⟩
  exact closing.moves.usable reg (usable reg (by simp))

theorem condition {cond : Typed.Expr} (run : Lower.condition cond env s = .ok (reg, s')) :
    Passes labels env [] filled s filled s' ∧ s'.builder.Usable filled reg :=
  h.framedStraight (.expr Terms.any_hereditary .value cond trivial []) (by simp) run

end

/-! ## Leaving -/

theorem detach (h : Stands labels env filled0 s0)
    (within : Within labels filled0 s0 [] [] [] filled s) (name : String) :
    ∃ filled', Passes labels env [] filled0 s0 filled' (s.detach name) := by
  obtain ⟨within', isOpen⟩ := (within.createOne h name).resume [] (by simp)
  exact ⟨_, within'.passes h isOpen⟩

theorem leave (h : Stands labels env filled s) (operands : ∀ r ∈ t.operands, s.builder.Usable filled r)
    (targets : ∀ d ∈ t.successors, s.builder.Admits filled labels d) (name : String) :
    ∃ filled', Passes labels env [] filled s filled' ((s.finish t).detach name) :=
  h.detach ((Within.start h).finish h.isOpen operands targets).1 name

theorem jump {depth : Nat} {target : BlockId} (h : Stands labels env filled s) (goal : Goal labels filled s target)
    (run : Jump env depth target name s s') : ∃ filled', Passes labels env [] filled s filled' s' := by
  obtain ⟨s1, released, rfl⟩ := run
  have passes := h.releaseFrom released
  have targets : ∀ d ∈ (Ir.Terminator.br target).successors, s1.builder.Admits filled labels d := by
    intro d mem
    rw [mem_singleton.mp mem]
    exact (goal.moved passes.moves).admits
  obtain ⟨filled', left⟩ := passes.stands.leave (t := .br target) (by simp [Ir.Terminator.operands]) targets name
  exact ⟨filled', passes.trans left⟩

end Stands

end BasicCompiler.Lowering
