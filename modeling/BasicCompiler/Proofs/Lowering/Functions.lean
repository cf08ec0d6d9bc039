/-
# Every function is complete

A function begins in its first block with its parameters.
-/
import BasicCompiler.Proofs.Ir.WellFormed
import BasicCompiler.Proofs.Lowering.Passage

namespace BasicCompiler.Lowering

open List
open Ir (BlockId Reg)
open Lower

/-! ## Before the body -/

theorem labelIds_zip (nodup : ids.Nodup) (length : ids.length = blocks.length) :
    labelIds (ids.zip blocks) ids = blocks := by
  induction ids generalizing blocks with
  | nil =>
    rw [length_nil, eq_comm, length_eq_zero_iff] at length
    rw [length]
    rfl
  | cons id ids ih =>
    obtain ⟨block, blocks, rfl⟩ := exists_cons_of_length_eq_add_one length.symm
    obtain ⟨absent, nodup⟩ := nodup_cons.mp nodup
    have others : labelIds ((id :: ids).zip (block :: blocks)) ids =
        labelIds (ids.zip blocks) ids := by
      refine filterMap_congr fun other mem => ?_
      have ne : (other == id) = false := beq_false_of_ne fun same => absent (same ▸ mem)
      rw [zip_cons_cons, lookup_cons, ne]
    have first : labelIds ((id :: ids).zip (block :: blocks)) (id :: ids) =
        block :: labelIds ((id :: ids).zip (block :: blocks)) ids := by
      simp [labelIds]
    rw [first, others, ih nodup (Nat.succ.inj length)]

/-- What surrounds the beginning of a function: no variable has a place yet, and there is
nothing to jump to. -/
structure Outermost (env : Env) : Prop where
  slots : env.slots = []
  labels : env.labels = []
  loop : env.loop = none
  nextCase : env.nextCase = none
  target : env.target = none

theorem Outermost.stands (outermost : Outermost env) (b : Ir.Builder) (name : String)
    (params : List Ir.Ty) (result : Ir.Ty) :
    Stands [] env (Ir.Builder.filledAtStart params)
      ⟨(b.startFunction name params result).2, CleanupStack.empty⟩ where
  placed := b.placed_startFunction name params result
  isOpen := ⟨_, rfl, rfl⟩
  slots p mem := by
    rw [outermost.slots] at mem
    cases mem
  target r same := by
    rw [outermost.target] at same
    cases same
  noted := by simp [CleanupStack.empty]
  loop targets same := by
    rw [outermost.loop] at same
    cases same
  nextCase next depth same := by
    rw [outermost.nextCase] at same
    cases same
  jumps p mem := by
    rw [outermost.labels] at mem
    cases mem
  created := by simp

namespace Stands

variable {slots : List (SymbolId × Reg)}

theorem paramSlots {params : List ParamInfo} (h : Stands labels env filled s)
    (atRegs : ∀ r ∈ regs, s.builder.Usable filled r) (run : Lower.paramSlots (params.zip regs) env s = .ok (slots, s')) :
    Passes labels env [] filled s filled s' ∧ (∀ p ∈ slots, s'.builder.Usable filled p.2) ∧
      s'.builder.nextBlock = s.builder.nextBlock := by
  have made : Made .any regs (Lower.paramSlots (params.zip regs)) := by
    refine .paramSlots trivial fun r mem => ?_
    obtain ⟨q, inside, rfl⟩ := mem_map.mp mem
    exact (of_mem_zip inside).2
  obtain ⟨passes, usable⟩ := h.straight made atRegs run
  exact ⟨passes, fun p mem => usable p.2 (mem_map_of_mem mem), (made.steps (fun _ => trivial) run).nextBlock⟩

theorem localSlots (h : Stands labels env filled s) (run : Lower.localSlots ids env s = .ok (slots, s')) :
    Passes labels env [] filled s filled s' ∧ (∀ p ∈ slots, s'.builder.Usable filled p.2) ∧
      s'.builder.nextBlock = s.builder.nextBlock := by
  have made : Made .any [] (Lower.localSlots ids) := .localSlots trivial ids
  obtain ⟨passes, usable⟩ := h.straight made (by simp) run
  exact ⟨passes, fun p mem => usable p.2 (mem_map_of_mem mem), (made.steps (fun _ => trivial) run).nextBlock⟩

theorem labelBlocks (outermost : Outermost env) (h : Stands [] env filled s) (ids : List SymbolId)
    (names : List String) (length : names.length = ids.length) (none : ∀ id, ¬ s.builder.Pending id)
    (atSlots : ∀ p ∈ slots, s.builder.Usable filled p.2) :
    ∃ filled', Stands (range' s.builder.nextBlock ids.length) { env with
          slots := slots
          labels := ids.zip (range' s.builder.nextBlock ids.length) } filled' (s.createAll names) ∧
      ∀ id, (s.createAll names).builder.Pending id ↔ id ∈ range' s.builder.nextBlock ids.length := by
  obtain ⟨filled', within⟩ := (Within.start h).createAll h names
  rw [nil_append, length] at within
  have isOpen : (s.createAll names).builder.IsOpen := by
    rw [Ir.Builder.IsOpen, LowerState.createAll_block]
    exact h.isOpen
  have stands := within.stands h isOpen
  refine ⟨filled', ⟨stands.placed.anyLabels _, isOpen,
    fun p mem => within.moves.usable _ (atSlots p mem), stands.target, stands.noted, ?_, ?_, ?_, ?_⟩,
    fun id => ?_⟩
  · intro targets same
    cases outermost.loop ▸ same
  · intro next depth same
    cases outermost.nextCase ▸ same
  · exact fun p mem => (of_mem_zip mem).2
  · intro id mem
    obtain ⟨above, below⟩ := mem_range'_1.mp mem
    refine ⟨Nat.lt_of_lt_of_le h.placed.nextBlock_pos above, ?_⟩
    rwa [LowerState.createAll_nextBlock, length]
  · rw [within.pending]
    exact ⟨fun h => h.resolve_left fun pending => none id pending.1, .inr⟩

theorem endOfFunction (h : Stands labels env filled s) (run : Lower.endOfFunction endValue env s = .ok ((), s')) :
    s'.builder.Placed filled labels ∧ ¬ s'.builder.IsOpen ∧ ∀ id, s'.builder.Pending id ↔ s.builder.Pending id := by
  have shut {t : Ir.Terminator} {s : LowerState} (h : Stands labels env filled s)
      (operands : ∀ r ∈ t.operands, s.builder.Usable filled r)
      (targets : ∀ d ∈ t.successors, s.builder.Admits filled labels d) :
      (s.finish t).builder.Placed filled labels ∧ ¬ (s.finish t).builder.IsOpen ∧
        ∀ id, (s.finish t).builder.Pending id ↔ s.builder.Pending id := by
    obtain ⟨placed, shut⟩ := h.placed.terminate h.isOpen operands targets
    exact ⟨placed, shut, (Ir.Builder.reshapes_terminate h.placed.proper t).pending⟩
  obtain ⟨terminated, rfl⟩ | ⟨-, rfl⟩ | ⟨-, returned⟩ := endOfFunction_run run
  · obtain ⟨c, block, isOpen⟩ := h.isOpen
    rw [Ir.Builder.isTerminated, block] at terminated
    simp [isOpen] at terminated
  · exact shut h (by simp [Ir.Terminator.operands]) (by simp [Ir.Terminator.successors])
  · obtain ⟨r, s1, passes, rfl, usable⟩ := Places.returnStmt h returned
    obtain ⟨placed, shut, pending⟩ := shut (t := .ret r) passes.stands usable
      (by simp [Ir.Terminator.successors])
    refine ⟨placed, shut, fun id => (pending id).trans ?_⟩
    simpa using passes.pending id

end Stands

/-! ## A whole function -/

/-- The blocks of a function's labels come right after its first block. -/
def labelBlockIds (f : Typed.Function) : List BlockId := List.range' 1 f.labels.length

theorem functionBody_placed (outermost : Outermost env) (labelled : f.Labelled) (b : Ir.Builder) (name : String)
    (types : List Ir.Ty) (result : Ir.Ty)
    (run : functionBody f params (b.startFunction name types result).1 env ⟨(b.startFunction name types result).2, CleanupStack.empty⟩ = .ok ((), s')) :
    ∃ filled, s'.builder.Placed filled (labelBlockIds f) ∧ ¬ s'.builder.IsOpen ∧ ∀ id, ¬ s'.builder.Pending id := by
  obtain ⟨slots, slots', s1, s2, s3, atParams, atLocals, inside, ended⟩ := functionBody_run run
  have start := (outermost.stands b name types result).pushFrame
  have atRegs (r : Reg) (mem : r ∈ range types.length) :=
    start.moves.usable r (b.usable_startFunction name types result mem)
  obtain ⟨passes1, usable, nextBlock⟩ := start.stands.paramSlots atRegs atParams
  obtain ⟨passes2, usable', nextBlock'⟩ := passes1.stands.localSlots atLocals
  have one : s2.builder.nextBlock = 1 := nextBlock'.trans nextBlock
  -- nothing was created so far
  have none (id : BlockId) : ¬ s2.builder.Pending id := by
    rw [((start.trans passes1).trans passes2).pending id]
    exact fun pending => b.pending_startFunction name types result id pending.1
  have atSlots : ∀ p ∈ slots ++ slots', s2.builder.Usable (Ir.Builder.filledAtStart types) p.2 :=
    forall_mem_append.mpr ⟨fun p mem => passes2.moves.usable _ (usable p mem), usable'⟩
  obtain ⟨filled, stands, pending⟩ := passes2.stands.labelBlocks outermost f.labels
    (f.labels.map (labelName env.program)) (length_map _) none atSlots
  rw [one] at stands pending inside ended
  have entered : labelIds (f.labels.zip (range' 1 f.labels.length)) f.body.labels =
      range' 1 f.labels.length := by
    rw [labelled.labels]
    exact labelIds_zip labelled.nodup length_range'.symm
  have unplaced : Unplaced (f.labels.zip (range' 1 f.labels.length))
      (s2.createAll (f.labels.map (labelName env.program))) f.body.labels := by
    refine ⟨?_, fun id mem => (pending id).mpr (entered ▸ mem)⟩
    rw [entered]
    exact nodup_range'
  obtain ⟨filled', passes3⟩ := Places.block (Places.stmtsOf f.body) _ filled _ s3 rfl stands unplaced
    inside
  rw [entered] at passes3
  obtain ⟨placed, shut, same⟩ := passes3.stands.endOfFunction ended
  refine ⟨filled', placed, shut, fun id => ?_⟩
  rw [same, passes3.pending, pending]
  exact fun h => h.2 h.1

end BasicCompiler.Lowering
