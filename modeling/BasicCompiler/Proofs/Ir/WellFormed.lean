/-
# Well-formed control-flow graphs

What everything that reads a function may rely on: control begins in the first block and never comes back to it, every
block ends and leads to blocks of the function, a register is filled in one place, and the slots are there before
anything else happens.
-/
import BasicCompiler.Proofs.Ir.Placement

namespace BasicCompiler.Ir

open List

/-- The blocks of a function with these parameters form a control-flow graph. -/
structure WellFormed (params : List Reg) (blocks : List Block) : Prop where
  /-- The first block has the number 0. Its slots stand before everything else, and there
  are no others. -/
  entry : ∃ first rest slots code, blocks = first :: rest ∧ first.id = 0 ∧
    first.instrs = slots ++ code ∧ (∀ i ∈ slots, i.isSlot = true) ∧
    ∀ i ∈ code ++ rest.flatMap Block.instrs, i.isSlot = false
  ids : (blocks.map (·.id)).Nodup
  terminated : ∀ c ∈ blocks, ∃ t, c.terminator = some t
  /-- Control goes on to blocks of the function, and never to the first one. -/
  successors : ∀ c ∈ blocks, ∀ t, c.terminator = some t → ∀ d ∈ t.successors, d ≠ 0 ∧ d ∈ blocks.map (·.id)
  /-- No register is filled in two places. -/
  results : (params ++ blocks.flatMap Block.results).Nodup

namespace Builder

variable {labels : List BlockId} {b : Builder}

theorem Placed.leaves (h : b.Placed filled labels) (mem : c ∈ b.entered) (terminator : c.terminator = some t) :
    ∃ next, (∀ id, RightBefore b.entered c id → next = some id) ∧
      c.Leaves filled labels b.IsSlotReg b.nextBlock next t := by
  have nodup : b.entered.Nodup := h.ids.of_map
  -- a block stands in one place, so what is behind it is known
  have unique {front back front' back' : List Block} (split : b.entered = front ++ c :: back)
      (split' : b.entered = front' ++ c :: back') : back = back' := by
    have both := split.symm.trans split'
    rw [split, nodup_middle, nodup_cons, mem_append, not_or] at nodup
    exact ((append_cons_inj_of_notMem nodup.1.1 nodup.1.2).mp both).2.2
  obtain mem | block := mem_entered mem
  · obtain ⟨front, back, split⟩ := append_of_mem mem
    obtain ⟨t', terminator', leaves⟩ := h.closed front c back split
    obtain rfl : t' = t := Option.some.inj (terminator' ▸ terminator)
    refine ⟨_, ?_, leaves⟩
    rintro id ⟨front', d, back', split', rfl⟩
    have entered : b.entered = front ++ c :: (back ++ b.block.toList) := by
      rw [Builder.entered, split, append_assoc]
      rfl
    rw [behind, unique entered split']
    rfl
  · refine ⟨none, ?_, h.current c t block terminator⟩
    rintro id ⟨front', d, back', split', rfl⟩
    have last := unique (entered_of_block block) split'
    cases last

theorem Placed.wellFormed (h : b.Placed filled labels) (shut : ¬ b.IsOpen)
    (complete : ∀ id, ¬ b.Pending id) : WellFormed (b.params.map (·.1)) b.entered where
  entry := by
    obtain ⟨first, rest, entered, laid⟩ := h.proper.laid
    refine ⟨first, rest, first.slots, first.code, entered, laid.id, laid.instrs, ?_, ?_⟩
    · exact fun i mem => (mem_filter.mp mem).2
    · intro i mem
      obtain mem | mem := mem_append.mp mem
      · simpa using (mem_filter.mp mem).2
      · obtain ⟨c, mem, inside⟩ := mem_flatMap.mp mem
        have none := laid.others c mem
        simpa using filter_eq_nil_iff.mp none i inside
  ids := h.ids
  terminated c mem := by
    obtain mem | block := mem_entered mem
    · obtain ⟨front, back, split⟩ := append_of_mem mem
      obtain ⟨t, terminator, -⟩ := h.closed front c back split
      exact ⟨t, terminator⟩
    · exact Option.ne_none_iff_exists'.mp fun none => shut ⟨c, block, none⟩
  successors c mem t terminator d next := by
    obtain ⟨_, -, leaves⟩ := h.leaves mem terminator
    obtain ⟨positive, below⟩ := leaves.bounds d next
    refine ⟨Nat.ne_of_gt positive, ?_⟩
    by_contra absent
    exact complete d ⟨below, absent⟩
  results := h.proper.results.nodup_iff.mpr nodup_range

theorem Placed.certifies (h : b.Placed filled labels) (entered : b.entered = first :: rest) :
    Certifies filled (b.params.map (·.1)) labels first rest := by
  have slot : b.IsSlotReg = (· ∈ first.slots.filterMap (·.result)) := by
    funext r
    rw [IsSlotReg, slotList, entered]
    rfl
  obtain ⟨first', rest', entered', laid⟩ := h.proper.laid
  obtain ⟨rfl, rfl⟩ := List.cons.inj (entered.symm.trans entered')
  refine ⟨laid.id ▸ h.entry, laid.instrs, ?_, ?_, ?_, entered ▸ h.origins⟩
  · have := slot ▸ h.reads
    rwa [entered] at this
  · intro c mem t terminator
    obtain ⟨_, -, leaves⟩ := h.leaves (entered ▸ mem) terminator
    exact slot ▸ leaves.operands
  · intro c mem t terminator d next
    obtain ⟨_, behind, leaves⟩ := h.leaves (entered ▸ mem) terminator
    rw [entered] at behind
    obtain ⟨label, other⟩ | enough := leaves.edges d next
    · exact .inl ⟨label, fun before => other (behind d before)⟩
    · exact .inr (slot ▸ enough)

end Builder

end BasicCompiler.Ir
