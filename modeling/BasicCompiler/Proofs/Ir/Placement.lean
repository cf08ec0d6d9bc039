/-
# Building a control-flow graph block by block

Blocks are created long before they are entered, and control goes to blocks that are not there yet.
-/
import BasicCompiler.Proofs.Ir.Dominance
import Mathlib.Data.List.Forall2
import Mathlib.Data.List.Nodup
import Mathlib.Logic.Function.Basic

namespace BasicCompiler.Ir

open List Option

/-- Control may leave a block by a terminator: what it reads is filled, and where it goes
is a block below `limit` that is entered with enough. Only a jump to a label is not
looked at, unless the label is `next`. -/
structure Block.Leaves (c : Block) (filled : BlockId → Reg → Prop) (labels : List BlockId)
    (slot : Reg → Prop) (limit : BlockId) (next : Option BlockId) (t : Terminator) : Prop where
  operands : ∀ r ∈ t.operands, c.Fills (filled c.id) slot r
  bounds : ∀ d ∈ t.successors, 0 < d ∧ d < limit
  edges : ∀ d ∈ t.successors, (d ∈ labels ∧ next ≠ some d) ∨ ∀ r, filled d r → c.Fills (filled c.id) slot r

namespace Builder

def IsSlotReg (b : Builder) (r : Reg) : Prop := r ∈ b.slotList.filterMap (·.result)

def behind (b : Builder) (back : List Block) : Option BlockId := ((back ++ b.block.toList).head?).map (·.id)

def Pending (b : Builder) (id : BlockId) : Prop := id < b.nextBlock ∧ id ∉ b.entered.map (·.id)

structure Placed (filled : BlockId → Reg → Prop) (labels : List BlockId) (b : Builder) :
    Prop where
  proper : b.Proper
  ids : (b.entered.map (·.id)).Nodup
  created : ∀ c ∈ b.entered, c.id < b.nextBlock
  entry : ∀ r, filled 0 r → r ∈ b.params.map (·.1)
  reads : ∀ c ∈ b.entered, Reads (fun r => filled c.id r ∨ b.IsSlotReg r) c.code
  origins : ∀ front c back, b.entered = front ++ c :: back → ∀ r, filled c.id r →
    r ∈ b.params.map (·.1) ∨ r ∈ front.flatMap Block.results
  closed : ∀ front c back, b.closed = front ++ c :: back → ∃ t, c.terminator = some t ∧
    c.Leaves filled labels b.IsSlotReg b.nextBlock (b.behind back) t
  current : ∀ c t, b.block = some c → c.terminator = some t → c.Leaves filled labels b.IsSlotReg b.nextBlock none t

def Usable (b : Builder) (filled : BlockId → Reg → Prop) (r : Reg) : Prop :=
  r < b.nextReg ∧ ∃ c, b.block = some c ∧ c.Fills (filled c.id) b.IsSlotReg r

def IsOpen (b : Builder) : Prop := ∃ c, b.block = some c ∧ c.terminator = none

end Builder

variable {labels : List BlockId} {b b' : Builder}

namespace Block

variable {c d : Block} {next : Option BlockId}

theorem Fills.mono (h : c.Fills atEntry slot r) (code : c.code <+: d.code) (more : ∀ r, slot r → slot' r) :
    d.Fills atEntry slot' r := by
  obtain entry | slot | here := h
  · exact .inl entry
  · exact .inr (.inl (more r slot))
  · exact .inr (.inr ((code.filterMap _).subset here))

theorem Leaves.stays (h : c.Leaves filled labels slot limit next t) (same : c.Stays d)
    (more : ∀ r, slot r → slot' r) (le : limit ≤ limit') : d.Leaves filled labels slot' limit' next t := by
  have fills {r : Reg} (h : c.Fills (filled c.id) slot r) : d.Fills (filled d.id) slot' r := by
    rw [same.id]
    exact h.mono (same.code ▸ prefix_rfl) more
  refine ⟨fun r mem => fills (h.operands r mem), fun d mem => ?_, fun d mem => ?_⟩
  · exact ⟨(h.bounds d mem).1, Nat.lt_of_lt_of_le (h.bounds d mem).2 le⟩
  · obtain exempt | kept := h.edges d mem
    · exact .inl exempt
    · exact .inr fun r full => fills (kept r full)

theorem Leaves.congr (h : c.Leaves filled labels slot limit next t)
    (same : filled' c.id = filled c.id) (targets : ∀ d ∈ t.successors,
      (d ∈ labels ∧ next ≠ some d) ∨ filled' d = filled d) : c.Leaves filled' labels slot limit next t := by
  refine ⟨fun r mem => same ▸ h.operands r mem, h.bounds, fun d mem => ?_⟩
  obtain exempt | same' := targets d mem
  · exact .inl exempt
  · rw [same, same']
    exact h.edges d mem

end Block

namespace Builder

theorem Placed.nextBlock_pos (h : b.Placed filled labels) : 0 < b.nextBlock := by
  obtain ⟨first, rest, entered, laid⟩ := h.proper.laid
  have := h.created first (by rw [entered]; exact mem_cons_self)
  rwa [laid.id] at this

theorem Placed.pending_pos (h : b.Placed filled labels) {id : BlockId} (pending : b.Pending id) : 0 < id := by
  obtain ⟨first, rest, entered, laid⟩ := h.proper.laid
  refine Nat.pos_of_ne_zero fun zero => pending.2 ?_
  rw [zero, entered, ← laid.id]
  exact mem_cons_self

/-! ## Changes inside the blocks that are there -/

/-- The same block, with at least the same results. -/
structure Keeps (c d : Block) : Prop where
  id : d.id = c.id
  results : c.results ⊆ d.results

theorem keeps_refl (c : Block) : Keeps c c := ⟨rfl, Subset.refl _⟩

theorem forall₂_split (h : Forall₂ R blocks (front ++ d :: back)) :
    ∃ front' c back', blocks = front' ++ c :: back' ∧ Forall₂ R front' front ∧ R c d ∧
      Forall₂ R back' back := by
  induction front generalizing blocks with
  | nil =>
    obtain ⟨c, back', first, rest, rfl⟩ := forall₂_cons_right_iff.mp h
    exact ⟨[], c, back', rfl, .nil, first, rest⟩
  | cons e front ih =>
    obtain ⟨c, rest, first, others, rfl⟩ := forall₂_cons_right_iff.mp h
    obtain ⟨front', c', back', rfl, before, here, behind⟩ := ih others
    exact ⟨c :: front', c', back', rfl, .cons first before, here, behind⟩

theorem map_id_eq (h : Forall₂ Keeps cs ds) : ds.map (·.id) = cs.map (·.id) := by
  induction h with
  | nil => rfl
  | cons first _ ih => rw [map_cons, map_cons, first.id, ih]

theorem results_subset (h : Forall₂ Keeps cs ds) : cs.flatMap Block.results ⊆ ds.flatMap Block.results := by
  induction h with
  | nil => exact Subset.refl _
  | cons first _ ih =>
    exact append_subset.mpr ⟨fun r mem => mem_append_left _ (first.results mem),
      fun r mem => mem_append_right _ (ih mem)⟩

/-- What every step that enters no block changes: the current block, and slots in the
first one. -/
structure Reshapes (b b' : Builder) : Prop where
  closed : List.Forall₂ (fun c d => c.Stays d ∧ Keeps c d) b.closed b'.closed
  current : ∃ c d, b.block = some c ∧ b'.block = some d ∧ Keeps c d ∧ c.Evolves d
  slots : b.slotList <+: b'.slotList
  params : b'.params = b.params
  nextReg : b.nextReg ≤ b'.nextReg
  nextBlock : b'.nextBlock = b.nextBlock

namespace Reshapes

section

variable (h : b.Reshapes b')
include h

theorem entered : Forall₂ Keeps b.entered b'.entered := by
  obtain ⟨c, d, block, block', keeps, -⟩ := h.current
  rw [entered_of_block block, entered_of_block block']
  exact rel_append (h.closed.imp fun _ _ h => h.2) (.cons keeps .nil)

theorem isSlotReg (slot : b.IsSlotReg r) : b'.IsSlotReg r := (h.slots.filterMap _).subset slot

theorem pending (id : BlockId) : b'.Pending id ↔ b.Pending id := by
  rw [Pending, Pending, h.nextBlock, map_id_eq h.entered]

theorem usable (usable : b.Usable filled r) : b'.Usable filled r := by
  obtain ⟨below, c, block, fills⟩ := usable
  obtain ⟨c', d, same, block', -, evolves⟩ := h.current
  obtain rfl : c = c' := some.inj (block ▸ same)
  refine ⟨Nat.lt_of_lt_of_le below h.nextReg, d, block', ?_⟩
  rw [evolves.id]
  exact fills.mono evolves.code fun _ => h.isSlotReg

theorem behind_eq (same : Forall₂ Keeps back back') : b'.behind back' = b.behind back := by
  obtain ⟨c, d, block, block', keeps, -⟩ := h.current
  have all : Forall₂ Keeps (back ++ [c]) (back' ++ [d]) := rel_append same (.cons keeps .nil)
  rw [behind, behind, block, block', ← head?_map, ← head?_map]
  exact congrArg head? (map_id_eq all)

end

end Reshapes

theorem Placed.reshape (h : b.Placed filled labels) (shape : b.Reshapes b') (proper : b'.Proper)
    (reads : ∀ d, b'.block = some d → Reads (fun r => filled d.id r ∨ b'.IsSlotReg r) d.code)
    (current : ∀ d t, b'.block = some d → d.terminator = some t →
      d.Leaves filled labels b'.IsSlotReg b'.nextBlock none t) : b'.Placed filled labels where
  proper := proper
  ids := by
    rw [map_id_eq shape.entered]
    exact h.ids
  created d mem := by
    rw [shape.nextBlock]
    have id : d.id ∈ b.entered.map (·.id) := by
      rw [← map_id_eq shape.entered]
      exact mem_map_of_mem mem
    obtain ⟨c, mem', same⟩ := mem_map.mp id
    rw [← same]
    exact h.created c mem'
  entry r full := by
    rw [shape.params]
    exact h.entry r full
  reads d mem := by
    obtain mem | block := mem_entered mem
    · obtain ⟨front, back, split⟩ := append_of_mem mem
      obtain ⟨front', c, back', split', -, ⟨stays, -⟩, -⟩ := forall₂_split (split ▸ shape.closed)
      have before := h.reads c (mem_entered_of_closed (by rw [split']; simp))
      rw [stays.id, stays.code]
      exact before.mono fun r filled => filled.imp_right shape.isSlotReg
    · exact reads d block
  origins front d back split r full := by
    obtain ⟨front', c, back', split', before, keeps, -⟩ := forall₂_split (split ▸ shape.entered)
    rw [keeps.id] at full
    rw [shape.params]
    exact (h.origins front' c back' split' r full).imp_right fun mem => results_subset before mem
  closed front d back split := by
    obtain ⟨front', c, back', split', -, ⟨stays, -⟩, after⟩ := forall₂_split (split ▸ shape.closed)
    obtain ⟨t, terminator, leaves⟩ := h.closed front' c back' split'
    refine ⟨t, stays.terminator.trans terminator, ?_⟩
    rw [shape.behind_eq (after.imp fun _ _ h => h.2)]
    exact leaves.stays stays (fun _ => shape.isSlotReg) (Nat.le_of_eq shape.nextBlock.symm)
  current d t block terminator := current d t block terminator

/-! ## Instructions -/

theorem reshapes_of_advances (proper : b.Proper) (advances : b.Advances b')
    (closed : b'.closed = b.closed) (block : b.block = some c) (block' : b'.block = some d)
    (keeps : Keeps c d) (evolves : c.Evolves d) (nextBlock : b'.nextBlock = b.nextBlock) : b.Reshapes b' := by
  obtain ⟨-, grows⟩ := advances proper
  refine ⟨?_, ⟨c, d, block, block', keeps, evolves⟩, grows.slots, grows.params, grows.nextReg, nextBlock⟩
  rw [closed]
  exact forall₂_same.mpr fun c _ => ⟨.refl c, keeps_refl c⟩

theorem Placed.push (h : b.Placed filled labels) (isOpen : b.IsOpen) (advances : b.Advances b')
    (plain : i.isSlot = false) (function : b'.function = b.function) (block : b'.block = b.block.map (·.push i))
    (nextBlock : b'.nextBlock = b.nextBlock) (operands : ∀ r ∈ i.op.operands, b.Usable filled r) :
    b'.Placed filled labels ∧ b.Reshapes b' ∧ b'.IsOpen := by
  obtain ⟨c, hc, ended⟩ := isOpen
  have current : b'.block = some (c.push i) := by rw [block, hc]; rfl
  have evolves : c.Evolves (c.push i) := ⟨rfl, by rw [Block.code_push plain]; exact prefix_append _ _, fun _ h => h⟩
  have keeps : Keeps c (c.push i) := ⟨rfl, by rw [Block.results_push]; exact subset_append_left _ _⟩
  have shape : b.Reshapes b' :=
    reshapes_of_advances h.proper advances (by rw [Builder.closed, Builder.closed, function]) hc current keeps
      evolves nextBlock
  refine ⟨h.reshape shape (advances h.proper).1 ?_ ?_, shape, _, current, ended⟩
  · intro d block'
    obtain rfl : c.push i = d := some.inj (current ▸ block')
    rw [Block.code_push plain]
    refine ((h.reads c (mem_entered_of_block hc)).mono ?_).snoc fun r mem => ?_
    · exact fun r filled => filled.imp_right shape.isSlotReg
    · obtain ⟨-, c', same, entry | slot | code⟩ := operands r mem
      all_goals obtain rfl : c = c' := some.inj (hc ▸ same)
      · exact .inl (.inl entry)
      · exact .inl (.inr (shape.isSlotReg slot))
      · exact .inr code
  · intro d t block' terminator
    obtain rfl : c.push i = d := some.inj (current ▸ block')
    exact absurd (ended.symm.trans terminator) (by simp)

theorem usable_push (hc : b.block = some c) (plain : i.isSlot = false) (block : b'.block = b.block.map (·.push i))
    (result : i.result = some r) (below : r < b'.nextReg) : b'.Usable filled r := by
  refine ⟨below, c.push i, by rw [block, hc]; rfl, .inr (.inr ?_)⟩
  rw [Block.code_push plain, filterMap_append]
  simp [result]

theorem Placed.alloca (h : b.Placed filled labels) (type : Ty) :
    (b.alloca type).2.Placed filled labels ∧ b.Reshapes (b.alloca type).2 ∧
      (b.IsOpen → (b.alloca type).2.IsOpen) := by
  obtain ⟨f, hf⟩ := h.proper.function
  obtain ⟨c, hc⟩ := h.proper.block
  obtain ⟨first, rest, entered, laid⟩ := h.proper.laid
  obtain ⟨proper, grows⟩ := advances_alloca type h.proper
  have left : b.closed = f.closed := by rw [Builder.closed, hf]; rfl
  have blocks : b.entered = f.closed ++ [c] := by rw [entered_of_block hc, left]
  have stays := stays_insertAt laid (i := ⟨some b.nextReg, .alloca type⟩) rfl
  have keeps : Keeps first (insertAt b.slotCount ⟨some b.nextReg, .alloca type⟩ first) :=
    ⟨rfl, fun r mem => laid.insertAt_results.symm.subset (mem_append_left _ mem)⟩
  -- where the first block stands decides whether the current one is changed
  have moved : Forall₂ (fun c d => c.Stays d ∧ Keeps c d) b.closed (b.alloca type).2.closed ∧
      ∃ d, (b.alloca type).2.block = some d ∧ Keeps c d ∧ c.Stays d := by
    obtain ⟨first', rest', closed, function, block⟩ | ⟨closed, function, block⟩ := alloca_cases hf hc type
    · obtain rfl : first = first' := by
        rw [blocks, closed] at entered
        exact (cons.inj entered).1.symm
      refine ⟨?_, c, block, keeps_refl c, .refl c⟩
      rw [left, closed, Builder.closed, function]
      exact .cons ⟨stays, keeps⟩ (forall₂_same.mpr fun c _ => ⟨.refl c, keeps_refl c⟩)
    · obtain rfl : first = c := by
        rw [blocks, closed] at entered
        exact (cons.inj entered).1.symm
      refine ⟨?_, _, block, keeps, stays⟩
      rw [left, Builder.closed, function]
      exact forall₂_same.mpr fun c _ => ⟨.refl c, keeps_refl c⟩
  obtain ⟨closed, d, block, keeps', stays'⟩ := moved
  have shape : b.Reshapes (b.alloca type).2 :=
    ⟨closed, ⟨c, d, hc, block, keeps', stays'.evolves⟩, grows.slots, grows.params, grows.nextReg, (alloca_rest type).1⟩
  refine ⟨h.reshape shape proper ?_ ?_, shape, ?_⟩
  · intro e block'
    obtain rfl : d = e := some.inj (block ▸ block')
    rw [stays'.id, stays'.code]
    refine (h.reads c (mem_entered_of_block hc)).mono ?_
    exact fun r filled => filled.imp_right shape.isSlotReg
  · intro e t block' terminator
    obtain rfl : d = e := some.inj (block ▸ block')
    rw [stays'.terminator] at terminator
    refine (h.current c t hc terminator).stays stays' (fun _ => shape.isSlotReg) ?_
    exact Nat.le_of_eq shape.nextBlock.symm
  · rintro ⟨c', same, ended⟩
    obtain rfl : c = c' := some.inj (hc ▸ same)
    exact ⟨d, block, stays'.terminator.trans ended⟩

theorem alloca_isSlotReg (proper : b.Proper) (type : Ty) : (b.alloca type).2.IsSlotReg b.nextReg := by
  obtain ⟨f, hf⟩ := proper.function
  obtain ⟨c, hc⟩ := proper.block
  obtain ⟨first, rest, entered, laid⟩ := proper.laid
  have head : ∃ rest', (b.alloca type).2.entered =
      insertAt b.slotCount ⟨some b.nextReg, .alloca type⟩ first :: rest' := by
    rw [entered_of_block hc, Builder.closed, hf] at entered
    obtain ⟨first', rest', closed, function, block⟩ | ⟨closed, function, block⟩ := alloca_cases hf hc type
    · simp only [map_some, getD_some, closed] at entered
      obtain ⟨rfl, -⟩ := cons.inj entered
      exact ⟨_, by rw [entered_of_block block, Builder.closed, function]; rfl⟩
    · simp only [map_some, getD_some, closed] at entered
      obtain ⟨rfl, -⟩ := cons.inj entered
      exact ⟨[], by rw [entered_of_block block, Builder.closed, function]; simp [closed]⟩
  obtain ⟨rest', head⟩ := head
  rw [IsSlotReg, slotList, head]
  simp only [head?_cons, map_some, getD_some]
  rw [laid.insertAt_slots rfl]
  simp

theorem usable_alloca (h : b.Placed filled labels) (type : Ty) : (b.alloca type).2.Usable filled b.nextReg := by
  obtain ⟨c, hc⟩ := (advances_alloca type h.proper).1.block
  refine ⟨?_, c, hc, .inr (.inl (alloca_isSlotReg h.proper type))⟩
  rw [alloca_nextReg]
  exact Nat.lt_succ_self _

/-! ## Terminators -/

def Admits (b : Builder) (filled : BlockId → Reg → Prop) (labels : List BlockId) (id : BlockId) :
    Prop :=
  (0 < id ∧ id < b.nextBlock) ∧ (id ∈ labels ∨ ∀ r, filled id r → b.Usable filled r)

theorem terminate_block (hc : b.block = some c) (t : Terminator) : (b.terminate t).block = some (c.close t) := by
  rw [Builder.terminate, hc]
  rfl

theorem reshapes_terminate (proper : b.Proper) (t : Terminator) : b.Reshapes (b.terminate t) := by
  obtain ⟨c, hc⟩ := proper.block
  exact reshapes_of_advances proper (advances_terminate t) rfl hc (terminate_block hc t)
    ⟨rfl, Subset.refl _⟩ (evolves_close c t) rfl

theorem Placed.terminate (h : b.Placed filled labels) (isOpen : b.IsOpen)
    (operands : ∀ r ∈ t.operands, b.Usable filled r) (targets : ∀ d ∈ t.successors, b.Admits filled labels d) :
    (b.terminate t).Placed filled labels ∧ ¬ (b.terminate t).IsOpen := by
  obtain ⟨c, hc, ended⟩ := isOpen
  have shape := reshapes_terminate h.proper t
  have block := terminate_block hc t
  have closes : (c.close t).terminator = some t := by rw [Block.close, ended]; rfl
  have fills {r : Reg} (usable : b.Usable filled r) :
      (c.close t).Fills (filled c.id) (b.terminate t).IsSlotReg r := by
    obtain ⟨-, d, same, fills⟩ := shape.usable usable
    obtain rfl : c.close t = d := some.inj (block ▸ same)
    exact fills
  refine ⟨h.reshape shape (advances_terminate t h.proper).1 ?_ ?_, ?_⟩
  · intro d block'
    obtain rfl : c.close t = d := some.inj (block ▸ block')
    refine (h.reads c (mem_entered_of_block hc)).mono ?_
    exact fun r filled => filled.imp_right shape.isSlotReg
  · intro d t' block' terminator
    obtain rfl : c.close t = d := some.inj (block ▸ block')
    obtain rfl : t = t' := some.inj (closes ▸ terminator)
    refine ⟨fun r mem => fills (operands r mem), fun d mem => (targets d mem).1, fun d mem => ?_⟩
    obtain label | enough := (targets d mem).2
    · exact .inl ⟨label, (by simp)⟩
    · exact .inr fun r full => fills (enough r full)
  · rintro ⟨d, block', terminator⟩
    obtain rfl : c.close t = d := some.inj (block ▸ block')
    exact absurd (closes.symm.trans terminator) (by simp)

/-! ## Blocks -/

theorem Placed.recertify (h : b.Placed filled labels) (same : ∀ c ∈ b.entered, filled' c.id = filled c.id)
    (others : ∀ d, 0 < d → d < b.nextBlock → filled' d = filled d ∨ (d ∈ labels ∧ b.Pending d)) :
    b.Placed filled' labels := by
  obtain ⟨first, rest, entered, laid⟩ := h.proper.laid
  have zero : filled' 0 = filled 0 := by
    have := same first (by rw [entered]; exact mem_cons_self)
    rwa [laid.id] at this
  have leaves {c : Block} {next : Option BlockId} {t : Terminator} (mem : c ∈ b.entered)
      (h : c.Leaves filled labels b.IsSlotReg b.nextBlock next t)
      (next_entered : ∀ id, next = some id → id ∈ b.entered.map (·.id)) :
      c.Leaves filled' labels b.IsSlotReg b.nextBlock next t := by
    refine h.congr (same c mem) fun d mem => ?_
    obtain kept | ⟨label, pending⟩ := others d (h.bounds d mem).1 (h.bounds d mem).2
    · exact .inr kept
    · exact .inl ⟨label, fun next => pending.2 (next_entered d next)⟩
  refine ⟨h.proper, h.ids, h.created, zero ▸ h.entry, ?_, ?_, ?_, ?_⟩
  · intro c mem
    rw [same c mem]
    exact h.reads c mem
  · intro front c back split
    rw [same c (by rw [split]; simp)]
    exact h.origins front c back split
  · intro front c back split
    obtain ⟨t, terminator, left⟩ := h.closed front c back split
    refine ⟨t, terminator, leaves (mem_entered_of_closed (by rw [split]; simp)) left ?_⟩
    intro id next
    obtain ⟨d, head, rfl⟩ := map_eq_some_iff.mp next
    refine mem_map_of_mem ?_
    have mem := mem_of_head? head
    rw [Builder.entered, split]
    simp only [mem_append, mem_cons] at mem ⊢
    exact mem.imp_left fun mem => .inr (.inr mem)
  · intro c t block terminator
    exact leaves (mem_entered_of_block block) (h.current c t block terminator) (by simp)

theorem usable_congr (same : ∀ c ∈ b.entered, filled' c.id = filled c.id) (r : Reg) :
    b.Usable filled' r ↔ b.Usable filled r := by
  have iff (c : Block) : b.block = some c ∧ c.Fills (filled' c.id) b.IsSlotReg r ↔
      b.block = some c ∧ c.Fills (filled c.id) b.IsSlotReg r := by
    refine and_congr_right fun block => ?_
    rw [same c (mem_entered_of_block block)]
  simp only [Usable, iff]

theorem Placed.createBlock (h : b.Placed filled labels) (label : String) (atEntry : Reg → Prop) :
    (b.createBlock label).2.Placed (Function.update filled b.nextBlock atEntry) labels ∧
      ∀ r, (b.createBlock label).2.Usable (Function.update filled b.nextBlock atEntry) r ↔ b.Usable filled r := by
  have same (c : Block) (mem : c ∈ b.entered) : Function.update filled b.nextBlock atEntry c.id = filled c.id :=
    Function.update_of_ne (Nat.ne_of_lt (h.created c mem)) _ _
  have certified : b.Placed (Function.update filled b.nextBlock atEntry) labels :=
    h.recertify same fun d _ below => .inl (Function.update_of_ne (Nat.ne_of_lt below) _ _)
  refine ⟨⟨(advances_createBlock label h.proper).1, certified.ids, ?_, certified.entry,
    certified.reads, certified.origins, ?_, ?_⟩, usable_congr same⟩
  · exact fun c mem => Nat.lt_succ_of_lt (certified.created c mem)
  · intro front c back split
    obtain ⟨t, terminator, leaves⟩ := certified.closed front c back split
    exact ⟨t, terminator, leaves.stays (.refl c) (fun _ => id) (Nat.le_succ _)⟩
  · intro c t block terminator
    exact (certified.current c t block terminator).stays (.refl c) (fun _ => id) (Nat.le_succ _)

theorem pending_createBlock (h : b.Placed filled labels) (label : String) (id : BlockId) :
    (b.createBlock label).2.Pending id ↔ b.Pending id ∨ id = b.nextBlock := by
  have fresh : b.nextBlock ∉ b.entered.map (·.id) := by
    intro mem
    obtain ⟨c, mem, same⟩ := mem_map.mp mem
    exact Nat.lt_irrefl _ (same ▸ h.created c mem)
  constructor
  · rintro ⟨below, absent⟩
    exact (Nat.lt_succ_iff_lt_or_eq.mp below).imp (fun below => ⟨below, absent⟩) fun same => same
  · rintro (⟨below, absent⟩ | rfl)
    · exact ⟨Nat.lt_succ_of_lt below, absent⟩
    · exact ⟨Nat.lt_succ_self _, fresh⟩

theorem Placed.relabel (h : b.Placed filled labels) {id : BlockId} (pending : b.Pending id)
    (label : id ∈ labels) (atEntry : Reg → Prop) :
    b.Placed (Function.update filled id atEntry) labels ∧
      ∀ r, b.Usable (Function.update filled id atEntry) r ↔ b.Usable filled r := by
  have same (c : Block) (mem : c ∈ b.entered) :
      Function.update filled id atEntry c.id = filled c.id := by
    refine Function.update_of_ne (fun same => pending.2 ?_) _ _
    rw [← same]
    exact mem_map_of_mem mem
  refine ⟨h.recertify same fun d _ _ => ?_, usable_congr same⟩
  by_cases here : d = id
  · exact .inr (here ▸ ⟨label, pending⟩)
  · exact .inl (Function.update_of_ne here _ _)

theorem Proper.origin (proper : b.Proper) (below : r < b.nextReg) :
    r ∈ b.params.map (·.1) ∨ r ∈ b.entered.flatMap Block.results :=
  mem_append.mp (proper.results.symm.subset (mem_range.mpr below))

theorem Placed.enter {id : BlockId} (h : (b.terminate (.br id)).Placed filled labels) (proper : b.Proper)
    (pending : b.Pending id) (below : ∀ r, filled id r → r < b.nextReg) (hc : b.block = some c)
    (terminator : (c.close (.br id)).terminator = some t)
    (leaves : (c.close (.br id)).Leaves filled labels (b.terminate (.br id)).IsSlotReg b.nextBlock (some id) t) :
    (b.setBlock id).Placed filled labels := by
  obtain ⟨f, hf⟩ := proper.function
  obtain ⟨closed, block⟩ := setBlock_entered hf hc id
  obtain ⟨proper', grows⟩ := advances_setBlock id proper
  have current := terminate_block hc (.br id)
  have left : (b.setBlock id).closed = (b.terminate (.br id)).entered := by
    rw [closed, entered_of_block current]
    rfl
  have entered : (b.setBlock id).entered =
      (b.terminate (.br id)).entered ++ [⟨id, b.labels.lookup id, [], none⟩] := by
    rw [entered_of_block block, left]
  have slots : (b.setBlock id).slotList = (b.terminate (.br id)).slotList := by
    obtain ⟨first, rest, blocks, -⟩ := h.proper.laid
    rw [slotList, slotList, entered, blocks]
    rfl
  have slot : (b.setBlock id).IsSlotReg = (b.terminate (.br id)).IsSlotReg := by
    funext r
    rw [IsSlotReg, IsSlotReg, slots]
  have params : (b.setBlock id).params = (b.terminate (.br id)).params := grows.params
  refine ⟨proper', ?_, ?_, ?_, ?_, ?_, ?_, ?_⟩
  · rw [entered, map_append, nodup_append]
    refine ⟨h.ids, by simp, fun x mem y mem' same => ?_⟩
    have fresh := pending.2
    rw [← map_id_eq (reshapes_terminate proper (.br id)).entered] at fresh
    rw [map_singleton, mem_singleton] at mem'
    have here : x = id := same.trans mem'
    exact fresh (here ▸ mem)
  · rw [setBlock_nextBlock, entered]
    exact forall_mem_append.mpr ⟨h.created, forall_mem_singleton.mpr pending.1⟩
  · rw [params]
    exact h.entry
  · rw [slot, entered]
    exact forall_mem_append.mpr ⟨h.reads, forall_mem_singleton.mpr trivial⟩
  · intro front d back split r full
    rw [params]
    rw [entered] at split
    obtain rfl | ⟨back, last, rfl⟩ := eq_nil_or_concat back
    · obtain ⟨rfl, same⟩ := append_inj' split rfl
      obtain rfl := (cons.inj same).1
      exact h.proper.origin (below r full)
    · rw [← concat_cons, concat_eq_append, ← append_assoc] at split
      exact h.origins front d back (append_inj' split rfl).1 r full
  · intro front d back split
    rw [left, entered_of_block current] at split
    rw [slot, setBlock_nextBlock, behind, block]
    obtain rfl | ⟨back, last, rfl⟩ := eq_nil_or_concat back
    · obtain ⟨-, same⟩ := append_inj' split rfl
      obtain rfl := (cons.inj same).1
      exact ⟨t, terminator, leaves⟩
    · rw [← concat_cons, concat_eq_append, ← append_assoc] at split
      obtain ⟨before, same⟩ := append_inj' split rfl
      obtain rfl := (cons.inj same).1
      obtain ⟨t, terminator, left⟩ := h.closed front d back before
      refine ⟨t, terminator, ?_⟩
      rw [behind, current] at left
      have head (e : Block) : (back.concat (c.close (.br id)) ++ [e]).head? =
          (back ++ [c.close (.br id)]).head? := by
        cases back <;> rfl
      rw [toList_some, head]
      exact left
  · intro d t' block' terminator'
    obtain rfl := some.inj (block.symm.trans block')
    cases terminator'

variable {id : BlockId}

theorem Placed.setBlock_of_open (h : b.Placed filled labels) (isOpen : b.IsOpen)
    (pending : b.Pending id) (enough : ∀ r, filled id r → b.Usable filled r) :
    (b.setBlock id).Placed filled labels := by
  have target : b.Admits filled labels id := ⟨⟨h.pending_pos pending, pending.1⟩, .inr enough⟩
  have targets : ∀ d ∈ (Terminator.br id).successors, b.Admits filled labels d := fun d mem => by
    rwa [mem_singleton.mp mem]
  obtain ⟨ended, -⟩ := h.terminate (t := .br id) isOpen (by simp [Terminator.operands]) targets
  have shape := reshapes_terminate h.proper (.br id)
  obtain ⟨c, hc, terminator⟩ := isOpen
  have block := terminate_block hc (.br id)
  have closes : (c.close (.br id)).terminator = some (.br id) := by rw [Block.close, terminator]; rfl
  refine ended.enter h.proper pending (fun r full => (enough r full).1) hc closes ⟨(by simp [Terminator.operands]), ?_, ?_⟩
  · exact fun d mem => (targets d mem).1
  · intro d mem
    right
    intro r full
    rw [mem_singleton.mp mem] at full
    obtain ⟨-, d', same, fills⟩ := shape.usable (enough r full)
    obtain rfl : c.close (.br id) = d' := some.inj (block ▸ same)
    exact fills

theorem Placed.setBlock_of_shut (h : b.Placed filled labels) (shut : ¬ b.IsOpen)
    (pending : b.Pending id) (noLabel : id ∉ labels) (below : ∀ r, filled id r → r < b.nextReg) :
    (b.setBlock id).Placed filled labels := by
  obtain ⟨c, hc⟩ := h.proper.block
  obtain ⟨t, terminator⟩ := ne_none_iff_exists'.mp fun none => shut ⟨c, hc, none⟩
  have closes : (c.close (.br id)).terminator = some t := by rw [Block.close, terminator]; rfl
  have stays : c.Stays (c.close (.br id)) := ⟨rfl, rfl, closes.trans terminator.symm⟩
  have shape := reshapes_terminate h.proper (.br id)
  have block := terminate_block hc (.br id)
  have leaves : (c.close (.br id)).Leaves filled labels (b.terminate (.br id)).IsSlotReg
      b.nextBlock none t :=
    (h.current c t hc terminator).stays stays (fun _ => shape.isSlotReg) (Nat.le_refl _)
  have ended : (b.terminate (.br id)).Placed filled labels := by
    refine h.reshape shape (advances_terminate _ h.proper).1 ?_ ?_
    · intro d block'
      obtain rfl : c.close (.br id) = d := some.inj (block ▸ block')
      refine (h.reads c (mem_entered_of_block hc)).mono ?_
      exact fun r filled => filled.imp_right shape.isSlotReg
    · intro d t' block' terminator'
      obtain rfl : c.close (.br id) = d := some.inj (block ▸ block')
      obtain rfl : t = t' := some.inj (closes ▸ terminator')
      exact leaves
  refine ended.enter h.proper pending below hc closes ⟨leaves.operands, leaves.bounds, ?_⟩
  intro d mem
  obtain ⟨label, -⟩ | enough := leaves.edges d mem
  · exact .inl ⟨label, fun same => noLabel (some.inj same ▸ label)⟩
  · exact .inr enough

theorem isOpen_setBlock (proper : b.Proper) : (b.setBlock id).IsOpen := by
  obtain ⟨f, hf⟩ := proper.function
  obtain ⟨c, hc⟩ := proper.block
  exact ⟨_, (setBlock_entered hf hc id).2, rfl⟩

theorem usable_setBlock (proper : b.Proper) (full : filled id r) (below : r < b.nextReg) :
    (b.setBlock id).Usable filled r := by
  obtain ⟨f, hf⟩ := proper.function
  obtain ⟨c, hc⟩ := proper.block
  refine ⟨?_, _, (setBlock_entered hf hc id).2, .inl full⟩
  rwa [setBlock_nextReg]

theorem pending_setBlock (proper : b.Proper) (other : BlockId) :
    (b.setBlock id).Pending other ↔ b.Pending other ∧ other ≠ id := by
  obtain ⟨f, hf⟩ := proper.function
  obtain ⟨c, hc⟩ := proper.block
  obtain ⟨closed, block⟩ := setBlock_entered hf hc id
  rw [Pending, Pending, setBlock_nextBlock, entered_of_block block, closed, entered_of_block hc]
  simp only [map_append, map_cons, map_nil, mem_append, mem_singleton, Block.close, not_or]
  exact and_assoc.symm

/-! ## The beginning -/

def filledAtStart (params : List Ty) (id : BlockId) (r : Reg) : Prop :=
  id = 0 ∧ r ∈ List.range params.length

section

variable (b) (name : String) (params : List Ty) (result : Ty)

theorem placed_startFunction : (b.startFunction name params result).2.Placed (filledAtStart params) [] where
  proper := by
    refine ⟨⟨_, rfl⟩, ⟨_, rfl⟩, ⟨_, [], rfl, rfl, rfl, rfl, (by simp)⟩, ?_⟩
    show (((range params.length).zip params).map Prod.fst ++ []).Perm _
    rw [append_nil, map_fst_zip (Nat.le_of_eq length_range)]
    exact Perm.refl _
  ids := nodup_singleton 0
  created c mem := by
    rw [mem_singleton.mp mem]
    exact Nat.one_pos
  entry r full := by
    show r ∈ ((range params.length).zip params).map Prod.fst
    rw [map_fst_zip (Nat.le_of_eq length_range)]
    exact full.2
  reads c mem := by
    rw [mem_singleton.mp mem]
    trivial
  origins front c back split r full := by
    show r ∈ ((range params.length).zip params).map Prod.fst ∨ _
    rw [map_fst_zip (Nat.le_of_eq length_range)]
    exact .inl full.2
  closed front c back split := by
    have impossible : [] = front ++ c :: back := split
    simp at impossible
  current c t block terminator := by
    obtain rfl := some.inj block
    cases terminator

theorem pending_startFunction (id : BlockId) : ¬ (b.startFunction name params result).2.Pending id := by
  rintro ⟨below, absent⟩
  have zero : id = 0 := Nat.lt_one_iff.mp below
  exact absent (by rw [zero]; exact mem_singleton.mpr rfl)

theorem usable_startFunction
    (mem : r ∈ range params.length) : (b.startFunction name params result).2.Usable (filledAtStart params) r :=
  ⟨mem_range.mp mem, _, rfl, .inl ⟨rfl, mem⟩⟩

end

theorem Placed.anyLabels (h : b.Placed filled []) (labels : List BlockId) : b.Placed filled labels := by
  have leaves {c : Block} {next : Option BlockId} {t : Terminator}
      (h : c.Leaves filled [] b.IsSlotReg b.nextBlock next t) :
      c.Leaves filled labels b.IsSlotReg b.nextBlock next t :=
    { h with edges := fun d mem => (h.edges d mem).imp (fun none => absurd none.1 not_mem_nil) id }
  exact
    { h with
      closed := fun front c back split => by
        obtain ⟨t, terminator, left⟩ := h.closed front c back split
        exact ⟨t, terminator, leaves left⟩
      current := fun c t block terminator => leaves (h.current c t block terminator) }

end Builder

end BasicCompiler.Ir
