/-
# What every step of the builder keeps

Whatever is built in whatever order, the slots of a function stand at the front of its first block and nowhere else,
and every register is filled in one place.
-/
import BasicCompiler.Ir.Builder
import Mathlib.Data.List.Basic
import Mathlib.Data.List.Perm.Basic

namespace BasicCompiler.Ir

open List
open scoped List

/-! ## Slots and code of a block -/

def Instr.isSlot (i : Instr) : Bool :=
  match i.op with
  | .alloca _ => true
  | _ => false

namespace Block

def slots (b : Block) : List Instr := b.instrs.filter (·.isSlot)

/-- The instructions that are not slots. -/
def code (b : Block) : List Instr := b.instrs.filter (!·.isSlot)

def results (b : Block) : List Reg := b.instrs.filterMap (·.result)

def push (b : Block) (i : Instr) : Block := { b with instrs := b.instrs ++ [i] }

def close (b : Block) (t : Terminator) : Block := { b with terminator := b.terminator.or (some t) }

variable {b : Block}

theorem slots_push (plain : i.isSlot = false) : (b.push i).slots = b.slots := by
  simp [slots, push, plain]

theorem code_push (plain : i.isSlot = false) : (b.push i).code = b.code ++ [i] := by
  simp [code, push, plain]

theorem results_push : (b.push i).results = b.results ++ i.result.toList := by
  cases h : i.result <;> simp [results, push, h]

end Block

/-! ## The blocks of the function at work -/

namespace Builder

def closed (b : Builder) : List Block := (b.function.map (·.closed)).getD []

def params (b : Builder) : List (Reg × Ty) := (b.function.map (·.params)).getD []

/-- All blocks that have been entered. -/
def entered (b : Builder) : List Block := b.closed ++ b.block.toList

end Builder

/-- The first block has the number 0, its slots stand before its code, and no other
block has a slot. -/
structure Laid (slotCount : Nat) (first : Block) (rest : List Block) : Prop where
  id : first.id = 0
  instrs : first.instrs = first.slots ++ first.code
  slots : first.slots.length = slotCount
  others : ∀ c ∈ rest, c.slots = []

theorem insertIdx_length (front back : List Instr) (i : Instr) :
    (front ++ back).insertIdx front.length i = front ++ i :: back := by
  induction front with
  | nil => rfl
  | cons j front ih => simp [ih]

variable {c : Block}

namespace Laid

section

variable (laid : Laid n first rest)
include laid

theorem snoc (plain : c.slots = []) : Laid n first (rest ++ [c]) where
  id := laid.id
  instrs := laid.instrs
  slots := laid.slots
  others := forall_mem_append.mpr ⟨laid.others, forall_mem_singleton.mpr plain⟩

theorem push_first (plain : i.isSlot = false) : Laid n (first.push i) rest where
  id := laid.id
  instrs := by
    rw [Block.slots_push plain, Block.code_push plain, ← append_assoc, ← laid.instrs]
    rfl
  slots := by rw [Block.slots_push plain, laid.slots]
  others := laid.others

theorem insertAt_instrs : (Builder.insertAt n i first).instrs = first.slots ++ i :: first.code := by
  have shape := insertIdx_length first.slots first.code i
  rw [← laid.instrs, laid.slots] at shape
  exact shape

theorem insertAt_slots (slot : i.isSlot = true) : (Builder.insertAt n i first).slots = first.slots ++ [i] := by
  rw [Block.slots, laid.insertAt_instrs]
  simp [Block.slots, Block.code, slot, filter_filter]

theorem insertAt_code (slot : i.isSlot = true) : (Builder.insertAt n i first).code = first.code := by
  rw [Block.code, laid.insertAt_instrs]
  simp [Block.slots, Block.code, slot, filter_filter]

theorem insertAt_results : (Builder.insertAt n i first).results.Perm (first.results ++ i.result.toList) := by
  have before : first.results = first.slots.filterMap (·.result) ++
      first.code.filterMap (·.result) := by
    rw [← filterMap_append, ← laid.instrs]
    rfl
  have after : (Builder.insertAt n i first).results = first.slots.filterMap (·.result) ++
      (i.result.toList ++ first.code.filterMap (·.result)) := by
    rw [Block.results, laid.insertAt_instrs, filterMap_append]
    cases h : i.result <;> simp [h]
  rw [before, after, append_assoc]
  exact Perm.append_left _ perm_append_comm

theorem insertAt (slot : i.isSlot = true) : Laid (n + 1) (Builder.insertAt n i first) rest where
  id := laid.id
  instrs := by
    rw [laid.insertAt_instrs, laid.insertAt_slots slot, laid.insertAt_code slot]
    simp
  slots := by rw [laid.insertAt_slots slot, length_append, laid.slots]; rfl
  others := laid.others

end

end Laid

/-! ## What is kept -/

/-- There is a function at work, its blocks are laid out, and each register that was
ever asked for is a parameter or filled in one place. -/
structure Builder.Proper (b : Builder) : Prop where
  function : ∃ f, b.function = some f
  block : ∃ c, b.block = some c
  laid : ∃ first rest, b.entered = first :: rest ∧ Laid b.slotCount first rest
  results : (b.params.map (·.1) ++ b.entered.flatMap Block.results).Perm (List.range b.nextReg)

/-- The same block, as far as control can see. -/
structure Block.Stays (c d : Block) : Prop where
  id : d.id = c.id
  code : d.code = c.code
  terminator : d.terminator = c.terminator

/-- The same block, maybe with more in it. -/
structure Block.Evolves (c d : Block) : Prop where
  id : d.id = c.id
  code : c.code <+: d.code
  terminator : ∀ t, c.terminator = some t → d.terminator = some t

namespace Block

theorem Stays.refl (c : Block) : c.Stays c := ⟨rfl, rfl, rfl⟩

theorem Stays.trans (cd : c.Stays d) (de : d.Stays e) : c.Stays e :=
  ⟨de.id.trans cd.id, de.code.trans cd.code, de.terminator.trans cd.terminator⟩

theorem Stays.evolves (h : c.Stays d) : c.Evolves d :=
  ⟨h.id, h.code ▸ prefix_rfl, fun _ same => h.terminator.trans same⟩

theorem Evolves.refl (c : Block) : c.Evolves c := (Stays.refl c).evolves

theorem Evolves.trans (cd : c.Evolves d) (de : d.Evolves e) : c.Evolves e :=
  ⟨de.id.trans cd.id, cd.code.trans de.code, fun t h => de.terminator t (cd.terminator t h)⟩

end Block

def Builder.slotList (b : Builder) : List Instr := (b.entered.head?.map Block.slots).getD []

structure Builder.Grows (b b' : Builder) : Prop where
  closed : ∀ c ∈ b.closed, ∃ d ∈ b'.closed, c.Stays d
  current : ∀ c, b.block = some c → ∃ d ∈ b'.entered, c.Evolves d
  slots : b.slotList <+: b'.slotList
  params : b'.params = b.params
  nextReg : b.nextReg ≤ b'.nextReg
  nextBlock : b.nextBlock ≤ b'.nextBlock
  globals : b.module.globals <+: b'.module.globals
  /-- The name and the result of the function at work. -/
  heading : b'.function.map (fun f => (f.name, f.result)) = b.function.map fun f => (f.name, f.result)
  functions : b'.module.functions = b.module.functions

namespace Builder

variable {b : Builder}

theorem mem_entered_of_closed (h : c ∈ b.closed) : c ∈ b.entered := mem_append_left _ h

theorem mem_entered_of_block (h : b.block = some c) : c ∈ b.entered := mem_append_right _ (by simp [h])

theorem mem_entered (h : c ∈ b.entered) : c ∈ b.closed ∨ b.block = some c := by
  obtain h | h := mem_append.mp h
  · exact .inl h
  · exact .inr (by simpa using h)

theorem Grows.refl (b : Builder) : b.Grows b where
  closed c mem := ⟨c, mem, .refl c⟩
  current c h := ⟨c, mem_entered_of_block h, .refl c⟩
  slots := prefix_rfl
  params := rfl
  nextReg := Nat.le_refl _
  nextBlock := Nat.le_refl _
  globals := prefix_rfl
  heading := rfl
  functions := rfl

theorem Grows.entered (h : b.Grows b') (mem : c ∈ b.entered) : ∃ d ∈ b'.entered, c.Evolves d := by
  obtain mem | current := mem_entered mem
  · obtain ⟨d, mem', stays⟩ := h.closed c mem
    exact ⟨d, mem_entered_of_closed mem', stays.evolves⟩
  · exact h.current c current

theorem Grows.trans (h : b.Grows b') (h' : b'.Grows b'') : b.Grows b'' where
  closed c mem := by
    obtain ⟨d, mem', stays⟩ := h.closed c mem
    obtain ⟨e, mem'', stays'⟩ := h'.closed d mem'
    exact ⟨e, mem'', stays.trans stays'⟩
  current c block := by
    obtain ⟨d, mem', evolves⟩ := h.current c block
    obtain ⟨e, mem'', evolves'⟩ := h'.entered mem'
    exact ⟨e, mem'', evolves.trans evolves'⟩
  slots := h.slots.trans h'.slots
  params := h'.params.trans h.params
  nextReg := Nat.le_trans h.nextReg h'.nextReg
  nextBlock := Nat.le_trans h.nextBlock h'.nextBlock
  globals := h.globals.trans h'.globals
  heading := h'.heading.trans h.heading
  functions := h'.functions.trans h.functions

def Advances (b b' : Builder) : Prop := b.Proper → b'.Proper ∧ b.Grows b'

theorem Advances.refl (b : Builder) : b.Advances b := fun proper => ⟨proper, .refl b⟩

theorem Advances.trans (h : b.Advances b') (h' : b'.Advances b'') : b.Advances b'' := by
  intro proper
  obtain ⟨proper', grows⟩ := h proper
  obtain ⟨proper'', grows'⟩ := h' proper'
  exact ⟨proper'', grows.trans grows'⟩

/-! ## The steps of the builder -/

theorem entered_of_block (h : b.block = some c) : b.entered = b.closed ++ [c] := by
  rw [entered, h]
  rfl

theorem laid_change {closed rest : List Block} (entered : closed ++ [c] = first :: rest) (laid : Laid n first rest)
    (slots : d.slots = c.slots) (whole : Laid n c [] → Laid n d []) :
    ∃ first' rest', closed ++ [d] = first' :: rest' ∧ Laid n first' rest' ∧ first'.slots = first.slots := by
  cases closed with
  | nil =>
    obtain ⟨rfl, rfl⟩ := cons.inj entered
    exact ⟨d, [], rfl, whole laid, slots⟩
  | cons e closed =>
    obtain ⟨rfl, rfl⟩ := cons.inj entered
    obtain ⟨others, last⟩ := forall_mem_append.mp laid.others
    have plain : d.slots = [] := slots.trans (last c (mem_singleton_self c))
    exact ⟨e, closed ++ [d], rfl,
      ⟨laid.id, laid.instrs, laid.slots, forall_mem_append.mpr ⟨others, forall_mem_singleton.mpr plain⟩⟩, rfl⟩

theorem advances_push {i : Instr} (plain : i.isSlot = false)
    (function : b'.function = b.function) (block : b'.block = b.block.map (·.push i))
    (slotCount : b'.slotCount = b.slotCount) (nextBlock : b'.nextBlock = b.nextBlock)
    (globals : b.module.globals <+: b'.module.globals) (functions : b'.module.functions = b.module.functions)
    (result : range b'.nextReg = range b.nextReg ++ i.result.toList) : b.Advances b' := by
  rintro ⟨⟨f, hf⟩, ⟨c, hc⟩, ⟨first, rest, entered, laid⟩, results⟩
  have current : b'.block = some (c.push i) := by rw [block, hc]; rfl
  have same : b'.closed = b.closed := by rw [closed, closed, function]
  have params : b'.params = b.params := by rw [Builder.params, Builder.params, function]
  have evolves : c.Evolves (c.push i) := ⟨rfl, by rw [Block.code_push plain]; exact prefix_append _ _, fun _ h => h⟩
  rw [entered_of_block hc] at entered
  obtain ⟨first', rest', entered', laid', slots⟩ :=
    laid_change entered laid (Block.slots_push plain) fun laid => laid.push_first plain
  have after : b'.entered = first' :: rest' := by rw [entered_of_block current, same, entered']
  refine ⟨⟨⟨f, function.trans hf⟩, ⟨_, current⟩, ⟨first', rest', after, slotCount ▸ laid'⟩, ?_⟩,
    ⟨?_, ?_, ?_, params, ?_, nextBlock ▸ Nat.le_refl _, globals, congrArg _ function, functions⟩⟩
  · rw [params, entered_of_block current, same, result, flatMap_append, flatMap_singleton,
      Block.results_push, ← append_assoc, ← append_assoc]
    refine Perm.append_right _ ?_
    rwa [entered_of_block hc, flatMap_append, flatMap_singleton, ← append_assoc]
      at results
  · intro d mem
    exact ⟨d, same ▸ mem, .refl d⟩
  · intro d h
    obtain rfl : c = d := Option.some.inj (hc ▸ h)
    exact ⟨_, mem_entered_of_block current, evolves⟩
  · rw [slotList, slotList, after, entered_of_block hc, entered]
    simp [slots]
  · have := congrArg length result
    simp only [length_range, length_append] at this
    exact this ▸ Nat.le_add_right _ _

theorem advances_emit (op : Op) (plain : (Instr.mk none op).isSlot = false) : b.Advances (b.emit op).2 :=
  advances_push (i := ⟨some b.nextReg, op⟩) plain rfl rfl rfl rfl prefix_rfl rfl
    range_succ

theorem advances_perform (op : Op) (plain : (Instr.mk none op).isSlot = false) : b.Advances (b.perform op) :=
  advances_push (i := ⟨none, op⟩) plain rfl rfl rfl rfl prefix_rfl rfl
    (by simp [perform, append])

theorem advances_stringConstant (text : String) : b.Advances (b.stringConstant text).2 :=
  advances_push (i := ⟨some b.nextReg, _⟩) rfl rfl rfl rfl rfl (prefix_append _ _) rfl
    range_succ

theorem advances_createBlock (label : String) : b.Advances (b.createBlock label).2 := by
  rintro ⟨function, block, laid, results⟩
  refine ⟨⟨function, block, laid, results⟩, ?_⟩
  exact { Grows.refl b with nextBlock := Nat.le_succ _ }

theorem evolves_close (c : Block) (t : Terminator) : c.Evolves (c.close t) :=
  ⟨rfl, prefix_rfl, fun u h => by simp [Block.close, h]⟩

theorem advances_terminate (t : Terminator) : b.Advances (b.terminate t) := by
  rintro ⟨function, ⟨c, hc⟩, ⟨first, rest, entered, laid⟩, results⟩
  have current : (b.terminate t).block = some (c.close t) := by
    rw [terminate, hc]
    rfl
  have closed : (b.terminate t).closed = b.closed := rfl
  rw [entered_of_block hc] at entered
  obtain ⟨first', rest', entered', laid', slots⟩ :=
    laid_change (d := c.close t) entered laid rfl
      fun laid => ⟨laid.id, laid.instrs, laid.slots, laid.others⟩
  have after : (b.terminate t).entered = first' :: rest' := by
    rw [entered_of_block current, closed, entered']
  refine ⟨⟨function, ⟨_, current⟩, ⟨first', rest', after, laid'⟩, ?_⟩,
    { Grows.refl b with closed := ?_, current := ?_, slots := ?_ }⟩
  · rw [entered_of_block hc, flatMap_append] at results
    rw [entered_of_block current, flatMap_append]
    exact results
  · intro d mem
    exact ⟨d, mem, .refl d⟩
  · intro d h
    obtain rfl : c = d := Option.some.inj (hc ▸ h)
    exact ⟨_, mem_entered_of_block current, evolves_close c t⟩
  · rw [slotList, slotList, after, entered_of_block hc, entered]
    simp [slots]

section

variable (function : b.function = some f) (block : b.block = some c) (id : BlockId)
include function block

theorem setBlock_entered : (b.setBlock id).closed = b.closed ++ [c.close (.br id)] ∧
      (b.setBlock id).block = some ⟨id, b.labels.lookup id, [], none⟩ := by
  simp [setBlock, terminate, closeBlock, closed, function, block, Block.close]

theorem setBlock_function : (b.setBlock id).function = some { f with closed := f.closed ++ [c.close (.br id)] } := by
  simp [setBlock, terminate, closeBlock, function, block, Block.close]

end

@[simp] theorem closeBlock_nextReg : b.closeBlock.nextReg = b.nextReg := by
  unfold closeBlock
  split <;> rfl

@[simp] theorem closeBlock_nextBlock : b.closeBlock.nextBlock = b.nextBlock := by
  unfold closeBlock
  split <;> rfl

@[simp] theorem closeBlock_slotCount : b.closeBlock.slotCount = b.slotCount := by
  unfold closeBlock
  split <;> rfl

@[simp] theorem closeBlock_module : b.closeBlock.module = b.module := by
  unfold closeBlock
  split <;> rfl

@[simp] theorem setBlock_nextReg (id : BlockId) : (b.setBlock id).nextReg = b.nextReg := closeBlock_nextReg

@[simp] theorem setBlock_nextBlock (id : BlockId) : (b.setBlock id).nextBlock = b.nextBlock := closeBlock_nextBlock

@[simp] theorem setBlock_slotCount (id : BlockId) : (b.setBlock id).slotCount = b.slotCount := closeBlock_slotCount

@[simp] theorem setBlock_module (id : BlockId) : (b.setBlock id).module = b.module := closeBlock_module

theorem advances_setBlock (id : BlockId) : b.Advances (b.setBlock id) := by
  intro proper
  obtain ⟨f, hf⟩ := proper.function
  obtain ⟨c, hc⟩ := proper.block
  obtain ⟨⟨-, -, ⟨first, rest, entered, laid⟩, results⟩, grows⟩ := advances_terminate (.br id) proper
  have current : (b.terminate (.br id)).block = some (c.close (.br id)) := by
    rw [terminate, hc]
    rfl
  obtain ⟨closed, block⟩ := setBlock_entered hf hc id
  have function := setBlock_function hf hc id
  have params : (b.setBlock id).params = b.params := by
    rw [Builder.params, Builder.params, function, hf]
    rfl
  -- the blocks entered before are those that have been left now
  have left : (b.setBlock id).closed = (b.terminate (.br id)).entered := by
    rw [closed, entered_of_block current]
    rfl
  have after : (b.setBlock id).entered = first :: (rest ++ [⟨id, b.labels.lookup id, [], none⟩]) := by
    rw [entered_of_block block, left, entered]
    rfl
  refine ⟨⟨⟨_, function⟩, ⟨_, block⟩, ⟨first, _, after, ?_⟩, ?_⟩, ⟨?_, ?_, ?_, params, ?_, ?_, ?_, ?_, ?_⟩⟩
  · rw [setBlock_slotCount]
    exact laid.snoc rfl
  · rw [params, setBlock_nextReg, entered_of_block block, left, flatMap_append]
    simp only [flatMap_singleton, Block.results, filterMap_nil, append_nil]
    exact results
  · intro d mem
    obtain ⟨e, mem', stays⟩ := grows.closed d mem
    exact ⟨e, left ▸ mem_entered_of_closed mem', stays⟩
  · intro d h
    obtain ⟨e, mem', evolves⟩ := grows.current d h
    exact ⟨e, mem_entered_of_closed (left ▸ mem'), evolves⟩
  · refine grows.slots.trans ?_
    rw [slotList, slotList, after, entered]
    exact prefix_rfl
  · exact Nat.le_of_eq (setBlock_nextReg id).symm
  · exact Nat.le_of_eq (setBlock_nextBlock id).symm
  · exact setBlock_module (b := b) id ▸ prefix_rfl
  · rw [function, hf]
    rfl
  · rw [setBlock_module]

theorem alloca_cases (hf : b.function = some f) (hc : b.block = some c) (type : Ty) :
    (∃ first rest, f.closed = first :: rest ∧
      (b.alloca type).2.function = some { f with
        closed := insertAt b.slotCount ⟨some b.nextReg, .alloca type⟩ first :: rest } ∧
      (b.alloca type).2.block = some c) ∨
    f.closed = [] ∧ (b.alloca type).2.function = some f ∧
      (b.alloca type).2.block = some (insertAt b.slotCount ⟨some b.nextReg, .alloca type⟩ c) := by
  cases closed : f.closed with
  | nil => right; simp [alloca, freshReg, hf, hc, closed]
  | cons first rest => left; exact ⟨first, rest, rfl, by simp [alloca, freshReg, hf, hc, closed]⟩

theorem alloca_counts (b : Builder) (type : Ty) :
    (b.alloca type).1 = b.nextReg ∧ (b.alloca type).2.nextReg = b.nextReg + 1 ∧
      (b.alloca type).2.slotCount = b.slotCount + 1 := by
  simp only [alloca, freshReg]
  split
  · split <;> exact ⟨rfl, rfl, rfl⟩
  · exact ⟨rfl, rfl, rfl⟩

@[simp] theorem alloca_fst (b : Builder) (type : Ty) : (b.alloca type).1 = b.nextReg := (b.alloca_counts type).1

@[simp] theorem alloca_nextReg (b : Builder) (type : Ty) :
    (b.alloca type).2.nextReg = b.nextReg + 1 := (b.alloca_counts type).2.1

@[simp] theorem alloca_slotCount (b : Builder) (type : Ty) :
    (b.alloca type).2.slotCount = b.slotCount + 1 := (b.alloca_counts type).2.2

theorem alloca_rest (type : Ty) : (b.alloca type).2.nextBlock = b.nextBlock ∧ (b.alloca type).2.module = b.module := by
  simp only [alloca, freshReg]
  split
  · split <;> exact ⟨rfl, rfl⟩
  · exact ⟨rfl, rfl⟩

theorem stays_insertAt (laid : Laid n first rest) (slot : i.isSlot = true) : first.Stays (insertAt n i first) :=
  ⟨rfl, laid.insertAt_code slot, rfl⟩

theorem advances_alloca (type : Ty) : b.Advances (b.alloca type).2 := by
  rintro ⟨⟨f, hf⟩, ⟨c, hc⟩, ⟨first, rest, entered, laid⟩, results⟩
  have params : (b.alloca type).2.params = b.params := by
    obtain ⟨_, _, -, function, -⟩ | ⟨-, function, -⟩ := alloca_cases hf hc type
    all_goals simp [Builder.params, function, hf]
  have stays := stays_insertAt laid (i := ⟨some b.nextReg, .alloca type⟩) rfl
  have left : b.closed = f.closed := by rw [closed, hf]; rfl
  have blocks : b.entered = f.closed ++ [c] := by rw [entered_of_block hc, left]
  -- where the first block stands decides which of the two lists changes
  have moved : (b.alloca type).2.entered = insertAt b.slotCount ⟨some b.nextReg, .alloca type⟩ first :: rest ∧
      (∀ d ∈ b.closed, ∃ e ∈ (b.alloca type).2.closed, d.Stays e) ∧
      ∃ d ∈ (b.alloca type).2.entered, c.Evolves d := by
    obtain ⟨first', rest', closed, function, block⟩ | ⟨closed, function, block⟩ := alloca_cases hf hc type
    · obtain ⟨rfl, rfl⟩ : first = first' ∧ rest = rest' ++ [c] := by
        rw [blocks, closed] at entered
        exact ⟨(cons.inj entered).1.symm, (cons.inj entered).2.symm⟩
      have closed' : (b.alloca type).2.closed =
          insertAt b.slotCount ⟨some b.nextReg, .alloca type⟩ first :: rest' := by
        rw [Builder.closed, function]
        rfl
      refine ⟨by rw [entered_of_block block, closed']; rfl, ?_, c, mem_entered_of_block block, .refl c⟩
      rw [left, closed, closed']
      exact forall_mem_cons.mpr ⟨⟨_, mem_cons_self, stays⟩, fun d mem => ⟨d, mem_cons_of_mem _ mem, .refl d⟩⟩
    · obtain ⟨rfl, rfl⟩ : first = c ∧ rest = [] := by
        rw [blocks, closed] at entered
        exact ⟨(cons.inj entered).1.symm, (cons.inj entered).2.symm⟩
      have closed' : (b.alloca type).2.closed = [] := by rw [Builder.closed, function]; exact closed
      refine ⟨by rw [entered_of_block block, closed']; rfl, ?_, _, mem_entered_of_block block, stays.evolves⟩
      rw [left, closed]
      simp
  obtain ⟨after, closed, d, mem, evolves⟩ := moved
  refine ⟨⟨?_, ?_, ⟨_, rest, after, ?_⟩, ?_⟩, ⟨closed, ?_, ?_, params, ?_, ?_, ?_, ?_, ?_⟩⟩
  · obtain ⟨_, _, -, function, -⟩ | ⟨-, function, -⟩ := alloca_cases hf hc type
    all_goals exact ⟨_, function⟩
  · obtain ⟨_, _, -, -, block⟩ | ⟨-, -, block⟩ := alloca_cases hf hc type
    all_goals exact ⟨_, block⟩
  · rw [alloca_slotCount]
    exact laid.insertAt rfl
  · rw [params, after, alloca_nextReg, range_succ, flatMap_cons]
    rw [entered, flatMap_cons] at results
    calc
      _ ~ b.params.map (·.1) ++ (first.results ++ [b.nextReg] ++ rest.flatMap Block.results) :=
        ((laid.insertAt_results).append_right _).append_left _
      _ ~ b.params.map (·.1) ++ (first.results ++ rest.flatMap Block.results) ++ [b.nextReg] := by
        rw [append_assoc, append_assoc]
        refine Perm.append_left _ ?_
        rw [append_assoc]
        exact Perm.append_left _ perm_append_comm
      _ ~ _ := results.append_right _
  · intro e h
    obtain rfl : c = e := Option.some.inj (hc ▸ h)
    exact ⟨d, mem, evolves⟩
  · rw [slotList, slotList, after, entered]
    simp only [head?_cons, Option.map_some, Option.getD_some]
    rw [laid.insertAt_slots rfl]
    exact prefix_append _ _
  · rw [alloca_nextReg]
    exact Nat.le_succ _
  · exact Nat.le_of_eq (alloca_rest type).1.symm
  · exact (alloca_rest (b := b) type).2 ▸ prefix_rfl
  · obtain ⟨_, _, -, function, -⟩ | ⟨-, function, -⟩ := alloca_cases hf hc type
    all_goals simp [function, hf]
  · rw [(alloca_rest type).2]

end Builder

end BasicCompiler.Ir
