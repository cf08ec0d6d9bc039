/-
# Building code that is well typed

Each register gets its type when it is filled, and keeps it.
-/
import BasicCompiler.Proofs.Ir.Building
import BasicCompiler.Proofs.Ir.Typing

namespace BasicCompiler.Ir

open List Option

/-! ## Globals -/

theorem Module.address_mono {m m' : Module} (more : m.globals <+: m'.globals) {name : String}
    (found : m.address? name = some t) : m'.address? name = some t := by
  obtain ⟨g, isFirst, rfl⟩ := map_eq_some_iff.mp found
  obtain ⟨new, split⟩ := more
  unfold address?
  rw [← split, find?_append, isFirst]
  rfl

/-! ## Blocks -/

section Blocks

variable {c : Block}

section

variable (h : c.WellTyped l types result)
include h

theorem Block.WellTyped.mono (le : l.Le l') (more : types <+: types') : c.WellTyped l' types' result where
  instrs i mem := (h.instrs i mem).mono le more
  terminator t mem := (h.terminator t mem).mono more

theorem Block.WellTyped.push (typed : i.WellTyped l types) : (c.push i).WellTyped l types result where
  instrs := forall_mem_append.mpr ⟨h.instrs, forall_mem_singleton.mpr typed⟩
  terminator := h.terminator

theorem Block.WellTyped.insertAt (typed : i.WellTyped l types) (n : Nat) :
    (Builder.insertAt n i c).WellTyped l types result where
  instrs j mem := by
    rcases eq_or_mem_of_mem_insertIdx mem with rfl | mem
    · exact typed
    · exact h.instrs j mem
  terminator := h.terminator

theorem Block.WellTyped.close (typed : t.WellTyped types result) : (c.close t).WellTyped l types result where
  instrs := h.instrs
  terminator u mem := by
    rcases or_eq_some_iff.mp mem with own | ⟨-, added⟩
    · exact h.terminator u own
    · cases added
      exact typed

end

theorem Function.WellTyped.mono {f : Function} (h : f.WellTyped l) (le : l.Le l') : f.WellTyped l' := by
  cases f with
  | external name params isVararg result => trivial
  | defined name params result blocks =>
    obtain ⟨types, atParams, typed⟩ := h
    exact ⟨types, atParams, fun c mem => (typed c mem).mono le prefix_rfl⟩

end Blocks

/-! ## Builders -/

namespace Builder

variable {b : Builder}

def linkage (σ : Rules) (b : Builder) : Linkage := ⟨σ, b.module.address?⟩

theorem linkage_le {b b' : Builder} (more : b.module.globals <+: b'.module.globals) : (b.linkage σ).Le (b'.linkage σ) :=
  ⟨rfl, fun _ _ found => Module.address_mono more found⟩

/-- The function at work is well typed as far as it is built. -/
structure Typed (σ : Rules) (types : Types) (result : Ty) (b : Builder) : Prop where
  count : types.length = b.nextReg
  params : ∀ p ∈ b.params, types.Has p.1 p.2
  returns : b.function.map (·.result) = some result
  blocks : ∀ c ∈ b.entered, c.WellTyped (b.linkage σ) types result

namespace Typed

section

variable (h : b.Typed σ types result)
include h

theorem has_next : (types ++ [t]).Has b.nextReg t := by
  unfold Types.Has
  rw [← h.count, getElem?_append_right (Nat.le_refl _), Nat.sub_self]
  rfl

theorem append {b' : Builder} (function : b'.function = b.function)
    (block : b'.block = b.block.map (·.push i)) (globals : b.module.globals <+: b'.module.globals)
    (count : b'.nextReg = b.nextReg + new.length) (typed : i.WellTyped (b'.linkage σ) (types ++ new)) :
    b'.Typed σ (types ++ new) result where
  count := by rw [length_append, h.count, count]
  params p mem := by
    rw [Builder.params, function] at mem
    exact (h.params p mem).mono (prefix_append _ _)
  returns := by rw [function, h.returns]
  blocks c mem := by
    have old (d : Block) (isOld : d ∈ b.entered) : d.WellTyped (b'.linkage σ) (types ++ new) result :=
      (h.blocks d isOld).mono (linkage_le globals) (prefix_append _ _)
    rcases mem_entered mem with closed | current
    · rw [Builder.closed, function] at closed
      exact old c (mem_entered_of_closed closed)
    · rw [block] at current
      obtain ⟨d, isCurrent, rfl⟩ := map_eq_some_iff.mp current
      exact (old d (mem_entered_of_block isCurrent)).push typed

theorem emit (typed : op.HasType (b.linkage σ) types t)
    (called : op.isCall = true → t ≠ .void) : (b.emit op).2.Typed σ (types ++ [t]) result := by
  refine h.append (i := ⟨some b.nextReg, op⟩) rfl rfl prefix_rfl rfl ?_
  exact ⟨t, typed.mono (linkage_le prefix_rfl) (prefix_append _ _), h.has_next, called⟩

theorem perform (typed : op.HasType (b.linkage σ) types .void) : (b.perform op).Typed σ types result := by
  have typed' : (Instr.mk none op).WellTyped ((b.perform op).linkage σ) (types ++ []) :=
    ⟨.void, typed.mono (linkage_le prefix_rfl) (prefix_append _ _), rfl⟩
  have added : (b.perform op).Typed σ (types ++ []) result := h.append rfl rfl prefix_rfl rfl typed'
  rwa [append_nil] at added

theorem stringConstant (text : String)
    (texts : ∀ g ∈ b.module.globals, g.name = s!".str.{b.nextString}" → g.address = .handle) :
    (b.stringConstant text).2.Typed σ (types ++ [.handle]) result := by
  refine h.append (i := ⟨some b.nextReg, .global s!".str.{b.nextString}"⟩) rfl rfl
    (prefix_append _ _) rfl ⟨.handle, .global ?_, h.has_next, by simp [Op.isCall]⟩
  change ((b.module.globals ++ [_]).find? (Global.name · = s!".str.{b.nextString}")).map Global.address = _
  rw [find?_append]
  cases found : b.module.globals.find? (Global.name · = s!".str.{b.nextString}") with
  | some g =>
    have named := find?_some found
    exact congrArg some (texts g (mem_of_find?_eq_some found) (of_decide_eq_true named))
  | none =>
    rw [none_or, find?_singleton, if_pos (decide_eq_true rfl)]
    rfl

theorem alloca (type : Ty) : (b.alloca type).2.Typed σ (types ++ [.ptr type]) result := by
  have old : ∀ c ∈ b.entered, c.WellTyped (b.linkage σ) (types ++ [.ptr type]) result :=
    fun c mem => (h.blocks c mem).mono (.refl _) (prefix_append _ _)
  have slot : (Instr.mk (some b.nextReg) (.alloca type)).WellTyped (b.linkage σ) (types ++ [.ptr type]) :=
    ⟨_, .alloca, h.has_next, by simp [Op.isCall]⟩
  have same : (b.alloca type).2.linkage σ = b.linkage σ := by
    rw [linkage, linkage, (alloca_rest type).2]
  obtain ⟨f, function, returns⟩ := map_eq_some_iff.mp h.returns
  -- where the first block stands decides which of the two lists changes
  have moved : ((b.alloca type).2.function.map (·.result) = some result ∧
      (b.alloca type).2.params = b.params) ∧ ∀ c ∈ (b.alloca type).2.entered,
        ∃ d ∈ b.entered, c = d ∨ c = insertAt b.slotCount ⟨some b.nextReg, .alloca type⟩ d := by
    have left : b.closed = f.closed := by rw [closed, function]; rfl
    unfold Builder.entered Builder.params
    rw [left]
    simp only [Builder.alloca, freshReg, function, Builder.closed]
    cases none : f.closed with
    | nil =>
      refine ⟨⟨congrArg some returns, rfl⟩, fun c mem => ?_⟩
      change c ∈ f.closed ++ (b.block.map _).toList at mem
      rw [none, nil_append] at mem
      obtain ⟨d, isCurrent, rfl⟩ := map_eq_some_iff.mp (mem_toList.mp mem)
      exact ⟨d, mem_toList.mpr isCurrent, .inr rfl⟩
    | cons first rest =>
      refine ⟨⟨congrArg some returns, rfl⟩, forall_mem_cons.mpr ⟨⟨first, mem_cons_self, .inr rfl⟩, fun c mem => ?_⟩⟩
      exact ⟨c, mem_cons_of_mem _ mem, .inl rfl⟩
  obtain ⟨⟨returns', params⟩, blocks⟩ := moved
  refine ⟨?_, fun p mem => ?_, returns', fun c mem => ?_⟩
  · rw [length_append, h.count, alloca_nextReg]
    rfl
  · rw [params] at mem
    exact (h.params p mem).mono (prefix_append _ _)
  · rw [same]
    obtain ⟨d, isOld, rfl | rfl⟩ := blocks c mem
    · exact old c isOld
    · exact (old d isOld).insertAt slot _

theorem createBlock (label : String) :
    (b.createBlock label).2.Typed σ types result := ⟨h.count, h.params, h.returns, h.blocks⟩

theorem terminate (typed : term.WellTyped types result) : (b.terminate term).Typed σ types result where
  count := h.count
  params := h.params
  returns := h.returns
  blocks c mem := by
    rcases mem_entered mem with closed | current
    · exact h.blocks c (mem_entered_of_closed closed)
    · obtain ⟨d, isCurrent, rfl⟩ := map_eq_some_iff.mp current
      exact (h.blocks d (mem_entered_of_block isCurrent)).close typed

theorem closeBlock : b.closeBlock.Typed σ types result := by
  obtain ⟨f, function, returns⟩ := map_eq_some_iff.mp h.returns
  unfold Builder.closeBlock
  split
  · exact h
  next c current =>
    refine ⟨h.count, ?_, ?_, fun d mem => ?_⟩
    · have params := h.params
      unfold Builder.params at params ⊢
      rw [function] at params ⊢
      exact params
    · rw [function]
      exact congrArg some returns
    · refine h.blocks d ?_
      rw [entered_of_block current, Builder.closed, function]
      simpa [Builder.entered, Builder.closed, function] using mem

theorem setBlock (id : BlockId) : (b.setBlock id).Typed σ types result := by
  have jumps : (b.terminate (.br id)).Typed σ types result := h.terminate trivial
  have ended := jumps.closeBlock
  refine ⟨ended.count, ended.params, ended.returns, fun c mem => ?_⟩
  rcases mem_entered mem with closed | current
  · exact ended.blocks c (mem_entered_of_closed closed)
  · cases current
    exact ⟨forall_mem_nil _, fun t mem => by cases mem⟩

end

end Typed

end Builder

end BasicCompiler.Ir
