/-
# Where the lowering stands

Between two statements the lowering stands in an open block, where everything that later code may refer to is filled:
the addresses of variables, what is noted for release, and whatever the blocks that may be jumped to rely on.
-/
import BasicCompiler.Proofs.Ir.Placement
import BasicCompiler.Proofs.Lowering.Shapes

namespace BasicCompiler.Lowering

open Ir.Builder
open Ir (BlockId Reg)

variable {labels : List BlockId} {id : BlockId}

/-- The lowering has come from `s` to `s'`: what was filled still is, and blocks that were
there are certified as before, apart from labels. -/
structure Moves (labels : List BlockId) (filled : BlockId → Reg → Prop) (s : LowerState)
    (filled' : BlockId → Reg → Prop) (s' : LowerState) : Prop where
  usable : ∀ r, s.builder.Usable filled r → s'.builder.Usable filled' r
  kept : ∀ id < s.builder.nextBlock, id ∉ labels → filled' id = filled id
  nextBlock : s.builder.nextBlock ≤ s'.builder.nextBlock
  nextReg : s.builder.nextReg ≤ s'.builder.nextReg

theorem Moves.refl (labels : List BlockId) (filled : BlockId → Reg → Prop) (s : LowerState) :
    Moves labels filled s filled s :=
  ⟨fun _ h => h, fun _ _ _ => rfl, Nat.le_refl _, Nat.le_refl _⟩

theorem Moves.trans (h : Moves labels filled s filled' s')
    (h' : Moves labels filled' s' filled'' s'') : Moves labels filled s filled'' s'' where
  usable r usable := h'.usable r (h.usable r usable)
  kept id below noLabel := (h'.kept id (Nat.lt_of_lt_of_le below h.nextBlock) noLabel).trans (h.kept id below noLabel)
  nextBlock := Nat.le_trans h.nextBlock h'.nextBlock
  nextReg := Nat.le_trans h.nextReg h'.nextReg

/-- A block that is no label and that control may go on to. -/
structure Goal (labels : List BlockId) (filled : BlockId → Reg → Prop) (s : LowerState)
    (id : BlockId) : Prop where
  noLabel : id ∉ labels
  positive : 0 < id
  below : id < s.builder.nextBlock
  enough : ∀ r, filled id r → s.builder.Usable filled r

theorem Goal.moved (goal : Goal labels filled s id) (moves : Moves labels filled s filled' s') :
    Goal labels filled' s' id where
  noLabel := goal.noLabel
  positive := goal.positive
  below := Nat.lt_of_lt_of_le goal.below moves.nextBlock
  enough r full := by
    rw [moves.kept id goal.below goal.noLabel] at full
    exact moves.usable r (goal.enough r full)

theorem Goal.admits (goal : Goal labels filled s id) : s.builder.Admits filled labels id :=
  ⟨⟨goal.positive, goal.below⟩, .inr goal.enough⟩

structure Stands (labels : List BlockId) (env : Env) (filled : BlockId → Reg → Prop)
    (s : LowerState) : Prop where
  placed : s.builder.Placed filled labels
  isOpen : s.builder.IsOpen
  slots : ∀ p ∈ env.slots, s.builder.Usable filled p.2
  target : ∀ r, env.target = some r → s.builder.Usable filled r
  noted : ∀ c ∈ s.cleanups.frames.flatten, s.builder.Usable filled c.reg
  loop : ∀ targets, env.loop = some targets →
    Goal labels filled s targets.onExit ∧ Goal labels filled s targets.onContinue
  nextCase : ∀ next depth, env.nextCase = some ⟨some next, depth⟩ → Goal labels filled s next
  jumps : ∀ p ∈ env.labels, p.2 ∈ labels
  created : ∀ id ∈ labels, 0 < id ∧ id < s.builder.nextBlock

/-- The lowering stands again, having come from `s`; of the pending blocks it has entered
those in `gone`, and no other is pending now. -/
structure Passes (labels : List BlockId) (env : Env) (gone : List BlockId)
    (filled : BlockId → Reg → Prop) (s : LowerState) (filled' : BlockId → Reg → Prop)
    (s' : LowerState) : Prop where
  stands : Stands labels env filled' s'
  moves : Moves labels filled s filled' s'
  pending : ∀ id, s'.builder.Pending id ↔ s.builder.Pending id ∧ id ∉ gone

namespace Stands

section

variable (h : Stands labels env filled s)
include h

section

variable (moves : Moves labels filled s filled' s') (placed : s'.builder.Placed filled' labels)
  (isOpen : s'.builder.IsOpen)
include moves placed isOpen

theorem moved (noted : ∀ c ∈ s'.cleanups.frames.flatten, s'.builder.Usable filled' c.reg) :
    Stands labels env filled' s' where
  placed := placed
  isOpen := isOpen
  slots p mem := moves.usable _ (h.slots p mem)
  target r same := moves.usable r (h.target r same)
  noted := noted
  loop targets same := by
    obtain ⟨onExit, onContinue⟩ := h.loop targets same
    exact ⟨onExit.moved moves, onContinue.moved moves⟩
  nextCase next depth same := (h.nextCase next depth same).moved moves
  jumps := h.jumps
  created id mem := by
    obtain ⟨positive, below⟩ := h.created id mem
    exact ⟨positive, Nat.lt_of_lt_of_le below moves.nextBlock⟩

theorem back (frames : s'.cleanups.frames = s.cleanups.frames) : Stands labels env filled' s' :=
  h.moved moves placed isOpen fun c mem => moves.usable _ (h.noted c (frames ▸ mem))

end

theorem passes : Passes labels env [] filled s filled s := ⟨h, .refl labels filled s, fun _ => by simp⟩

end

end Stands

theorem Passes.trans (h : Passes labels env gone filled s filled' s')
    (h' : Passes labels env gone' filled' s' filled'' s'') :
    Passes labels env (gone ++ gone') filled s filled'' s'' where
  stands := h'.stands
  moves := h.moves.trans h'.moves
  pending id := by
    rw [h'.pending, h.pending, List.mem_append, not_or, and_assoc]

/-! ## Instructions -/

theorem Moves.of_reshapes (shape : s.builder.Reshapes s'.builder) : Moves labels filled s filled s' :=
  ⟨fun _ => shape.usable, fun _ _ _ => rfl, Nat.le_of_eq shape.nextBlock.symm, shape.nextReg⟩

theorem Stands.reshaped (s' : LowerState) (h : Stands labels env filled s)
    (placed : s'.builder.Placed filled labels) (shape : s.builder.Reshapes s'.builder) (isOpen : s'.builder.IsOpen)
    (noted : ∀ c ∈ s'.cleanups.frames.flatten, c ∈ s.cleanups.frames.flatten ∨
      s'.builder.Usable filled c.reg) : Passes labels env [] filled s filled s' where
  stands := h.moved (.of_reshapes shape) placed isOpen fun c mem =>
    (noted c mem).elim (fun old => shape.usable (h.noted c old)) id
  moves := .of_reshapes shape
  pending id := by simp [shape.pending id]

theorem Stands.tidied (h : Stands labels env filled s) (builder : s'.builder = s.builder)
    (noted : ∀ c ∈ s'.cleanups.frames.flatten, s.builder.Usable filled c.reg) :
    Passes labels env [] filled s filled s' := by
  have moves : Moves labels filled s filled s' := by
    refine ⟨?_, fun _ _ _ => rfl, ?_, ?_⟩
    · rw [builder]
      exact fun _ h => h
    · exact Nat.le_of_eq (congrArg _ builder.symm)
    · exact Nat.le_of_eq (congrArg _ builder.symm)
  refine ⟨h.moved moves ?_ ?_ ?_, moves, ?_⟩
  all_goals rw [builder]
  · exact h.placed
  · exact h.isOpen
  · exact noted
  · exact fun _ => by simp

theorem Stands.pushed (s' : LowerState) (h : Stands labels env filled s) (advances : s.builder.Advances s'.builder)
    (plain : i.isSlot = false) (function : s'.builder.function = s.builder.function)
    (block : s'.builder.block = s.builder.block.map (·.push i)) (nextBlock : s'.builder.nextBlock = s.builder.nextBlock)
    (operands : ∀ reg ∈ i.op.operands, s.builder.Usable filled reg)
    (noted : ∀ c ∈ s'.cleanups.frames.flatten, c ∈ s.cleanups.frames.flatten ∨ s'.builder.Usable filled c.reg) :
    Passes labels env [] filled s filled s' := by
  obtain ⟨placed, shape, isOpen⟩ := h.placed.push h.isOpen advances plain function block nextBlock operands
  exact h.reshaped s' placed shape isOpen noted

theorem Stands.emitted (op : Ir.Op) (s' : LowerState) (h : Stands labels env filled s)
    (plain : (Ir.Instr.mk none op).isSlot = false) (operands : ∀ reg ∈ op.operands, s.builder.Usable filled reg)
    (builder : s'.builder = (s.builder.emit op).2)
    (noted : ∀ c ∈ s'.cleanups.frames.flatten, c ∈ s.cleanups.frames.flatten ∨
      c.reg = s.builder.nextReg) :
    Passes labels env [] filled s filled s' ∧ s'.builder.Usable filled s.builder.nextReg := by
  obtain ⟨c, hc⟩ := h.placed.proper.block
  have new : s'.builder.Usable filled s.builder.nextReg := by
    rw [builder]
    exact usable_push hc (i := ⟨some s.builder.nextReg, op⟩) plain rfl rfl
      (Nat.lt_succ_self _)
  refine ⟨h.pushed (i := ⟨some s.builder.nextReg, op⟩) s' ?_ plain ?_ ?_ ?_ operands ?_, new⟩
  · exact builder ▸ advances_emit op plain
  · rw [builder]; rfl
  · rw [builder]; rfl
  · rw [builder]; rfl
  · intro c mem
    exact (noted c mem).imp_right fun same => by rw [same]; exact new

/-! ## Code without branches -/

section

variable {t : Terms}

theorem Known.of_play {st : Step} (h : Known K s0 (st.play s) r) : Known K s0 s r ∨ r = s.builder.nextReg := by
  obtain known | ⟨since, below⟩ := h
  · exact .inl (.inl known)
  · obtain same | next := st.play_nextReg (s := s)
    · exact .inl (.inr ⟨since, same ▸ below⟩)
    · rw [next] at below
      obtain below | last := Nat.lt_succ_iff_lt_or_eq.mp below
      · exact .inl (.inr ⟨since, below⟩)
      · exact .inr last

theorem Stands.step (h : Stands labels env filled s) (usable : ∀ r, Known K s0 s r → s.builder.Usable filled r)
    (admits : t.Admits home K s0 s st) :
    Passes labels env [] filled s filled (st.play s) ∧
      ∀ r, Known K s0 (st.play s) r → (st.play s).builder.Usable filled r := by
  have filling (h : Passes labels env [] filled s filled (st.play s) ∧
      (st.play s).builder.Usable filled s.builder.nextReg) : Passes labels env [] filled s filled (st.play s) ∧
        ∀ r, Known K s0 (st.play s) r → (st.play s).builder.Usable filled r := by
    refine ⟨h.1, fun r known => ?_⟩
    obtain old | rfl := known.of_play
    · exact h.1.moves.usable r (usable r old)
    · exact h.2
  have silent (same : (st.play s).builder.nextReg = s.builder.nextReg)
      (passes : Passes labels env [] filled s filled (st.play s)) : Passes labels env [] filled s filled (st.play s) ∧
        ∀ r, Known K s0 (st.play s) r → (st.play s).builder.Usable filled r := by
    refine ⟨passes, fun r known => passes.moves.usable r (usable r ?_)⟩
    exact known.imp_right fun since => ⟨since.1, same ▸ since.2⟩
  cases admits with
  | emit emits known =>
    exact filling (h.emitted _ _ emits.noSlot (fun r mem => usable r (known r mem)) rfl fun c mem => .inl mem)
  | global _ _ =>
    exact filling (h.emitted _ _ rfl (by simp [Ir.Op.operands]) rfl fun c mem => .inl mem)
  | @callVoid callee args _ known =>
    exact silent rfl (h.pushed (i := ⟨none, .call callee args⟩) _ (advances_perform _ rfl) rfl rfl rfl rfl
      (fun r mem => usable r (known r mem)) fun c mem => .inl mem)
  | @store address value _ atAddress atValue =>
    refine silent rfl (h.pushed (i := ⟨none, .store address value⟩) _ (advances_perform _ rfl) rfl rfl rfl rfl
      ?_ fun c mem => .inl mem)
    simp only [Ir.Op.operands, List.forall_mem_cons]
    exact ⟨usable _ atAddress, usable _ atValue, by simp⟩
  | @fresh callee args _ known =>
    exact filling (h.emitted (.call callee args) _ rfl (fun r mem => usable r (known r mem)) rfl fun c mem =>
      (mem_register mem).imp_right fun same => by rw [same]; rfl)
  | text content =>
    obtain ⟨c, hc⟩ := h.placed.proper.block
    refine filling ⟨h.pushed (i := ⟨some s.builder.nextReg, .global s!".str.{s.builder.nextString}"⟩) _
      (advances_stringConstant content) rfl rfl rfl rfl (by simp [Ir.Op.operands]) fun c mem => .inl mem, ?_⟩
    exact usable_push hc rfl rfl rfl (Nat.lt_succ_self _)
  | slot type =>
    obtain ⟨placed, shape, isOpen⟩ := h.placed.alloca type
    exact filling ⟨h.reshaped _ placed shape (isOpen h.isOpen) fun c mem => .inl mem, usable_alloca h.placed type⟩
  | note _ known =>
    refine silent rfl (h.tidied rfl fun c mem => ?_)
    obtain old | rfl := mem_register mem
    · exact h.noted c old
    · exact usable _ known

end

/-- A piece without branches that refers to what can be used ends where the lowering stands,
and what it answers can be used there. -/
theorem Stands.straight {α : Type} [Regs α] {m : Lower α} {a : α} (h : Stands labels env filled s)
    (made : Made .any regs m) (there : ∀ r ∈ regs, s.builder.Usable filled r) (run : m env s = .ok (a, s')) :
    Passes labels env [] filled s filled s' ∧ ∀ r ∈ Regs.of a, s'.builder.Usable filled r := by
  have suits : Terms.any.Suits env (s.builder.Usable filled) := by
    refine ⟨fun _ _ _ _ _ => trivial, fun id slot found => ?_⟩
    obtain ⟨front, back, split, -⟩ := List.lookup_eq_some_iff.mp found
    exact h.slots (id, slot) (by simp [split])
  obtain ⟨played, known⟩ := made.played suits ⟨⟨rfl, fun _ _ h => h⟩, fun r same => .inl (h.target r same),
    fun r mem => .inl (there r mem), Nat.le_refl _, .refl _⟩ run
  suffices Passes labels env [] filled s filled s' ∧
      ∀ r, Known (s.builder.Usable filled) s s' r → s'.builder.Usable filled r from
    ⟨this.1, fun r mem => this.2 r (known r mem)⟩
  clear run known
  induction played with
  | refl => exact ⟨h.passes, fun r known => known.elim id fun since => absurd since.2 (Nat.not_lt.mpr since.1)⟩
  | step st _ admits ih =>
    obtain ⟨passes, usable⟩ := ih
    obtain ⟨passes', usable'⟩ := passes.stands.step usable admits
    exact ⟨passes.trans passes', usable'⟩

end BasicCompiler.Lowering
