/-
# Registers are filled before they are read

For each block, a certificate names registers that are filled whenever control enters it. It is checked edge by edge,
except on the edges that jump to a label.
-/
import BasicCompiler.Proofs.Ir.Building

namespace BasicCompiler.Ir

open List

def Op.operands : Op → List Reg
  | .const _ _ | .alloca _ | .global _ => []
  | .binary _ left right | .icmp _ left right | .fcmp _ left right => [left, right]
  | .unary _ operand | .cast _ operand _ => [operand]
  | .splat scalar _ => [scalar]
  | .vector lanes _ => lanes
  | .extract source _ | .shuffle source _ => [source]
  | .insert source value _ => [source, value]
  | .load address _ | .field address _ => [address]
  | .store address value => [address, value]
  | .call _ args => args

def Terminator.operands : Terminator → List Reg
  | .ret (some value) => [value]
  | .condBr cond _ _ => [cond]
  | .ret none | .br _ | .unreachable => []

def RightBefore (blocks : List Block) (c : Block) (id : BlockId) : Prop :=
  ∃ front d back, blocks = front ++ c :: d :: back ∧ d.id = id

/-! ## Paths -/

/-- A way through the blocks from the first one to `c`; `visited` are the blocks that
were left, in order. -/
inductive Path (blocks : List Block) : List Block → Block → Prop where
  | start {entry : Block} {rest : List Block} : blocks = entry :: rest → Path blocks [] entry
  | step {visited : List Block} {c d : Block} {t : Terminator} : Path blocks visited c →
      c.terminator = some t → d ∈ blocks → d.id ∈ t.successors → Path blocks (visited ++ [c]) d

/-- A register is read in a block when control has run the instructions `front` of it. -/
def ReadsAt (c : Block) (front : List Instr) (r : Reg) : Prop :=
  (∃ i back, c.instrs = front ++ i :: back ∧ r ∈ i.op.operands) ∨
    front = c.instrs ∧ ∃ t, c.terminator = some t ∧ r ∈ t.operands

/-- A register is a parameter, or it was filled on a path that left the blocks `visited`
and then ran `front`. -/
def FilledBefore (params : List Reg) (visited : List Block) (front : List Instr) (r : Reg) : Prop :=
  r ∈ params ∨ r ∈ visited.flatMap Block.results ∨ r ∈ front.filterMap (·.result)

/-- On the way to `c`, control comes to a label from elsewhere than the block right
before it, and the register is filled in a block that stands before the label. -/
def JumpsBehind (blocks : List Block) (labels : List BlockId) (visited : List Block) (c : Block)
    (r : Reg) : Prop :=
  ∃ x y, [x, y] <:+: visited ++ [c] ∧ y.id ∈ labels ∧ ¬ RightBefore blocks x y.id ∧
    ∃ front back, blocks = front ++ y :: back ∧ r ∈ front.flatMap Block.results

variable {c : Block}

theorem Path.mem (path : Path blocks visited c) : c ∈ blocks := by
  cases path with
  | start h => rw [h]; exact mem_cons_self
  | step _ _ mem _ => exact mem

theorem Path.begins (path : Path blocks visited c) (h : blocks = entry :: rest) :
    ∃ more, visited ++ [c] = entry :: more := by
  induction path with
  | @start entry' rest' h' =>
    obtain ⟨rfl, -⟩ := cons.inj (h.symm.trans h')
    exact ⟨[], rfl⟩
  | step _ _ _ _ ih =>
    obtain ⟨more, ih⟩ := ih
    rw [ih]
    exact ⟨_, rfl⟩

theorem JumpsBehind.extend (h : JumpsBehind blocks labels visited c r) (d : Block) :
    JumpsBehind blocks labels (visited ++ [c]) d r := by
  obtain ⟨x, y, inside, rest⟩ := h
  exact ⟨x, y, inside.trans (prefix_append _ _).isInfix, rest⟩

/-! ## Certificates -/

def Reads (filled : Reg → Prop) : List Instr → Prop
  | [] => True
  | i :: rest => (∀ r ∈ i.op.operands, filled r) ∧ Reads (fun r => filled r ∨ i.result = some r) rest

namespace Reads

theorem mono (h : Reads filled code) (more : ∀ r, filled r → filled' r) : Reads filled' code := by
  induction code generalizing filled filled' with
  | nil => trivial
  | cons i rest ih =>
    refine ⟨fun r mem => more r (h.1 r mem), ih h.2 fun r hr => ?_⟩
    exact hr.imp (more r) id

theorem operandAt (h : Reads filled (front ++ i :: back)) (mem : r ∈ i.op.operands) :
    filled r ∨ r ∈ front.filterMap (·.result) := by
  induction front generalizing filled with
  | nil => exact .inl (h.1 r mem)
  | cons j front ih =>
    rw [filterMap_cons]
    obtain (old | same) | new := ih h.2
    · exact .inl old
    · rw [same]
      exact .inr mem_cons_self
    · right
      cases j.result with
      | none => exact new
      | some _ => exact mem_cons_of_mem _ new

theorem snoc (h : Reads filled code) (operands : ∀ r ∈ i.op.operands, filled r ∨ r ∈ code.filterMap (·.result)) :
    Reads filled (code ++ [i]) := by
  induction code generalizing filled with
  | nil =>
    refine ⟨fun r mem => (operands r mem).elim id (by simp), trivial⟩
  | cons j code ih =>
    refine ⟨h.1, ih h.2 fun r mem => ?_⟩
    obtain old | new := operands r mem
    · exact .inl (.inl old)
    · rw [filterMap_cons] at new
      cases result : j.result with
      | none => rw [result] at new; exact .inr new
      | some reg =>
        rw [result] at new
        obtain rfl | new := mem_cons.mp new
        · exact .inl (.inr rfl)
        · exact .inr new

end Reads

/-- The registers that are filled when control leaves a block, given those that are when
it enters it. -/
def Block.Fills (c : Block) (atEntry : Reg → Prop) (slot : Reg → Prop) (r : Reg) : Prop :=
  atEntry r ∨ slot r ∨ r ∈ c.code.filterMap (·.result)

/-- The certificate `filled` is right about a function with these parameters, label
blocks and blocks. -/
structure Certifies (filled : BlockId → Reg → Prop) (params : List Reg) (labels : List BlockId)
    (first : Block) (rest : List Block) : Prop where
  entry : ∀ r, filled first.id r → r ∈ params
  laid : first.instrs = first.slots ++ first.code
  reads : ∀ c ∈ first :: rest, Reads (fun r => filled c.id r ∨ r ∈ first.slots.filterMap (·.result)) c.code
  leaves : ∀ c ∈ first :: rest, ∀ t, c.terminator = some t → ∀ r ∈ t.operands,
    c.Fills (filled c.id) (· ∈ first.slots.filterMap (·.result)) r
  edges : ∀ c ∈ first :: rest, ∀ t, c.terminator = some t → ∀ d ∈ t.successors,
    (d ∈ labels ∧ ¬ RightBefore (first :: rest) c d) ∨
      ∀ r, filled d r → c.Fills (filled c.id) (· ∈ first.slots.filterMap (·.result)) r
  origins : ∀ front c back, first :: rest = front ++ c :: back → ∀ r, filled c.id r →
    r ∈ params ∨ r ∈ front.flatMap Block.results

namespace Certifies

theorem mem_results_of_code (h : r ∈ c.code.filterMap (·.result)) : r ∈ c.results :=
  (filter_sublist.filterMap _).subset h

theorem mem_results_of_slots (h : r ∈ c.slots.filterMap (·.result)) : r ∈ c.results :=
  (filter_sublist.filterMap _).subset h

theorem filled_on_way (h : Certifies filled params labels first rest)
    (path : Path (first :: rest) visited c) (full : filled c.id r) :
    r ∈ params ∨ r ∈ visited.flatMap Block.results ∨ JumpsBehind (first :: rest) labels visited c r := by
  induction path with
  | start same =>
    obtain ⟨rfl, -⟩ := cons.inj same
    exact .inl (h.entry r full)
  | @step visited c d t path leaves mem next ih =>
    have left {x : Block} (mem : x ∈ visited ++ [c]) (here : r ∈ x.results) :
        r ∈ (visited ++ [c]).flatMap Block.results := mem_flatMap.mpr ⟨x, mem, here⟩
    obtain ⟨label, jump⟩ | kept := h.edges c path.mem t leaves d.id next
    · obtain ⟨front, back, split⟩ := append_of_mem mem
      obtain param | before := h.origins front d back split r full
      · exact .inl param
      · refine .inr (.inr ⟨c, d, ?_, label, jump, front, back, split, before⟩)
        exact ⟨visited, [], by simp⟩
    · obtain entry | slot | code := kept r full
      · obtain param | before | jump := ih entry
        · exact .inl param
        · rw [flatMap_append]
          exact .inr (.inl (mem_append_left _ before))
        · exact .inr (.inr (jump.extend d))
      · -- slots are filled in the first block, which every path has left
        obtain ⟨more, begins⟩ := path.begins rfl
        refine .inr (.inl (left ?_ (mem_results_of_slots slot)))
        rw [begins]
        exact mem_cons_self
      · exact .inr (.inl (left (by simp) (mem_results_of_code code)))

theorem slots_before (h : Certifies filled params labels first rest) (split : first.instrs = front ++ i :: back)
    (plain : i.isSlot = false) : first.slots <+: front := by
  rw [h.laid] at split
  obtain ⟨mid, same, rest⟩ | ⟨mid, same, rest⟩ := append_eq_append_iff.mp split
  · exact ⟨mid, same.symm⟩
  · cases mid with
    | nil => exact ⟨[], by simpa using same⟩
    | cons j mid =>
      obtain ⟨rfl, -⟩ := cons.inj rest
      have slot : i ∈ first.slots := by rw [same]; simp
      have := (mem_filter.mp slot).2
      rw [plain] at this
      cases this

theorem slot_filled (path : Path (first :: rest) visited c) (slot : r ∈ first.slots.filterMap (·.result))
    (here : c = first → first.slots <+: front) :
    r ∈ visited.flatMap Block.results ∨ r ∈ front.filterMap (·.result) := by
  obtain ⟨more, begins⟩ := path.begins rfl
  cases visited with
  | nil =>
    obtain ⟨same, -⟩ := cons.inj begins
    exact .inr (((here same).filterMap _).subset slot)
  | cons x visited =>
    obtain ⟨rfl, -⟩ := cons.inj begins
    exact .inl (mem_flatMap.mpr ⟨x, mem_cons_self, mem_results_of_slots slot⟩)

/-- A register that is read was filled on the way, unless the path jumped to a label
behind the place where it is filled. -/
theorem filled_before_read (h : Certifies filled params labels first rest) (path : Path (first :: rest) visited c)
    (reads : ReadsAt c front r) :
    FilledBefore params visited front r ∨ JumpsBehind (first :: rest) labels visited c r := by
  have entry (full : filled c.id r) :
      FilledBefore params visited front r ∨ JumpsBehind (first :: rest) labels visited c r := by
    obtain param | before | jump := h.filled_on_way path full
    · exact .inl (.inl param)
    · exact .inl (.inr (.inl before))
    · exact .inr jump
  have slot (full : r ∈ first.slots.filterMap (·.result)) (here : c = first → first.slots <+: front) :
      FilledBefore params visited front r := .inr (slot_filled path full here)
  obtain ⟨i, back, split, operand⟩ | ⟨rfl, t, terminator, operand⟩ := reads
  · have plain : i.isSlot = false := by
      unfold Instr.isSlot
      cases op : i.op with
      | alloca type => rw [op] at operand; cases operand
      | _ => rfl
    have code : c.code = front.filter (!·.isSlot) ++ i :: back.filter (!·.isSlot) := by
      rw [Block.code, split, filter_append, filter_cons_of_pos (by rw [plain]; rfl)]
    have read := h.reads c path.mem
    rw [code] at read
    obtain (full | full) | before := read.operandAt operand
    · exact entry full
    · exact .inl (slot full fun same => h.slots_before (same ▸ split) plain)
    · exact .inl (.inr (.inr ((filter_sublist.filterMap _).subset before)))
  · obtain full | full | code := h.leaves c path.mem t terminator r operand
    · exact entry full
    · refine .inl (slot full fun same => ?_)
      rw [same, h.laid]
      exact prefix_append _ _
    · exact .inl (.inr (.inr (mem_results_of_code code)))

end Certifies

end BasicCompiler.Ir
