/-
# All that a slot holds is noted for release

A value owns the strings and the arrays that are reached through its fields, from declared type to declared type. When
a slot is noted, the members that own nothing are passed over.
-/
import BasicCompiler.Proofs.Lowering.Representation
import BasicCompiler.Proofs.Lowering.Run
import BasicCompiler.Proofs.Typed.LayoutOrder
import BasicCompiler.Proofs.Typed.Programs

namespace BasicCompiler.Lowering

open List Nat Lower
open Ir (Reg)

variable {types : TypeTable} {env : Env} {s s' : LowerState} {slot : Reg} {ty : Ty} {owned : Owned} {path : List Nat}

/-! ## Leaves -/

def handleOf? (ty : Ty) : Option Owned := if ty.isString then some .string else if ty.isArray then some .array else none

/-- A string or an array that is reached from a value of a type along the fields of the
given numbers. -/
inductive Leaf (types : TypeTable) : Ty → List Nat → Owned → Prop where
  | handle {ty : Ty} {owned : Owned} : handleOf? ty = some owned → Leaf types ty [] owned
  | field {id : UserTypeId} {i : Nat} {m : Member} {path : List Nat} {owned : Owned} :
      (types.get id).members[i]? = some m → Leaf types m.type path owned → Leaf types (.user id) (i :: path) owned

theorem handleOf?_cases (holds : handleOf? ty = some owned) :
    ty = .string ∧ owned = .string ∨ (ty = .builtin .array ∨ ∃ elem, ty = .arrayOf elem) ∧ owned = .array := by
  unfold handleOf? at holds
  split at holds
  · next isString => exact .inl ⟨of_decide_eq_true isString, (Option.some.inj holds).symm⟩
  · split at holds
    · next isArray =>
      refine .inr ⟨?_, (Option.some.inj holds).symm⟩
      cases ty with
      | builtin t => exact .inl (by simpa [Ty.isArray, Ty.satisfies, Ty.builtin?] using isArray)
      | arrayOf elem => exact .inr ⟨elem, rfl⟩
      | _ => simp [Ty.isArray, Ty.satisfies, Ty.builtin?] at isArray
    · cases holds

theorem needsFini_of_leaf (nested : types.IsNested) (leaf : Leaf types ty path owned) : types.needsFini ty = true := by
  obtain ⟨-, -, -, -, owns⟩ := nested
  induction leaf with
  | handle holds => obtain ⟨rfl, -⟩ | ⟨rfl | ⟨elem, rfl⟩, -⟩ := handleOf?_cases holds <;> rfl
  | field found _ ih =>
    rw [owns, any_eq_true]
    exact ⟨_, mem_of_getElem? found, ih⟩

def MemberLeaf (types : TypeTable) (index : Nat) (members : List Member) (path : List Nat) (owned : Owned) : Prop :=
  ∃ i m rest, members[i]? = some m ∧ path = (index + i) :: rest ∧ Leaf types m.type rest owned

theorem memberLeaf_cons :
    MemberLeaf types index (m :: rest) path owned ↔
    (∃ path', path = index :: path' ∧ Leaf types m.type path' owned) ∨ MemberLeaf types (index + 1) rest path owned := by
  constructor
  · rintro ⟨i, m', path', found, rfl, leaf⟩
    cases i with
    | zero => cases found; exact .inl ⟨path', rfl, leaf⟩
    | succ i => exact .inr ⟨i, m', path', found, by rw [add_right_comm, add_assoc], leaf⟩
  · rintro (⟨path', rfl, leaf⟩ | ⟨i, m', path', found, rfl, leaf⟩)
    · exact ⟨0, m, path', rfl, rfl, leaf⟩
    · exact ⟨i + 1, m', path', found, by rw [add_right_comm, add_assoc], leaf⟩

/-! ## Addresses -/

/-- The instructions of a block compute the address of a field, of a field of that field, and
so on. -/
inductive Leads (block : Ir.Block) : Reg → List Nat → Reg → Prop where
  | here {reg : Reg} : Leads block reg [] reg
  | field {base reg address : Reg} {i : Nat} {path : List Nat} : ⟨some reg, .field base i⟩ ∈ block.instrs →
      Leads block reg path address → Leads block base (i :: path) address

theorem Leads.mono {block block' : Ir.Block} (h : Leads block base path address) (more : block.instrs ⊆ block'.instrs) :
    Leads block' base path address := by
  induction h with
  | here => exact .here
  | field mem _ ih => exact .field (more mem) ih

/-- A leaf and the address it is released at. -/
structure Held where
  path : List Nat
  owned : Owned
  address : Reg

def Held.cleanup (h : Held) : Cleanup := .slot h.owned h.address

/-- A step notes one release for each leaf, each at an address of its own that leads there
from the slot. -/
structure Covers (slot low : Reg) (isLeaf : List Nat → Owned → Prop) (s s' : LowerState) (held : List Held) : Prop where
  frames : ∀ frame rest, s.cleanups.frames = frame :: rest →
    s'.cleanups.frames = ((held.map Held.cleanup).reverse ++ frame) :: rest
  block : ∀ block, s.builder.block = some block → ∃ block', s'.builder.block = some block' ∧
    block.instrs ⊆ block'.instrs ∧ ∀ h ∈ held, Leads block' slot h.path h.address
  later : s.builder.nextReg ≤ s'.builder.nextReg
  leaves : ∀ path owned, isLeaf path owned ↔ ∃ address, ⟨path, owned, address⟩ ∈ held
  apart : held.Pairwise fun h h' => h.path ≠ h'.path ∧ h.address ≠ h'.address
  range : ∀ h ∈ held, low ≤ h.address ∧ h.address < s'.builder.nextReg

namespace Covers

variable {held : List Held}

theorem congr (h : Covers slot low isLeaf s s' held) (same : ∀ path owned, isLeaf' path owned ↔ isLeaf path owned) :
    Covers slot low isLeaf' s s' held :=
  { h with leaves := fun path owned => (same path owned).trans (h.leaves path owned) }

theorem nothing (none : ∀ path owned, ¬ isLeaf path owned) : Covers slot low isLeaf s s [] where
  frames _ _ same := same
  block block same := ⟨block, same, Subset.refl _, by simp⟩
  later := le_refl _
  leaves path owned := by simp [none path owned]
  apart := .nil
  range := by simp

theorem handle (below : slot < s.builder.nextReg) (here : ∀ path owned', isLeaf path owned' ↔ path = [] ∧ owned' = owned) :
    Covers slot slot isLeaf s (s.tidy (·.register (.slot owned slot))) [⟨[], owned, slot⟩] where
  frames frame rest same := by simp [CleanupStack.register, same, Held.cleanup]
  block block same := ⟨block, same, Subset.refl _, by simpa using .here⟩
  later := le_refl _
  leaves path owned' := by simp [here]
  apart := pairwise_singleton _ _
  range := by simpa [LowerState.tidy] using below

theorem field {inner outer : List Nat → Owned → Prop}
    (first : Covers s.builder.nextReg s.builder.nextReg inner (s.edit fun b => (b.emit (.field slot index)).2) s1 held)
    (others : Covers slot s1.builder.nextReg outer s1 s' held')
    (behind : ∀ path owned, outer path owned → ∃ i rest, index < i ∧ path = i :: rest) :
    Covers slot s.builder.nextReg (fun path owned => (∃ path', path = index :: path' ∧ inner path' owned) ∨ outer path owned)
      s s' (held.map (fun h => { h with path := index :: h.path }) ++ held') where
  frames frame rest same := by
    rw [others.frames _ _ (first.frames frame rest same)]
    simp [Function.comp_def, Held.cleanup]
  block block same := by
    have pushed : (s.edit fun b => (b.emit (.field slot index)).2).builder.block =
        some { block with instrs := block.instrs ++ [⟨some s.builder.nextReg, .field slot index⟩] } := by
      simp [Ir.Builder.emit, Ir.Builder.freshReg, Ir.Builder.append, same]
    obtain ⟨block1, same1, more1, leads1⟩ := first.block _ pushed
    obtain ⟨block2, same2, more2, leads2⟩ := others.block _ same1
    refine ⟨block2, same2, fun i mem => more2 (more1 (mem_append_left _ mem)), fun h mem => ?_⟩
    rcases mem_append.mp mem with isInner | isOuter
    · obtain ⟨h0, mem0, rfl⟩ := mem_map.mp isInner
      exact .field (more2 (more1 (by simp))) ((leads1 h0 mem0).mono more2)
    · exact leads2 h isOuter
  later := Nat.le_trans (Nat.le_succ _) (Nat.le_trans first.later others.later)
  leaves path owned := by
    simp only [first.leaves, others.leaves, mem_append, mem_map, exists_or]
    refine or_congr ⟨?_, ?_⟩ Iff.rfl
    · rintro ⟨path', rfl, address, mem⟩
      exact ⟨address, _, mem, rfl⟩
    · rintro ⟨address, h, mem, same⟩
      cases same
      exact ⟨h.path, rfl, h.address, mem⟩
  apart := by
    refine pairwise_append.mpr ⟨pairwise_map.mpr (first.apart.imp fun apart => ?_), others.apart, ?_⟩
    · exact ⟨fun same => apart.1 (cons.inj same).2, apart.2⟩
    · intro h isInner h' isOuter
      obtain ⟨h0, mem, rfl⟩ := mem_map.mp isInner
      obtain ⟨i, rest, lt, isPath⟩ := behind h'.path h'.owned ((others.leaves _ _).mpr ⟨h'.address, isOuter⟩)
      refine ⟨fun same => ?_, Nat.ne_of_lt (Nat.lt_of_lt_of_le (first.range h0 mem).2 (others.range h' isOuter).1)⟩
      rw [isPath, List.cons.injEq] at same
      exact Nat.ne_of_lt lt same.1
  range h mem := by
    rcases mem_append.mp mem with isInner | isOuter
    · obtain ⟨h0, mem0, rfl⟩ := mem_map.mp isInner
      have inside := first.range h0 mem0
      exact ⟨inside.1, Nat.lt_of_lt_of_le inside.2 others.later⟩
    · have inside := others.range h isOuter
      have later := first.later
      exact ⟨Nat.le_trans (Nat.le_trans (Nat.le_succ _) later) inside.1, inside.2⟩

end Covers

/-! ## Noting -/

def NotesAll (types : TypeTable) (env : Env) (note : Reg → Ty → Lower Unit) (ty : Ty) : Prop :=
  ∀ slot s, slot < s.builder.nextReg →
    ∃ s' held, note slot ty env s = .ok ((), s') ∧ Covers slot slot (Leaf types ty) s s' held

theorem registerMembers_covers (nested : types.IsNested)
    (each : ∀ m ∈ members, types.needsFini m.type = true → NotesAll types env note m.type) (index : Nat) (slot : Reg)
    (s : LowerState) :
    ∃ s' held, registerMembers types note slot index members env s = .ok ((), s') ∧
      Covers slot s.builder.nextReg (MemberLeaf types index members) s s' held := by
  induction members generalizing index s with
  | nil => exact ⟨s, [], rfl, .nothing (by simp [MemberLeaf])⟩
  | cons m rest ih =>
    have rest_each : ∀ m ∈ rest, types.needsFini m.type = true → NotesAll types env note m.type :=
      fun m mem => each m (mem_cons_of_mem _ mem)
    rw [registerMembers]
    cases owns : types.needsFini m.type with
    | false =>
      obtain ⟨s', held, run, covers⟩ := ih rest_each (index + 1) s
      refine ⟨s', held, run, covers.congr fun path owned => ?_⟩
      rw [memberLeaf_cons, or_iff_right]
      rintro ⟨path', -, leaf⟩
      rw [needsFini_of_leaf nested leaf] at owns
      cases owns
    | true =>
      obtain ⟨s1, held1, run1, covers1⟩ := each m mem_cons_self owns s.builder.nextReg
        (s.edit fun b => (b.emit (.field slot index)).2) (lt_succ_self _)
      obtain ⟨s', held, run, covers⟩ := ih rest_each (index + 1) s1
      refine ⟨s', _, ?_, (covers1.field covers ?_).congr fun path owned => memberLeaf_cons⟩
      · rw [if_pos rfl]
        exact bind_ok.mpr ⟨_, _, rfl, bind_ok.mpr ⟨(), s1, run1, run⟩⟩
      · rintro path owned ⟨i, m', path', -, isPath, -⟩
        exact ⟨_, path', lt_of_lt_of_le (lt_succ_self _) (le_add_right _ _), isPath⟩

theorem registerSlotWithin_handle (holds : handleOf? ty = some owned) (depth : Nat) :
    registerSlotWithin types depth slot ty = register (.slot owned slot) := by
  obtain ⟨rfl, rfl⟩ | ⟨rfl | ⟨elem, rfl⟩, rfl⟩ := handleOf?_cases holds <;> cases depth <;> rfl

theorem leaf_iff_of_holds (holds : handleOf? ty = some owned) :
    Leaf types ty path owned' ↔ path = [] ∧ owned' = owned := by
  constructor
  · intro leaf
    cases leaf with
    | handle holds' => exact ⟨rfl, Option.some.inj (holds'.symm.trans holds)⟩
    | field _ _ => cases holds
  · rintro ⟨rfl, rfl⟩
    exact .handle holds

theorem leaf_user_iff {id : UserTypeId} :
    Leaf types (.user id) path owned ↔ MemberLeaf types 0 (types.get id).members path owned := by
  constructor
  · intro leaf
    cases leaf with
    | handle holds => cases holds
    | @field _ i m path' _ found inner => exact ⟨i, m, path', found, by rw [zero_add], inner⟩
  · rintro ⟨i, m, path', found, rfl, inner⟩
    rw [zero_add]
    exact .field found inner

theorem registerSlotWithin_plain (plain : ∀ id, ty ≠ .user id) (depth : Nat) :
    NotesAll types env (registerSlotWithin types depth) ty := by
  intro slot s below
  cases holds : handleOf? ty with
  | some owned =>
    rw [registerSlotWithin_handle holds]
    exact ⟨_, _, rfl, .handle below fun _ _ => leaf_iff_of_holds holds⟩
  | none =>
    obtain ⟨_, -, isString | isArray⟩ | same | ⟨_, id, -, -, isUser⟩ := registerSlotWithin_cases types depth slot ty
    · simp [handleOf?, isString] at holds
    · rw [handleOf?, if_pos isArray] at holds
      split at holds <;> cases holds
    · refine ⟨s, [], by rw [same]; rfl, .nothing fun path owned leaf => ?_⟩
      cases leaf with
      | handle holds' => cases holds.symm.trans holds'
      | field _ _ => exact plain _ rfl
    · exact absurd isUser (plain id)

theorem registerSlotWithin_covers (nested : types.IsNested) {rank : UserTypeId → Nat}
    (lower : ∀ id, ∀ m ∈ (types.get id).members, ∀ j, m.type = .user j → j < types.user.length → rank j < rank id)
    (depth : Nat) : ∀ ty, (∀ id, ty = .user id → id < types.user.length → rank id < depth) →
      NotesAll types env (registerSlotWithin types depth) ty := by
  have declared {id : UserTypeId} {m : Member} (mem : m ∈ (types.get id).members) : id < types.user.length := by
    by_contra past
    rw [TypeTable.get_of_le (not_lt.mp past)] at mem
    cases mem
  induction depth with
  | zero =>
    intro ty shallow
    cases ty with
    | user id =>
      refine fun slot s below => ⟨s, [], rfl, .nothing fun path owned leaf => ?_⟩
      obtain ⟨i, m, -, found, -⟩ := leaf_user_iff.mp leaf
      exact absurd (shallow id rfl (declared (mem_of_getElem? found))) (not_lt_zero _)
    | _ => exact registerSlotWithin_plain (by simp) 0
  | succ depth ih =>
    intro ty deep
    cases ty with
    | user id =>
      intro slot s below
      rw [registerSlotWithin]
      cases owns : types.needsFini (.user id) with
      | true =>
        have each : ∀ m ∈ (types.get id).members, types.needsFini m.type = true →
            NotesAll types env (registerSlotWithin types depth) m.type := by
          refine fun m mem _ => ih m.type fun j isUser inside => ?_
          have less := lower id m mem j isUser inside
          have most := deep id rfl (declared mem)
          omega
        obtain ⟨s', held, run, covers⟩ := registerMembers_covers nested each 0 slot s
        refine ⟨s', held, run, { covers.congr fun _ _ => leaf_user_iff with range := fun h mem => ?_ }⟩
        exact ⟨le_trans (le_of_lt below) (covers.range h mem).1, (covers.range h mem).2⟩
      | false =>
        refine ⟨s, [], rfl, .nothing fun path owned leaf => ?_⟩
        rw [needsFini_of_leaf nested leaf] at owns
        cases owns
    | _ => exact registerSlotWithin_plain (by simp) _

/-- In a program that was checked, noting a slot notes exactly one release for each leaf of
its type, with the address that the path of the leaf leads to, and no two at one address;
types that are said to need no care have no leaves. -/
theorem registerSlot_coversLeaves {ctx : Context} {p : Source.Program} {typed : Typed.Program}
    (checked : Typed.check ctx p = .ok typed) (ty : Ty) (program : env.program = typed)
    (below : slot < s.builder.nextReg) {frame : List Cleanup} {rest : List (List Cleanup)}
    (frames : s.cleanups.frames = frame :: rest) {block : Ir.Block} (isBlock : s.builder.block = some block) :
    (∀ path owned, Leaf typed.types ty path owned → typed.types.needsFini ty = true) ∧
    ∃ s' block' held, registerSlot slot ty env s = .ok ((), s') ∧ s'.builder.block = some block' ∧
      s'.cleanups.frames = ((held.map Held.cleanup).reverse ++ frame) :: rest ∧
      (∀ path owned, Leaf typed.types ty path owned ↔ ∃ address, ⟨path, owned, address⟩ ∈ held) ∧
      (held.map Held.path).Nodup ∧ (held.map Held.address).Nodup ∧
      (∀ h ∈ held, Leads block' slot h.path h.address) ∧
      ((∀ path owned, ¬ Leaf typed.types ty path owned) → held = []) := by
  have nested := (Typed.check_resolved checked).nested
  obtain ⟨rank, most, lower⟩ := nested.ranked
  have notes : NotesAll typed.types env _ ty :=
    registerSlotWithin_covers nested lower typed.types.user.length ty fun id _ inside => most id inside
  obtain ⟨s', held, run, covers⟩ := notes slot s below
  obtain ⟨block', isBlock', -, leads⟩ := covers.block block isBlock
  refine ⟨fun path owned leaf => needsFini_of_leaf nested leaf, s', block', held, ?_, isBlock',
    covers.frames frame rest frames, covers.leaves, pairwise_map.mpr (covers.apart.imp And.left),
    pairwise_map.mpr (covers.apart.imp And.right), leads, fun none => ?_⟩
  · subst program
    exact run
  · refine eq_nil_iff_forall_not_mem.mpr fun h mem => ?_
    exact none h.path h.owned ((covers.leaves _ _).mpr ⟨h.address, mem⟩)

/-- A string two fields deep is noted in a slot of its outermost type. -/
theorem sharedString_covered : ∃ (typed : Typed.Program) (env : Env) (s s' : LowerState)
    (held : List Held) (address : Reg),
    Typed.check (.bare .bits64) ⟨[], Typed.sharingTypes, []⟩ = .ok typed ∧
      registerSlot 0 (.user 0) env s = .ok ((), s') ∧
        s'.cleanups.frames = [(held.map Held.cleanup).reverse] ∧ ⟨[0, 2], .string, address⟩ ∈ held := by
  have computed : ((Typed.check (.bare .bits64) ⟨[], Typed.sharingTypes, []⟩).toOption.map fun typed =>
      ((typed.types.get 0).members[0]?.map (·.type), (typed.types.get 1).members[2]?.map (·.type))) =
        some (some (.user 1), some .string) := by decide +kernel
  cases checked : Typed.check (.bare .bits64) ⟨[], Typed.sharingTypes, []⟩ with
  | error e => simp [checked, Except.toOption] at computed
  | ok typed =>
    simp only [checked, Except.toOption, Option.map_some, Option.some.injEq, Prod.mk.injEq,
      Option.map_eq_some_iff] at computed
    obtain ⟨⟨edge, first, isUser⟩, label, third, isString⟩ := computed
    have leaf : Leaf typed.types (.user 0) [0, 2] .string :=
      .field first (isUser ▸ .field third (isString ▸ .handle rfl))
    let s : LowerState := ⟨((Ir.Builder.start "").startFunction "" [.handle] .void).2, ⟨[[]], [], [], []⟩⟩
    have below : 0 < s.builder.nextReg := Nat.one_pos
    have frames : s.cleanups.frames = [] :: [] := rfl
    obtain ⟨-, s', -, held, run, -, frames, leaves, -⟩ := registerSlot_coversLeaves checked (.user 0)
      (show (Env.mk typed .void false [] [] none none none).program = typed from rfl) below frames rfl
    obtain ⟨address, mem⟩ := (leaves [0, 2] .string).mp leaf
    exact ⟨typed, _, s, s', held, address, rfl, run, by simpa using frames, mem⟩

end BasicCompiler.Lowering
