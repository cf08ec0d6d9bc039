/-
# Code without branches, step by step

Between two branches the lowering only takes steps of a few kinds, and each of them adds at most one instruction to
the current block.
-/
import BasicCompiler.Proofs.Lowering.Made

namespace BasicCompiler.Lowering

open Lower Ir.Builder

/-! ## Steps -/

inductive Step where
  /-- An instruction with a result. -/
  | emit (op : Ir.Op)
  | perform (op : Ir.Op)
  | slot (type : Ir.Ty)
  /-- A constant text. -/
  | text (content : String)
  /-- A call that makes a string, and the note of its release. -/
  | fresh (callee : String) (args : List Ir.Reg)
  /-- The note that what a place holds is to be released. -/
  | note (owned : Owned) (place : Ir.Reg)

namespace Step

variable {s : LowerState}

def play (s : LowerState) : Step → LowerState
  | .emit op => s.edit fun b => (b.emit op).2
  | .perform op => s.edit (·.perform op)
  | .slot type => s.edit fun b => (b.alloca type).2
  | .text content => s.edit fun b => (b.stringConstant content).2
  | .fresh callee args =>
      (s.edit fun b => (b.emit (.call callee args)).2).tidy
        (·.register (.direct .string s.builder.nextReg))
  | .note owned place => s.tidy (·.register (.slot owned place))

def NoSlot : Step → Prop
  | .emit op | .perform op => (Ir.Instr.mk none op).isSlot = false
  | _ => True

theorem play_nextReg (st : Step) : (st.play s).builder.nextReg = s.builder.nextReg ∨
    (st.play s).builder.nextReg = s.builder.nextReg + 1 := by
  cases st with
  | slot type => exact .inr (s.builder.alloca_nextReg type)
  | emit op | text content | fresh callee args => exact .inr rfl
  | _ => exact .inl rfl

theorem play_nextReg_le (st : Step) : s.builder.nextReg ≤ (st.play s).builder.nextReg := by
  obtain same | next := st.play_nextReg (s := s)
  · exact Nat.le_of_eq same.symm
  · exact next ▸ Nat.le_succ _

theorem play_nextBlock (st : Step) : (st.play s).builder.nextBlock = s.builder.nextBlock := by
  cases st with
  | slot type => exact (alloca_rest type).1
  | _ => rfl

theorem play_advances (st : Step) (h : st.NoSlot) : s.builder.Advances (st.play s).builder := by
  cases st with
  | emit op => exact advances_emit op h
  | perform op => exact advances_perform op h
  | slot type => exact advances_alloca type
  | text content => exact advances_stringConstant content
  | fresh callee args => exact advances_emit (.call callee args) rfl
  | note owned place => exact .refl _

end Step

/-- Steps lead from one state to another, and each of them is fit where it is played. -/
inductive Played (fit : LowerState → Step → Prop) : LowerState → LowerState → Prop where
  | refl (s : LowerState) : Played fit s s
  | step {s s₁ : LowerState} (st : Step) : Played fit s s₁ → fit s₁ st → Played fit s (st.play s₁)

namespace Played

theorem one (st : Step) (h : fit s st) : Played fit s (st.play s) := (refl s).step st h

theorem trans (h : Played fit s s1) (h' : Played fit s1 s') : Played fit s s' := by
  induction h' with
  | refl => exact h
  | step st _ isFit ih => exact ih.step st isFit

section

variable (h : Played fit s s')
include h

theorem mono (more : ∀ s st, fit s st → fit' s st) : Played fit' s s' := by
  induction h with
  | refl => exact refl _
  | step st _ isFit ih => exact ih.step st (more _ st isFit)

theorem nextReg_le : s.builder.nextReg ≤ s'.builder.nextReg := by
  induction h with
  | refl => exact Nat.le_refl _
  | step st _ _ ih => exact Nat.le_trans ih st.play_nextReg_le

theorem nextBlock : s'.builder.nextBlock = s.builder.nextBlock := by
  induction h with
  | refl => rfl
  | step st _ _ ih => rw [st.play_nextBlock, ih]

theorem advances (noSlot : ∀ s st, fit s st → st.NoSlot) : s.builder.Advances s'.builder := by
  induction h with
  | refl => exact .refl _
  | step st _ isFit ih => exact ih.trans (st.play_advances (noSlot _ st isFit))

end

end Played

/-! ## Where a register is from -/

/-- The surroundings are in the same program, and what has a slot there has it at home, in
the body of the function. -/
def Env.Inside (env home : Env) : Prop :=
  env.program = home.program ∧ ∀ id slot, env.slots.lookup id = some slot → home.slots.lookup id = some slot

def Answered (home : Env) (m : Lower Ir.Reg) (s : LowerState) (reg : Ir.Reg) : Prop :=
  ∃ env s₀ s₁, env.Inside home ∧ m env s₀ = .ok (reg, s₁) ∧ s₁.builder.Grows s.builder

theorem Answered.mono (h : Answered home m s reg) (grows : s.builder.Grows s'.builder) : Answered home m s' reg := by
  obtain ⟨env, s0, s1, inside, run, before⟩ := h
  exact ⟨env, s0, s1, inside, run, before.trans grows⟩

theorem Answered.here (inside : env.Inside home) (run : m env s = .ok (reg, s')) : Answered home m s' reg :=
  ⟨env, s, s', inside, run, .refl _⟩

/-- The register is one of those that were known at the beginning, or has been filled since. -/
def Known (K : Ir.Reg → Prop) (s₀ s : LowerState) (r : Ir.Reg) : Prop :=
  K r ∨ s₀.builder.nextReg ≤ r ∧ r < s.builder.nextReg

theorem Known.mono (h : Known K s0 s r) (le : s.builder.nextReg ≤ s'.builder.nextReg) : Known K s0 s' r :=
  h.imp_right fun since => ⟨since.1, Nat.lt_of_lt_of_le since.2 le⟩

/-! ## The steps of a piece -/

/-- What may be played on the terms in `s`, where the piece began in `s0`. -/
inductive Terms.Admits (t : Terms) (home : Env) (K : Ir.Reg → Prop) (s₀ s : LowerState) : Step → Prop where
  | emit {op : Ir.Op} : t.emits op → (∀ r ∈ op.operands, Known K s₀ s r) → Admits t home K s₀ s (.emit op)
  | global {id : SymbolId} {name : String} {span : Span} {scope : ScopeId} {type : Ty} : t.sees id →
      home.program.scopes.get? id = some ⟨name, span, scope, .variable ⟨type, .global⟩⟩ →
      Admits t home K s₀ s (.emit (.global (globalName name)))
  | callVoid {callee : String} {args : List Ir.Reg} : t.reaches callee → (∀ r ∈ args, Known K s₀ s r) →
      Admits t home K s₀ s (.perform (.call callee args))
  | fresh {callee : String} {args : List Ir.Reg} : t.reaches callee → (∀ r ∈ args, Known K s₀ s r) →
      Admits t home K s₀ s (.fresh callee args)
  | text (content : String) : Admits t home K s₀ s (.text content)
  | slot (type : Ir.Ty) : Admits t home K s₀ s (.slot type)
  | note {owned : Owned} {place : Ir.Reg} : t.stores → Known K s₀ s place → Admits t home K s₀ s (.note owned place)
  /-- What is stored is the value of an expression, unless all may be stored. -/
  | store {address value : Ir.Reg} :
      (t.stores ∨ ∃ e, t.evaluates .slot e ∧ (s₀.builder.Proper → Answered home (expr .value e) s value)) →
      Known K s₀ s address → Known K s₀ s value → Admits t home K s₀ s (.perform (.store address value))

variable {t : Terms}

theorem Terms.emits.noSlot (h : t.emits op) : (Ir.Instr.mk none op).isSlot = false := by
  cases op with
  | alloca type => exact h.elim
  | _ => rfl

theorem Terms.Admits.noSlot (h : t.Admits home K s0 s st) : st.NoSlot := by
  cases h with
  | emit emits _ => exact emits.noSlot
  | text | slot | fresh | note => trivial
  | _ => rfl

/-- Where a run of a piece stands that began in `s0`. -/
structure Midway (home : Env) (K : Ir.Reg → Prop) (s₀ : LowerState) (regs : List Ir.Reg) (env : Env)
    (s : LowerState) : Prop where
  inside : env.Inside home
  target : ∀ r, env.target = some r → Known K s₀ s r
  regs : ∀ r ∈ regs, Known K s₀ s r
  since : s₀.builder.nextReg ≤ s.builder.nextReg
  advances : s₀.builder.Advances s.builder

theorem Midway.next {regs new : List Ir.Reg}
    (h : Midway home K s0 regs env s) (played : Played (t.Admits home K s0) s s')
    (known : ∀ r ∈ new, Known K s0 s' r) : Midway home K s0 (new ++ regs) env s' where
  inside := h.inside
  target r same := (h.target r same).mono played.nextReg_le
  regs r mem := (List.mem_append.mp mem).elim (known r) fun old => (h.regs r old).mono played.nextReg_le
  since := Nat.le_trans h.since played.nextReg_le
  advances := h.advances.trans (played.advances fun _ _ admits => admits.noSlot)

/-- What may be called on the terms is so called at home, and the slots there are known. -/
structure Terms.Suits (t : Terms) (home : Env) (K : Ir.Reg → Prop) : Prop where
  calls : ∀ want info callee args, t.evaluates want (.call info callee args) → t.calls (calleeName home.program callee)
  slots : ∀ id slot, home.slots.lookup id = some slot → K slot

theorem varAddress_run {id : SymbolId} (run : varAddress id env s = .ok (reg, s')) :
    env.slots.lookup id = some reg ∧ s' = s ∨ ∃ name span scope type,
      env.program.scopes.get? id = some ⟨name, span, scope, .variable ⟨type, .global⟩⟩ ∧
      emit (.global (globalName name)) env s = .ok (reg, s') := by
  obtain ⟨e, s1, read, found⟩ := bind_ok.mp run
  obtain ⟨rfl, rfl⟩ := read_ok.mp read
  cases atSlot : e.slots.lookup id with
  | some slot =>
    rw [atSlot] at found
    cases found
    exact .inl ⟨rfl, rfl⟩
  | none =>
    rw [atSlot] at found
    rcases symbol : e.program.scopes.get? id with _ | ⟨name, span, scope, kind⟩ <;> rw [symbol] at found
    · exact (fail_ok.mp found).elim
    · rcases kind with ⟨type, storage⟩ | _ | _ | _
      · cases storage with
        | global => exact .inr ⟨name, span, scope, type, rfl, found⟩
        | _ => exact (fail_ok.mp found).elim
      all_goals exact (fail_ok.mp found).elim

theorem Made.played {regs : List Ir.Reg} {α : Type} [Regs α] {m : Lower α} (made : Made t regs m)
    (suits : t.Suits home K) {a : α} (h : Midway home K s0 regs env s) (run : m env s = .ok (a, s')) :
    Played (t.Admits home K s0) s s' ∧ ∀ r ∈ Regs.of a, Known K s0 s' r := by
  have new {s : LowerState} (since : s0.builder.nextReg ≤ s.builder.nextReg) {s' : LowerState}
      (next : s'.builder.nextReg = s.builder.nextReg + 1) : ∀ r ∈ Regs.of s.builder.nextReg, Known K s0 s' r := by
    intro r mem
    rw [Regs.of_reg, List.mem_singleton] at mem
    exact .inr ⟨mem ▸ since, by rw [mem, next]; exact Nat.lt_succ_self _⟩
  induction made generalizing env s s' with
  | pure b there =>
    cases run
    exact ⟨.refl _, fun r mem => h.regs r (there mem)⟩
  | fails span _ fails =>
    obtain ⟨fault, failed⟩ := fails env s
    rw [failed] at run
    cases run
  | bind _ _ first second =>
    obtain ⟨b, s1, run1, run2⟩ := bind_ok.mp run
    obtain ⟨played1, known1⟩ := first h run1
    obtain ⟨played2, known2⟩ := second b (h.next played1 known1) run2
    exact ⟨played1.trans played2, known2⟩
  | look _ _ ih => exact ih env h run
  | named asked _ ih =>
    refine ih _ _ ?_ h run
    rw [h.inside.1]
    exact suits.calls _ _ _ _ asked
  | emit op emits there =>
    cases run
    exact ⟨.one (.emit op) (.emit emits fun r mem => h.regs r (there mem)), new h.since rfl⟩
  | callVoid callee args reaches there =>
    cases run
    exact ⟨.one (.perform _) (.callVoid reaches fun r mem => h.regs r (there mem)), by simp⟩
  | fresh callee args reaches there =>
    obtain ⟨handle, s1, called, run⟩ := bind_ok.mp run
    cases called
    obtain ⟨_, s2, noted, run⟩ := bind_ok.mp run
    cases noted
    cases run
    exact ⟨.one (.fresh callee args) (.fresh reaches fun r mem => h.regs r (there mem)), new h.since rfl⟩
  | text content =>
    cases run
    exact ⟨.one (.text content) (.text content), new h.since rfl⟩
  | locate id sees =>
    obtain ⟨atSlot, rfl⟩ | ⟨name, _, _, type, isGlobal, emitted⟩ := varAddress_run run
    · refine ⟨.refl _, fun r mem => .inl ?_⟩
      rw [Regs.of_reg, List.mem_singleton] at mem
      exact mem ▸ suits.slots id a (h.inside.2 id a atSlot)
    · cases emitted
      rw [h.inside.1] at isGlobal
      exact ⟨.one (.emit _) (.global sees isGlobal), new h.since rfl⟩
  | @reread regs α _ f _ _ none some =>
    have run : f env.target env s = .ok (a, s') := run
    cases found : env.target with
    | none =>
      rw [found] at run
      exact none h run
    | some reg =>
      rw [found] at run
      refine some reg ⟨h.inside, h.target, ?_, h.since, h.advances⟩ run
      exact List.forall_mem_cons.mpr ⟨h.target reg found, h.regs⟩
  | aim address there _ ih =>
    have aimed : Midway home K s0 _ { env with target := some address } s :=
      ⟨h.inside, fun r same => Option.some.inj same ▸ h.regs _ there, h.regs, h.since, h.advances⟩
    exact ih aimed run
  | slot type =>
    obtain ⟨rfl, rfl⟩ := build_ok.mp run
    refine ⟨.one (.slot type) (.slot type), ?_⟩
    rw [alloca_fst]
    exact new h.since (s.builder.alloca_nextReg type)
  | note owned place may there =>
    cases run
    exact ⟨.one (.note owned place) (.note may (h.regs _ there)), by simp⟩
  | @spill _ e m ty asked same _ ih =>
    obtain ⟨value, s1, evaluated, run⟩ := bind_ok.mp run
    obtain ⟨table, s2, typed, made⟩ := bind_ok.mp run
    obtain ⟨-, rfl⟩ := types_ok.mp typed
    obtain ⟨place, s3, allocated, run⟩ := bind_ok.mp made
    obtain ⟨rfl, rfl⟩ := build_ok.mp allocated
    obtain ⟨_, s4, stored, run⟩ := bind_ok.mp run
    cases stored
    cases run
    obtain ⟨played, known⟩ := ih h evaluated
    have midway := h.next played known
    rw [alloca_fst]
    let s3 := (Step.slot (irType table ty)).play s2
    have atSlot : ∀ r ∈ Regs.of s2.builder.nextReg, Known K s0 s3 r :=
      new midway.since (s2.builder.alloca_nextReg (irType table ty))
    have atValue : Known K s0 s3 value := (known value (by simp)).mono (Step.play_nextReg_le _)
    refine ⟨(played.step (.slot _) (.slot _)).step (.perform (.store s2.builder.nextReg value))
      (.store (.inr ⟨e, asked, fun proper => ?_⟩) (atSlot _ (by simp)) atValue), atSlot⟩
    refine (Answered.here h.inside (same ▸ evaluated)).mono ?_
    exact (advances_alloca _ (midway.advances proper).1).2
  | store address value may atAddress atValue =>
    cases run
    exact ⟨.one (.perform _) (.store (.inl may) (h.regs _ atAddress) (h.regs _ atValue)), by simp⟩

end BasicCompiler.Lowering
