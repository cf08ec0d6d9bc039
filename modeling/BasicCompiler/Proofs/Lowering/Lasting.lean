/-
# What holds of the code of a whole function

A property of the state that lasts through every link of the lowering holds when the body of a function has been
lowered, if it holds at the beginning.
-/
import BasicCompiler.Proofs.Lowering.Modules
import BasicCompiler.Proofs.Lowering.Stores

namespace BasicCompiler

open Ir.Builder Typed Lowering.LowerState Option List

/-! ## Code and ends of blocks -/

/-- The code of a block and how it ends, as far as it does. -/
def Ir.Block.text (c : Ir.Block) : List Ir.Instr × Option Ir.Terminator := (c.code, c.terminator)

namespace Lowering

open Lower
open Typed (Outlook)

def Step.instr? (s : LowerState) : Step → Option Ir.Instr
  | .emit op => some ⟨some s.builder.nextReg, op⟩
  | .perform op => some ⟨none, op⟩
  | .text _ => some ⟨some s.builder.nextReg, .global s!".str.{s.builder.nextString}"⟩
  | .fresh callee args => some ⟨some s.builder.nextReg, .call callee args⟩
  | .slot _ | .note _ _ => none

/-- The blocks that have been left read `done`, and the current block reads `code`, with the
end `t` if it has one. -/
structure Reads (s : LowerState) (done : List (List Ir.Instr × Option Ir.Terminator)) (code : List Ir.Instr)
    (t : Option Ir.Terminator) : Prop where
  proper : s.builder.Proper
  closed : s.builder.closed.map Ir.Block.text = done
  block : s.builder.block.map Ir.Block.text = some (code, t)

namespace Reads

theorem of_proper (proper : s.builder.Proper) : ∃ done code t, Reads s done code t := by
  obtain ⟨c, block⟩ := proper.block
  exact ⟨_, c.code, c.terminator, proper, rfl, by rw [block]; rfl⟩

theorem start (b : Ir.Builder) (name : String) (params : List Ir.Ty) (result : Ir.Ty) :
    Reads ⟨(b.startFunction name params result).2, CleanupStack.empty⟩ [] [] none :=
  ⟨(b.placed_startFunction name params result).proper, rfl, rfl⟩

section

variable (h : Reads s done code t)
include h

theorem tidy (step : CleanupStack → CleanupStack) : Reads (s.tidy step) done code t := ⟨h.proper, h.closed, h.block⟩

theorem create (label : String) : Reads (s.create label) done code t :=
  ⟨(advances_createBlock label h.proper).1, h.closed, h.block⟩

theorem finish (t' : Ir.Terminator) : Reads (s.finish t') done code (t.or (some t')) := by
  refine ⟨(advances_terminate t' h.proper).1, h.closed, ?_⟩
  obtain ⟨c, block, same⟩ := map_eq_some_iff.mp h.block
  obtain ⟨rfl, rfl⟩ := Prod.mk.inj same
  change (s.builder.block.map fun c => c.close t').map Ir.Block.text = _
  rw [block]
  rfl

theorem enter (id : Ir.BlockId) : Reads (s.enter id) (done ++ [(code, t.or (some (.br id)))]) [] none := by
  obtain ⟨c, block, same⟩ := map_eq_some_iff.mp h.block
  obtain ⟨rfl, rfl⟩ := Prod.mk.inj same
  obtain ⟨f, function⟩ := h.proper.function
  obtain ⟨closed, entered⟩ := setBlock_entered function block id
  refine ⟨(advances_setBlock id h.proper).1, ?_, ?_⟩
  · change (s.builder.setBlock id).closed.map _ = _
    rw [closed, map_append, h.closed]
    rfl
  · change (s.builder.setBlock id).block.map _ = _
    rfl

theorem detach (label : String) :
    Reads (s.detach label) (done ++ [(code, t.or (some (.br s.builder.nextBlock)))]) [] none :=
  (h.create label).enter _

theorem slot (type : Ir.Ty) : Reads (s.edit fun b => (b.alloca type).2) done code t := by
  refine ⟨(Ir.Builder.advances_alloca type h.proper).1, ?_, ?_⟩
  all_goals
    obtain ⟨f, function⟩ := h.proper.function
    obtain ⟨c, block⟩ := h.proper.block
    obtain ⟨first, rest, entered, laid⟩ := h.proper.laid
    rw [Ir.Builder.entered_of_block block, Ir.Builder.closed, function] at entered
    obtain ⟨first', rest', closed, function', block'⟩ | ⟨closed, function', block'⟩ :=
      Ir.Builder.alloca_cases function block type
    all_goals
      change f.closed ++ [c] = first :: rest at entered
      rw [closed] at entered
      obtain ⟨rfl, -⟩ := cons.inj entered
      have same := laid.insertAt_code (i := ⟨some s.builder.nextReg, .alloca type⟩) rfl
  · rw [edit_builder, Ir.Builder.closed, function', ← h.closed, Ir.Builder.closed, function]
    change Ir.Block.text _ :: rest'.map _ = f.closed.map _
    rw [closed, Ir.Block.text, same]
    rfl
  · rw [edit_builder, Ir.Builder.closed, function', ← h.closed, Ir.Builder.closed, function]
  · rw [edit_builder, block', ← h.block, block]
  · rw [edit_builder, block', ← h.block, block]
    change some (Ir.Block.code _, _) = _
    rw [same]
    rfl

theorem push (proper : s'.builder.Proper)
    (function : s'.builder.function = s.builder.function) (block : s'.builder.block = s.builder.block.map (·.push i))
    (plain : i.isSlot = false) : Reads s' done (code ++ [i]) t := by
  refine ⟨proper, ?_, ?_⟩
  · rw [← h.closed, Ir.Builder.closed, Ir.Builder.closed, function]
  · obtain ⟨c, current, same⟩ := map_eq_some_iff.mp h.block
    obtain ⟨rfl, rfl⟩ := Prod.mk.inj same
    rw [block, current]
    change some (Ir.Block.code _, _) = _
    rw [Ir.Block.code_push plain]
    rfl

theorem step (st : Step) (noSlot : st.NoSlot) : Reads (st.play s) done (code ++ (st.instr? s).toList) t := by
  have proper := (st.play_advances noSlot h.proper).1
  cases st with
  | emit op | perform op => exact h.push proper rfl rfl noSlot
  | text content | fresh callee args => exact h.push proper rfl rfl rfl
  | slot type =>
    rw [show (Step.slot type).instr? s = none from rfl, toList_none, append_nil]
    exact h.slot type
  | note owned place =>
    rw [show (Step.note owned place).instr? s = none from rfl, toList_none, append_nil]
    exact ⟨proper, h.closed, h.block⟩

theorem entered : s.builder.entered.map Ir.Block.text = done ++ [(code, t)] := by
  obtain ⟨c, block, same⟩ := map_eq_some_iff.mp h.block
  rw [entered_of_block block, map_append, h.closed, ← same]
  rfl

end

end Reads

/-! ## Properties that last -/

/-- A property that lasts through every link of the lowering of a function, whose body is in
the surroundings `home`. -/
structure Lasting (w : Outlook) (home : Env) (passed : Ir.Reg → Prop) (P : LowerState → Prop) : Prop where
  proper : ∀ s, P s → s.builder.Proper
  straight : ∀ s s', Straight w home passed s s' → P s → P s'
  create : ∀ s label, P s → P (s.create label)
  enter : ∀ s id, P s → P (s.enter id)
  jump : ∀ s t, (∀ value, t ≠ .ret value) → P s → P (s.finish t)
  tidy : ∀ s step, (∀ c ∈ (step s.cleanups).frames.flatten, c ∈ s.cleanups.frames.flatten) → P s → P (s.tidy step)
  returns : ∀ env span value s s', env.Inside home → env.result = home.result → env.isMain = home.isMain →
    (Stmt.ret span value).WellTyped w → returnStmt value env s = .ok ((), s') → P s →
    P (s'.detach "after.return")

namespace Lasting

section

variable (h : Lasting w home passed P)
include h

theorem plays (plays : Plays w home passed m)
    (inside : env.Inside home) (run : m env s = .ok (a, s')) (before : P s) : P s' :=
  h.straight s s' (plays env s a s' inside (h.proper s before) run) before

theorem ran (cs : List Cleanup) (before : P s) : P (s.ran cs) := h.tidy s _ (fun _ mem => mem) before

theorem closeFrame (inside : env.Inside home) (run : Lower.closeFrame env s = .ok ((), s')) (before : P s) : P s' := by
  have popped : P (s.tidy fun c => c.popFrame.2) := h.tidy s _ (fun _ mem => mem_of_mem_popFrame (.inr mem)) before
  have released := closeFrame_ok run
  split at released
  · exact h.plays (.emitCleanups _) inside released (h.ran _ popped)
  · rw [released]
    exact popped

theorem links
    (sees : ∀ id v, w.sees? id = some v → home.program.asVariable? id = some v) (links : Links w home sts s s')
    (before : P s) : P s' := by
  have around (loop : Option LoopTargets) (nextCase : Option CaseTarget) : (home.around loop nextCase).Inside home :=
    ⟨rfl, fun _ _ found => found⟩
  induction links with
  | refl => exact before
  | trans _ _ first second => exact second (first before)
  | create label => exact h.create _ label before
  | enter id => exact h.enter _ id before
  | jump t noReturn => exact h.jump _ t noReturn before
  | piece isPiece run => exact h.plays (Plays.piece isPiece sees) (around _ _) run before
  | release run => exact h.plays (.emitCleanups _) (around _ _) run (h.ran _ before)
  | framed _ shut within =>
    exact h.closeFrame (around _ _) shut (within (h.tidy _ _ (fun _ mem => mem) before))
  | returns span value typed run =>
    refine h.returns _ span value _ _ (around _ _) ?_ ?_ typed run before
    all_goals rfl

theorem createAll (labels : List String) (before : P s) : P (s.createAll labels) := by
  induction labels generalizing s with
  | nil => exact before
  | cons label labels ih => exact ih (h.create s label before)

end

end Lasting

/-- The surroundings of a function's body. -/
structure Env.IsHome (home : Env) (p : Program) (f : Function) (isMain : Bool) : Prop where
  program : home.program = p
  result : home.result = f.result
  isMain : home.isMain = isMain

/-- The stages of the lowering of a function: nothing is done, the parameters have their
slots, the locals have theirs, and the body is lowered. -/
structure Stages (p : Program) (f : Function) (isMain : Bool) (home : Env) (params : List ParamInfo)
    (s₀ s₁ s₂ s₃ : LowerState) : Prop where
  isHome : home.IsHome p f isMain
  infos : paramInfos p f.span f.params = .ok params
  start : Reads s₀ [] [] none
  unnoted : s₀.cleanups = .empty
  slots : ∃ slots slots', home.slots = slots ++ slots' ∧
    paramSlots (params.zip (List.range params.length)) (startEnv p f isMain) (s₀.tidy (·.pushFrame)) = .ok (slots, s₁) ∧
    localSlots f.locals (startEnv p f isMain) s₁ = .ok (slots', s₂)
  links : Links (p.outlook f) home f.body.parts (s₂.createAll (f.labels.map (labelName p))) s₃

section

variable {params : List ParamInfo}

theorem lowerFunction_stages (typed : f.WellTyped p) (run : lowerFunction p b f isMain = .ok s') :
    ∃ home params s0 s1 s2 s3, Stages p f isMain home params s0 s1 s2 s3 ∧
      endOfFunction f.endValue home s3 = .ok ((), s') := by
  obtain ⟨params, infos, body⟩ := lowerFunction_run run
  obtain ⟨slots, slots', s1, s2, s3, atParams, atLocals, body, ended⟩ := functionBody_run body
  let home : Env := { startEnv p f isMain with
    slots := slots ++ slots'
    labels := f.labels.zip (range' s2.builder.nextBlock f.labels.length) }
  have regs : (b.startFunction f.linkName (params.map (·.irType p.types)) (resultType p f isMain)).1
      = range params.length := by
    rw [startFunction, length_map]
  rw [regs] at atParams
  refine ⟨home, params, _, s1, s2, s3, ⟨⟨rfl, rfl, rfl⟩, infos, .start b f.linkName (params.map (·.irType p.types))
    (resultType p f isMain), rfl, ⟨slots, slots', rfl, atParams, atLocals⟩, ?_⟩, ended⟩
  exact Links.block f.body typed.body _ _ _ _ body

namespace Stages

theorem inside (h : Stages p f isMain home params s0 s1 s2 s3) : (startEnv p f isMain).Inside home :=
  ⟨h.isHome.program.symm, fun _ _ found => by cases found⟩

theorem sees (h : Stages p f isMain home params s0 s1 s2 s3) :
    ∀ id v, (p.outlook f).sees? id = some v → home.program.asVariable? id = some v := by
  intro id v seen
  rw [h.isHome.program]
  change (if id ∈ _ then _ else _) = _ at seen
  split at seen
  · exact seen
  · cases seen

section

variable (h : Stages p f isMain home params s0 s1 s2 s3) (lasts : Lasting (p.outlook f) home passed P)
include h lasts

theorem entry
    (isPassed : ∀ q ∈ params.zip (range params.length), q.1.byRef = false → q.1.type.isString = false → passed q.2)
    (before : P s0) : P s1 := by
  obtain ⟨slots, slots', -, atParams, -⟩ := h.slots
  exact lasts.plays (.paramSlots isPassed) h.inside atParams (lasts.tidy _ (·.pushFrame) (fun _ mem => mem) before)

theorem body (before : P s1) : P (s2.createAll (f.labels.map (labelName p))) ∧ P s3 := by
  obtain ⟨slots, slots', -, -, atLocals⟩ := h.slots
  have named := lasts.createAll (f.labels.map (labelName p)) (lasts.plays (.localSlots f.locals) h.inside atLocals before)
  exact ⟨named, lasts.links h.sees h.links named⟩

end

end Stages

end

end Lowering

end BasicCompiler
