/-
# The functions of a module

A module that was lowered has the functions of the program in order, behind those that are only declared, and each of
them is what the lowering of its function built.
-/
import BasicCompiler.Compiler
import BasicCompiler.Proofs.Ir.Typing
import BasicCompiler.Proofs.Lowering.Functions
import BasicCompiler.Proofs.Typed.Checking

namespace BasicCompiler.Lowering

open List Typed Ir.Builder
open Ir (BlockId Reg)

variable {b : Ir.Builder}

/-! ## One function -/

def resultType (p : Program) (f : Function) (isMain : Bool) : Ir.Ty := if isMain then .i32 else irType p.types f.result

theorem lowerFunction_run (run : lowerFunction p b f isMain = .ok s) :
    ∃ params, Lower.paramInfos p f.span f.params = .ok params ∧
      Lower.functionBody f params
        (b.startFunction f.linkName (params.map (·.irType p.types)) (resultType p f isMain)).1 (startEnv p f isMain)
        ⟨(b.startFunction f.linkName (params.map (·.irType p.types)) (resultType p f isMain)).2,
          CleanupStack.empty⟩ = .ok ((), s) := by
  obtain ⟨params, infos, run⟩ := bind_ok_iff.mp run
  obtain ⟨⟨_, s'⟩, body, run⟩ := bind_ok_iff.mp run
  cases run
  exact ⟨params, infos, body⟩

theorem startEnv_outermost (p : Program) (f : Function) (isMain : Bool) :
    Outermost (startEnv p f isMain) := ⟨rfl, rfl, rfl, rfl, rfl⟩

theorem lowerFunction_placed (labelled : f.Labelled) (run : lowerFunction p b f isMain = .ok s) :
    ∃ filled, s.builder.Placed filled (labelBlockIds f) ∧ ¬ s.builder.IsOpen ∧ ∀ id, ¬ s.builder.Pending id := by
  obtain ⟨params, -, body⟩ := lowerFunction_run run
  exact functionBody_placed (startEnv_outermost p f isMain) labelled b _ _ _ body

theorem Edits.createAll (s : LowerState) (labels : List String) : Edits s (s.createAll labels) := by
  induction labels generalizing s with
  | nil => exact .refl s
  | cons label labels ih => exact (Edits.createBlock label).trans (ih (s.create label))

section

variable {params : List Lower.ParamInfo} (run : Lower.functionBody f params regs env s = .ok ((), s'))
include run

theorem functionBody_edits : Edits (s.tidy (·.pushFrame)) s' := by
  obtain ⟨slots, slots', s1, s2, s3, atParams, atLocals, inside, ended⟩ := Lower.functionBody_run run
  have front := (Made.paramSlots trivial (Subset.refl _)).edits atParams
  have front := front.trans ((Made.localSlots trivial f.locals : Made .any [] _).edits atLocals)
  have front := front.trans (.createAll s2 (f.labels.map (Lower.labelName env.program)))
  exact (front.trans ((Woven.block f.body).edits inside)).trans ((Woven.endOfFunction f.endValue).edits ended)

theorem functionBody_advances : s.builder.Advances s'.builder := (functionBody_edits run).advances

end

theorem finishFunction_eq (function : b.function = some g) (block : b.block = some c) :
    b.finishFunction.function = none ∧ b.finishFunction.module =
      { b.module with
        functions := b.module.functions ++ [.defined g.name g.params g.result b.entered] } := by
  simp [finishFunction, closeBlock, entered, closed, function, block]

theorem finishFunction_idle (idle : b.function = none) : b.finishFunction.module = b.module := by
  have none : b.closeBlock.function = none := by
    unfold closeBlock
    split <;> simp [idle]
  simp [finishFunction, none]

/-- What the lowering of a function has built became a function of a module. -/
structure Emits (p : Program) (job : Function × Bool) (fn : Ir.Function) : Prop where
  built : ∃ b s, lowerFunction p b job.1 job.2 = .ok s ∧
    fn = .defined job.1.linkName s.builder.params (resultType p job.1 job.2) s.builder.entered

section

variable (idle : b.function = none) (run : emitFunction p b f isMain = .ok b')
include idle run

theorem emitFunction_ok :
    ∃ s, lowerFunction p b f isMain = .ok s ∧ b'.function = none ∧ b'.module.globals = s.builder.module.globals ∧
      b'.module.functions = b.module.functions ++
        [.defined f.linkName s.builder.params (resultType p f isMain) s.builder.entered] := by
  obtain ⟨s, lowered, finished⟩ := bind_ok_iff.mp run
  cases finished
  obtain ⟨params, -, body⟩ := lowerFunction_run lowered
  have placed := b.placed_startFunction f.linkName (params.map (·.irType p.types))
    (resultType p f isMain)
  obtain ⟨proper, grows⟩ := functionBody_advances body placed.proper
  obtain ⟨g, function⟩ := proper.function
  obtain ⟨c, block⟩ := proper.block
  obtain ⟨done, module⟩ := finishFunction_eq function block
  have heading : (g.name, g.result) = (f.linkName, resultType p f isMain) := by
    have same := grows.heading
    rw [function] at same
    exact Option.some.inj same
  obtain ⟨name, result⟩ := Prod.mk.inj heading
  have sameParams : s.builder.params = g.params := by simp [Ir.Builder.params, function]
  have before : s.builder.module.functions = b.module.functions := by
    rw [grows.functions, ← finishFunction_idle idle]
    rfl
  refine ⟨s, lowered, done, by rw [module], ?_⟩
  rw [module, before, name, result, sameParams]

theorem emitFunction_run :
    b'.function = none ∧ ∃ fn, Emits p (f, isMain) fn ∧ b'.module.functions = b.module.functions ++ [fn] := by
  obtain ⟨s, lowered, done, -, functions⟩ := emitFunction_ok idle run
  exact ⟨done, _, ⟨b, s, lowered, rfl⟩, functions⟩

end

theorem Emits.signature (h : Emits p (f, isMain) fn) :
    fn.name = f.linkName ∧ ∃ params, Lower.paramInfos p f.span f.params = .ok params ∧
      fn.signature = ⟨params.map (·.irType p.types), false, resultType p f isMain⟩ := by
  obtain ⟨b, s, lowered, rfl⟩ := h.built
  obtain ⟨params, infos, body⟩ := lowerFunction_run lowered
  refine ⟨rfl, params, infos, ?_⟩
  have placed := b.placed_startFunction f.linkName (params.map (·.irType p.types)) (resultType p f isMain)
  have kept : s.builder.params = (range (params.map (·.irType p.types)).length).zip (params.map (·.irType p.types)) :=
    (functionBody_advances body placed.proper).2.params
  have types : s.builder.params.map (·.2) = params.map (·.irType p.types) := by
    rw [kept]
    exact map_snd_zip (Nat.le_of_eq length_range.symm)
  exact congrArg (Ir.Signature.mk · false (resultType p f isMain)) types

/-! ## All functions -/

theorem emitFunctions_cons (run : emitFunctions p b (job :: rest) = (b', [])) :
    ∃ b1, emitFunction p b job.1 job.2 = .ok b1 ∧ emitFunctions p b1 rest = (b', []) := by
  unfold emitFunctions at run
  cases emitted : emitFunction p b job.1 job.2 with
  | error e =>
    rw [emitted] at run
    cases run
  | ok b1 =>
    rw [emitted] at run
    exact ⟨b1, rfl, run⟩

theorem emitFunctions_run (idle : b.function = none) (run : emitFunctions p b jobs = (b', [])) :
    b'.function = none ∧ ∃ fns, Forall₂ (Emits p) jobs fns ∧
      b'.module.functions = b.module.functions ++ fns := by
  induction jobs generalizing b with
  | nil =>
    cases run
    exact ⟨idle, [], .nil, (append_nil _).symm⟩
  | cons job rest ih =>
    obtain ⟨b1, emitted, run⟩ := emitFunctions_cons run
    obtain ⟨idle1, fn, emits, functions⟩ := emitFunction_run idle emitted
    obtain ⟨idle', fns, others, functions'⟩ := ih idle1 run
    refine ⟨idle', fn :: fns, .cons emits others, ?_⟩
    rw [functions', functions, append_assoc]
    rfl

/-- A builder with declarations only. -/
structure Declares (b : Ir.Builder) : Prop where
  idle : b.function = none
  external : ∀ fn ∈ b.module.functions, ∃ name params isVararg result, fn = .external name params isVararg result

namespace Declares

theorem start (name : String) : Declares (Ir.Builder.start name) := ⟨rfl, by simp [Ir.Builder.start, Ir.Module.empty]⟩

theorem foldl {α : Type} {step : Ir.Builder → α → Ir.Builder}
    (keeps : ∀ b a, Declares b → Declares (step b a)) (as : List α) (h : Declares b) :
    Declares (as.foldl step b) := by
  induction as generalizing b with
  | nil => exact h
  | cons a as ih => exact ih (keeps b a h)

theorem declareExternal (h : Declares b) (name : String) (params : List Ir.Ty) (isVararg : Bool)
    (result : Ir.Ty) : Declares (b.declareExternal name params isVararg result) :=
  ⟨h.idle, forall_mem_append.mpr ⟨h.external, forall_mem_singleton.mpr ⟨name, params, isVararg, result, rfl⟩⟩⟩

theorem declareCommands (types : TypeTable) (seen : List String) (commands : List Command)
    (h : Declares b) : Declares (Lowering.declareCommands types seen b commands) := by
  induction commands generalizing seen b with
  | nil => exact h
  | cons c rest ih =>
    unfold Lowering.declareCommands
    split
    · exact ih seen h
    · exact ih _ (h.declareExternal _ _ _ _)

theorem declareGlobal (p : Program) (id : SymbolId) (h : Declares b) : Declares (Lowering.declareGlobal p b id) := by
  unfold Lowering.declareGlobal
  split
  · exact ⟨h.idle, h.external⟩
  · exact h

theorem declareAll (p : Program) (name : String) : Declares (Lowering.declareAll p name) := by
  have runtime : Declares (declareRuntime (Ir.Builder.start name)) :=
    foldl (fun b r h => h.declareExternal r.1 r.2.1 false r.2.2) runtime (start name)
  have commands := declareCommands p.types [] p.commands runtime
  have types := foldl (fun b t (h : Declares b) => (⟨h.idle, h.external⟩ : Declares
    (b.addStruct (fold t.name) (t.members.map fun m => irType p.types m.type)))) p.types.user commands
  exact foldl (fun b id h => declareGlobal p id h) p.globals types

end Declares

def jobs (p : Program) : List (Function × Bool) := p.functions.map (·, false) ++ [(p.main, true)]

theorem fst_mem_of_mem_jobs (mem : job ∈ jobs p) : job.1 ∈ p.functions ++ [p.main] := by
  rcases mem_append.mp mem with isFunction | isMain
  · obtain ⟨f, inside, rfl⟩ := mem_map.mp isFunction
    exact mem_append_left _ inside
  · rw [mem_singleton.mp isMain]
    exact mem_append_right _ mem_cons_self

theorem exists_mem_jobs (mem : f ∈ p.functions ++ [p.main]) : ∃ isMain, (f, isMain) ∈ jobs p := by
  rcases mem_append.mp mem with isFunction | isMain
  · exact ⟨false, mem_append_left _ (mem_map.mpr ⟨f, isFunction, rfl⟩)⟩
  · rw [mem_singleton.mp isMain]
    exact ⟨true, mem_append_right _ mem_cons_self⟩

theorem Emits.exists_of_mem (emits : Forall₂ (Emits p) (jobs p) fns) (mem : f ∈ p.functions) :
    ∃ fn ∈ fns, Emits p (f, false) fn := by
  have isJob : (f, false) ∈ jobs p := mem_append_left _ (mem_map.mpr ⟨f, mem, rfl⟩)
  obtain ⟨i, below, job⟩ := mem_iff_getElem.mp isJob
  have emitted := emits.get below (emits.length_eq ▸ below)
  rw [get_eq_getElem, job] at emitted
  exact ⟨_, getElem_mem _, emitted⟩

theorem lower_run (run : lower p name = .ok m) :
    ∃ b fns, emitFunctions p (declareAll p name) (jobs p) = (b, []) ∧ m = b.module ∧
      m.functions = (declareAll p name).module.functions ++ fns ∧ Forall₂ (Emits p) (jobs p) fns := by
  have declares := Declares.declareAll p name
  rcases emitted : emitFunctions p (declareAll p name) (jobs p) with ⟨b, errors⟩
  unfold lower at run
  rw [jobs] at emitted
  simp only [emitted] at run
  cases errors with
  | cons e errors => cases run
  | nil =>
    cases run
    obtain ⟨idle, fns, emits, functions⟩ := emitFunctions_run declares.idle emitted
    have same : b.finish = b.module := finishFunction_idle idle
    exact ⟨b, fns, rfl, same, same ▸ functions, emits⟩

theorem lower_defined {params : List (Reg × Ir.Ty)} (run : lower p name = .ok m)
    (mem : .defined fn params result blocks ∈ m.functions) :
    ∃ job ∈ jobs p, Emits p job (.defined fn params result blocks) := by
  obtain ⟨b, fns, -, -, functions, emits⟩ := lower_run run
  rw [functions] at mem
  rcases mem_append.mp mem with mem | mem
  · obtain ⟨_, _, _, _, impossible⟩ := (Declares.declareAll p name).external _ mem
    cases impossible
  · obtain ⟨i, below, same⟩ := mem_iff_getElem.mp mem
    have below' : i < (jobs p).length := emits.length_eq ▸ below
    refine ⟨(jobs p)[i], getElem_mem below', ?_⟩
    rw [← same]
    exact emits.get below' below

end BasicCompiler.Lowering
