/-
# Lowered modules are well typed

A function starts with the types of its parameters, gives addresses to its variables and has a body, so the code of
each function is well typed against the signatures of the whole module.
-/
import BasicCompiler.Proofs.Lowering.Modules
import BasicCompiler.Proofs.Lowering.TypedBodies

namespace BasicCompiler.Lowering

open List Lower Typed Option

variable {k : Linking} {env : Env} {types : Ir.Types} {f : Function}

/-! ## Before the body -/

def Housed (k : Linking) (types : Ir.Types) (slots : List (SymbolId × Ir.Reg)) : Prop :=
  ∀ e ∈ slots, ∃ v, k.program.asVariable? e.1 = some v ∧ types.Has e.2 (.ptr (k.rep v.type))

variable {id : SymbolId}

namespace Housed

theorem mono (h : Housed k types slots) (more : types <+: types') : Housed k types' slots := by
  intro e mem
  obtain ⟨v, isVariable, holds⟩ := h e mem
  exact ⟨v, isVariable, holds.mono more⟩

theorem append (h : Housed k types slots) (h' : Housed k types slots') : Housed k types (slots ++ slots') :=
  forall_mem_append.mpr ⟨h, h'⟩

theorem cons (isVariable : k.program.asVariable? id = some v) (holds : types.Has slot (.ptr (k.rep v.type)))
    (h : Housed k types slots) : Housed k types ((id, slot) :: slots) :=
  forall_mem_cons.mpr ⟨⟨v, isVariable, holds⟩, h⟩

theorem lookup (h : Housed k types slots) (found : slots.lookup id = some slot)
    (isVariable : k.program.asVariable? id = some v) : types.Has slot (.ptr (k.rep v.type)) := by
  obtain ⟨front, back, rfl, -⟩ := lookup_eq_some_iff.mp found
  obtain ⟨v', isVariable', holds⟩ := h (id, slot) (mem_append_right _ mem_cons_self)
  obtain rfl : v = v' := some.inj (isVariable.symm.trans isVariable')
  exact holds

end Housed

theorem paramInfos_variables {span : Span} (made : paramInfos p span ids = .ok infos) :
    infos.map (·.id) = ids ∧ ∀ q ∈ infos, ∃ v, p.asVariable? q.id = some v ∧ v.type = q.type := by
  induction ids generalizing infos with
  | nil =>
    cases made
    exact ⟨rfl, forall_mem_nil _⟩
  | cons id rest ih =>
    obtain ⟨v, others, isVariable, run, rfl⟩ := paramInfos_cons made
    obtain ⟨ids, each⟩ := ih run
    exact ⟨congrArg (id :: ·) ids, forall_mem_cons.mpr ⟨⟨v, isVariable, rfl⟩, each⟩⟩

namespace Yields

section Slots

variable (program : env.program = k.program)

include program

theorem paramSlot (holds : types.Has reg (q.irType k.program.types)) :
    Yields k env types (Lower.paramSlot q reg) (Gives (.ptr (k.rep q.type))) := by
  unfold Lower.ParamInfo.irType at holds
  unfold Lower.paramSlot
  split
  next byRef =>
    rw [if_pos byRef] at holds
    exact pure holds
  next byRef =>
    rw [if_neg byRef] at holds
    have value : types.Has reg (k.rep q.type) := holds
    refine typeOf program (bind (slot _) fun place types1 le1 holdsPlace => ?_)
    split
    next isString =>
      have isHandle := k.rep_of_isString isString
      refine bind (runtimeHandle (by simp [runtime]) (.cons (isHandle ▸ value.mono le1) .nil))
        fun copy types2 le2 holdsCopy => ?_
      rw [← isHandle] at holdsCopy
      have place := holdsPlace.mono le2
      refine keep (.perform (.store place holdsCopy)) fun _ => ?_
      exact andThen (registerSlot program place) fun _ le3 => pure (place.mono le3)
    next =>
      exact keep (.perform (.store holdsPlace (value.mono le1))) fun _ => pure holdsPlace

theorem paramSlots (known : ∀ q ∈ qs, ∃ v, k.program.asVariable? q.1.id = some v ∧ v.type = q.1.type)
    (holds : ∀ q ∈ qs, types.Has q.2 (q.1.irType k.program.types)) :
    Yields k env types (paramSlots qs) fun types slots => Housed k types slots ∧ slots.map (·.1) = qs.map (·.1.id) := by
  induction qs generalizing types with
  | nil => exact pure ⟨forall_mem_nil _, rfl⟩
  | cons q rest ih =>
    obtain ⟨info, reg⟩ := q
    obtain ⟨v, isVariable, same⟩ := known (info, reg) mem_cons_self
    refine bind (paramSlot program (holds (info, reg) mem_cons_self)) fun place types1 le1 holdsPlace => ?_
    refine bind (ih (forall_mem_cons.mp known).2
      fun q mem => (holds q (mem_cons_of_mem _ mem)).mono le1) fun slots types2 le2 answer => ?_
    refine pure ⟨answer.1.cons isVariable ?_, congrArg (info.id :: ·) answer.2⟩
    rw [same]
    exact holdsPlace.mono le2

theorem localSlots (ids : List SymbolId) : Yields k env types (localSlots ids) fun types slots =>
    Housed k types slots ∧ ∀ id ∈ ids, (k.program.asVariable? id).isSome = true → id ∈ slots.map (·.1) := by
  induction ids generalizing types with
  | nil => exact pure ⟨forall_mem_nil _, forall_mem_nil _⟩
  | cons id rest ih =>
    unfold localSlots
    refine read ?_
    rw [program]
    cases isVariable : k.program.asVariable? id with
    | none =>
      dsimp only
      rw [← bind_pure (Lower.localSlots rest)]
      refine bind ih fun slots _ _ answer => pure ⟨answer.1, forall_mem_cons.mpr ⟨fun known => ?_, answer.2⟩⟩
      rw [isVariable] at known
      cases known
    | some v =>
      refine typeOf program (bind (slot _) fun place types1 le1 holdsPlace => ?_)
      refine bind (constZero _) fun nought types2 le2 holdsNought => ?_
      have place := holdsPlace.mono le2
      refine keep (.perform (.store place holdsNought)) fun _ => ?_
      refine andThen (registerSlot program place) fun _ le3 => bind ih fun slots _ le4 answer => ?_
      refine pure ⟨answer.1.cons isVariable (place.mono (le3.trans le4)), forall_mem_cons.mpr ⟨fun _ => mem_cons_self, ?_⟩⟩
      exact fun id mem known => mem_cons_of_mem _ (answer.2 id mem known)

end Slots

end Yields

theorem Keeps.labelBlocks (ids : List SymbolId) : Keeps k env types (labelBlocks ids) := by
  induction ids with
  | nil => exact pure _
  | cons id rest ih => exact read (bind (createBlock _) fun _ => bind ih fun _ => pure _)

/-! ## A whole function -/

def Furnishes (p : Program) (f : Function) (slots : List (SymbolId × Ir.Reg)) : Prop :=
  ∀ id ∈ f.params ++ f.locals, (p.asVariable? id).isSome = true → id ∈ slots.map (·.1)

theorem isSome_lookup {slots : List (SymbolId × Ir.Reg)} {id : SymbolId} (mem : id ∈ slots.map (·.1)) :
    (slots.lookup id).isSome = true := by
  rw [Option.isSome_iff_ne_none]
  intro missing
  obtain ⟨slot, inside, rfl⟩ := mem_map.mp mem
  have differs := lookup_eq_none_iff.mp missing slot inside
  rw [bne_self_eq_false] at differs
  cases differs

/-- What a program's functions can rely on. -/
structure Relies (p : Program) : Prop where
  values : ∀ id v, p.asVariable? id = some v → v.type.IsSolid
  members : ∀ id, ∀ m ∈ (p.types.get id).members, m.type.IsSolid
  globals : ∀ id ∈ p.globals, p.scopes.Declares ScopeTree.root SymbolKind.IsGlobal id
  params : ∀ callee ps, p.callParams? callee = some ps → ∀ q ∈ ps, q.type.IsSolid
  results : ∀ callee ty, p.callResult? callee = some ty → ty.IsResult

theorem Relies.serves (relies : Relies p) {env : Env} (program : env.program = p)
    (furnishes : Furnishes p f env.slots) : Serves env (p.outlook f) where
  sees id v seen := by
    obtain ⟨-, isVariable⟩ := Option.ite_none_right_eq_some.mp seen
    exact relies.values id v isVariable
  members := relies.members
  result := relies.results
  target ty known := by cases known
  params := relies.params
  addresses id v seen := by
    obtain ⟨mem, isVariable⟩ := Option.ite_none_right_eq_some.mp seen
    rcases mem_append.mp mem with own | isGlobal
    · exact .inl (isSome_lookup (furnishes id own (by rw [isVariable]; rfl)))
    · obtain ⟨⟨name, span, scope, kind⟩, found, -, type, rfl⟩ := relies.globals id isGlobal
      refine .inr ⟨name, span, scope, type, ?_⟩
      rw [program]
      exact found
  targets ty known := by cases known
  known id v seen := by
    obtain ⟨-, isVariable⟩ := Option.ite_none_right_eq_some.mp seen
    rw [program]
    exact isVariable

theorem Backs.of_resolved (resolved : f.Resolved k.program) (result : k.result = resultType k.program f isMain)
    (mainVoid : isMain = true → f.result = .void) {slots : List (SymbolId × Ir.Reg)} (housed : Housed k types slots)
    (labels : List (SymbolId × Ir.BlockId)) (relies : k.total → Relies k.program)
    (furnishes : Furnishes k.program f slots) :
    Backs k { startEnv k.program f isMain with slots, labels } (k.program.outlook f) types where
  program := rfl
  table := rfl
  params := rfl
  result := rfl
  sees id v seen := by
    obtain ⟨mem, isVariable⟩ := ite_none_right_eq_some.mp seen
    exact ⟨isVariable, resolved.mem_globals mem isVariable⟩
  slots id slot v found isVariable := housed.lookup found isVariable
  target address ty isTarget known := by cases known
  returns ty known notVoid := by
    cases known
    rw [result, resultType]
    split
    next isMain =>
      rw [mainVoid isMain] at notVoid
      cases notVoid
    next => rfl
  ends := result
  serves total := (relies total).serves rfl furnishes

theorem Answers.widen {sure possible : Bool} (h : Answers k types b b Q r) (fails : b = false → sure = false)
    (succeeds : b = true → possible = true) : Answers k types sure possible Q r := by
  cases r with
  | ok p => exact ⟨fun total => succeeds (h.1 total), h.2⟩
  | error e => exact fun total => ⟨fails (h total).1, (h total).2⟩

theorem endOfFunction_answers (backs : Backs k env w types)
    (typed : ∀ e ∈ endValue, e.WellTyped w ∧ w.returns? = some e.ty ∧ e.ty.isVoid = false) (fits : Fits k types s) :
    Answers k types (endValue.all Expr.addressable) true (fun _ _ => True) (endOfFunction endValue env s) := by
  have whole {m : Lower Unit} (runs : Runs k env types m) : Answers k types (endValue.all Expr.addressable) true
      (fun _ _ => True) (m env s) := (runs s fits).widen Bool.noConfusion id
  change Answers _ _ _ _ _ ((if s.builder.isTerminated then pure ()
    else if !s.builder.isReachable then terminate .unreachable else returnStmt endValue : Lower Unit) env s)
  split
  · exact whole (Yields.pure trivial)
  · split
    · exact whole (Yields.last (.terminate trivial))
    · exact (Yields.returnStmt backs typed s fits).widen id fun _ => rfl

theorem functionBody_answers (resolved : f.Resolved k.program) (result : k.result = resultType k.program f isMain)
    (mainVoid : isMain = true → f.result = .void) (made : paramInfos k.program f.span f.params = .ok infos)
    (count : regs.length = infos.length) (holds : ∀ q ∈ infos.zip regs, types.Has q.2 (q.1.irType k.program.types))
    (relies : k.total → Relies k.program) (placed : k.total → f.body.Placed (k.program.outlook f) false false)
    (fits : Fits k types s) :
    Answers k types f.addressable f.body.addressable (fun _ _ => True)
      (functionBody f infos regs (startEnv k.program f isMain) s) := by
  have known : ∀ q ∈ infos.zip regs, ∃ v, k.program.asVariable? q.1.id = some v ∧ v.type = q.1.type :=
    fun q mem => (paramInfos_variables made).2 q.1 (of_mem_zip mem).1
  have ended : ∀ e ∈ f.endValue, e.WellTyped (k.program.outlook f) ∧
      (k.program.outlook f).returns? = some e.ty ∧ e.ty.isVoid = false := by
    intro e mem
    obtain ⟨⟨typed, same⟩, notVoid⟩ := resolved.typed.endValue e mem
    exact ⟨typed, congrArg some same.symm, same ▸ notVoid⟩
  have keys : (infos.zip regs).map (·.1.id) = f.params := by
    have firsts := map_fst_zip (Nat.le_of_eq count.symm)
    rw [← (paramInfos_variables made).1, ← firsts, List.map_map, firsts]
    rfl
  unfold functionBody
  refine Yields.thenAt (Yields.last (.changeCleanups fun _ _ mem => mem)) (fun _ types0 s le0 _ fits => ?_) fits
  refine Yields.thenAt (Yields.paramSlots rfl known fun q mem => (holds q mem).mono le0)
    (fun ps types1 s le1 params fits => ?_) fits
  refine Yields.thenAt (Yields.localSlots rfl _) (fun ls types2 s le2 locals fits => ?_) fits
  refine Yields.thenAt (Yields.last (.labelBlocks _)) (fun labels types3 s le3 _ fits => ?_) fits
  have housed := ((params.1.mono le2).append locals.1).mono le3
  have furnishes : Furnishes k.program f (ps ++ ls) := by
    intro id mem known
    rw [map_append, params.2, keys]
    rcases mem_append.mp mem with isOne | isOne
    · exact mem_append_left _ isOne
    · exact mem_append_right _ (locals.2 id isOne known)
  have backs := Backs.of_resolved resolved result mainVoid housed labels relies furnishes
  have around (_ : k.total) : Surrounds { startEnv k.program f isMain with slots := ps ++ ls, labels } false false :=
    ⟨Bool.noConfusion, Bool.noConfusion⟩
  have whole := Yields.bindAt (Yields.block f.body backs around resolved.typed.body placed)
    (fun _ types4 s le4 _ fits => endOfFunction_answers (backs.mono le4) ended fits) fits
  rw [Bool.and_true] at whole
  exact whole

theorem typed_startFunction (σ : Ir.Rules) (b : Ir.Builder) (name : String) (params : List Ir.Ty)
    (result : Ir.Ty) : (b.startFunction name params result).2.Typed σ params result where
  count := rfl
  params p mem := by
    change p ∈ (range params.length).zip params at mem
    obtain ⟨i, below, rfl⟩ := mem_iff_getElem.mp mem
    rw [getElem_zip, getElem_range]
    exact getElem?_eq_getElem _
  returns := rfl
  blocks c mem := by
    rw [mem_singleton.mp mem]
    exact ⟨forall_mem_nil _, fun t mem => by cases mem⟩

/-! ## One function after the other -/

/-- The globals of the program are there, and the functions so far are well typed. -/
structure Prepared (k : Linking) (b : Ir.Builder) : Prop where
  idle : b.function = none
  texts : ∀ g ∈ b.module.globals, g.address = .handle ∨ ∃ name, g.name = globalName name
  globals : ∀ id ∈ k.program.globals, ∀ name span scope type,
    k.program.scopes.get? id = some ⟨name, span, scope, .variable ⟨type, .global⟩⟩ →
      b.module.address? (globalName name) = some (.ptr (k.rep type))
  functions : ∀ fn ∈ b.module.functions, fn.WellTyped (b.linkage k.rules)

def Linking.returning (k : Linking) (result : Ir.Ty) : Linking := { k with result }

section

variable (prepared : Prepared k b) (resolved : f.Resolved k.program) (mainVoid : isMain = true → f.result = .void)
  (relies : k.total → Relies k.program) (placed : k.total → f.body.Placed (k.program.outlook f) false false)
include prepared resolved mainVoid relies placed

theorem startedBody_answers (made : paramInfos k.program f.span f.params = .ok infos) :
    Answers (k.returning (resultType k.program f isMain)) (infos.map (·.irType k.program.types)) f.addressable
      f.body.addressable (fun _ _ => True)
      (functionBody f infos (b.startFunction f.linkName (infos.map (·.irType k.program.types))
        (resultType k.program f isMain)).1 (startEnv k.program f isMain)
        ⟨(b.startFunction f.linkName (infos.map (·.irType k.program.types)) (resultType k.program f isMain)).2,
          CleanupStack.empty⟩) := by
  have module : (b.startFunction f.linkName (infos.map (·.irType k.program.types))
      (resultType k.program f isMain)).2.module = b.module := finishFunction_idle prepared.idle
  have starts : Fits (k.returning (resultType k.program f isMain)) (infos.map (·.irType k.program.types))
      ⟨(b.startFunction f.linkName (infos.map (·.irType k.program.types)) (resultType k.program f isMain)).2,
        CleanupStack.empty⟩ := by
    refine ⟨typed_startFunction _ b _ _ _, ?_, ?_, forall_mem_nil _⟩
    · rw [module]
      exact prepared.texts
    · rw [module]
      exact prepared.globals
  have holds : ∀ q ∈ infos.zip (range (infos.map (·.irType k.program.types)).length),
      Ir.Types.Has (infos.map (·.irType k.program.types)) q.2 (q.1.irType k.program.types) := by
    intro q mem
    obtain ⟨i, below, rfl⟩ := mem_iff_getElem.mp mem
    rw [getElem_zip, getElem_range, Ir.Types.Has, getElem?_map, getElem?_eq_getElem]
    rfl
  have count : (range (infos.map (·.irType k.program.types)).length).length = infos.length := by
    rw [length_range, length_map]
  exact functionBody_answers (k := k.returning (resultType k.program f isMain)) resolved rfl mainVoid made count holds
    relies placed starts

theorem Prepared.emitFunction (run : emitFunction k.program b f isMain = .ok b') : Prepared k b' := by
  obtain ⟨s, lowered, finished⟩ := bind_ok_iff.mp run
  cases finished
  obtain ⟨params, made, body⟩ := lowerFunction_run lowered
  have answer := startedBody_answers prepared resolved mainVoid relies placed made
  rw [body] at answer
  obtain ⟨-, types, -, fits, -⟩ := answer
  obtain ⟨proper, grows⟩ := functionBody_advances body
    (b.placed_startFunction f.linkName (params.map (·.irType k.program.types)) (resultType k.program f isMain)).proper
  obtain ⟨g, function⟩ := proper.function
  obtain ⟨c, block⟩ := proper.block
  obtain ⟨done, module⟩ := finishFunction_eq function block
  have started : (b.startFunction f.linkName (params.map (·.irType k.program.types))
      (resultType k.program f isMain)).2.module = b.module := finishFunction_idle prepared.idle
  have earlier : s.builder.module.functions = b.module.functions := by rw [grows.functions, started]
  have globals : b.module.globals <+: s.builder.module.globals := started ▸ grows.globals
  have linkage : s.builder.finishFunction.linkage k.rules = s.builder.linkage k.rules := by
    rw [Ir.Builder.linkage, module]
    rfl
  refine ⟨done, ?_, ?_, fun fn mem => ?_⟩
  · rw [module]
    exact fits.texts
  · rw [module]
    exact fits.globals
  · rw [linkage]
    rw [module, earlier] at mem
    rcases mem_append.mp mem with old | new
    · exact (prepared.functions fn old).mono (Ir.Builder.linkage_le globals)
    · rw [mem_singleton.mp new]
      have returns := fits.typed.returns
      rw [function] at returns
      refine ⟨types, fun p mem => fits.typed.params p ?_, fun c mem => ?_⟩
      · rw [Ir.Builder.params, function]
        exact mem
      · have result : g.result = resultType k.program f isMain := some.inj returns
        rw [result]
        exact fits.typed.blocks c mem

end

theorem Prepared.emitFunctions {jobs : List (Function × Bool)} (prepared : Prepared k b) (partly : ¬ k.total)
    (each : ∀ job ∈ jobs, job.1.Resolved k.program ∧ (job.2 = true → job.1.result = .void))
    (run : emitFunctions k.program b jobs = (b', [])) : Prepared k b' := by
  induction jobs generalizing b with
  | nil =>
    cases run
    exact prepared
  | cons job rest ih =>
    obtain ⟨b1, emitted, run⟩ := emitFunctions_cons run
    obtain ⟨resolved, mainVoid⟩ := each job mem_cons_self
    have prepared := prepared.emitFunction resolved mainVoid (absurd · partly) (absurd · partly) emitted
    exact ih prepared (forall_mem_cons.mp each).2 run

/-! ## Globals -/

section Declarations

variable {p : Program} {m : Ir.Module}

def globalOf? (p : Program) (id : SymbolId) : Option Ir.Global :=
  match p.scopes.get? id with
  | some ⟨name, _, _, .variable v⟩ => some ⟨globalName name, irType p.types v.type, some .zero, false⟩
  | _ => none

theorem declareGlobal_eq (p : Program) (b : Ir.Builder) (id : SymbolId) :
    declareGlobal p b id = ((globalOf? p id).map b.addGlobal).getD b := by
  unfold declareGlobal globalOf?
  rcases p.scopes.get? id with _ | ⟨name, span, scope, kind⟩
  · rfl
  · cases kind <;> rfl

theorem declareGlobals_globals (ids : List SymbolId) :
    (ids.foldl (declareGlobal p) b).module.globals = b.module.globals ++ ids.filterMap (globalOf? p) := by
  induction ids generalizing b with
  | nil => exact (append_nil _).symm
  | cons id ids ih =>
    rw [foldl_cons, ih, declareGlobal_eq]
    cases added : globalOf? p id with
    | none => rw [filterMap_cons_none added]; rfl
    | some g =>
      rw [filterMap_cons_some added, append_cons]
      rfl

section Folding

variable {step : Ir.Builder → α → Ir.Builder}

theorem foldl_keeps {g : Ir.Builder → γ} (keeps : ∀ b a, g (step b a) = g b) (as : List α) :
    g (as.foldl step b) = g b := by
  induction as generalizing b with
  | nil => rfl
  | cons a as ih => rw [foldl_cons, ih, keeps]

theorem foldl_adds {g : Ir.Builder → List γ} (adds : ∀ b a, g (step b a) = g b ++ [item a]) (as : List α) :
    g (as.foldl step b) = g b ++ as.map item := by
  induction as generalizing b with
  | nil => exact (append_nil _).symm
  | cons a as ih => rw [foldl_cons, ih, adds, map_cons, append_assoc, singleton_append]

end Folding

theorem declareCommands_globals (types : TypeTable) (seen : List String) (commands : List Command) :
    (declareCommands types seen b commands).module.globals = b.module.globals := by
  induction commands generalizing seen b with
  | nil => rfl
  | cons c rest ih =>
    unfold declareCommands
    split
    · exact ih seen
    · exact ih _

theorem declareAll_globals (p : Program) (name : String) :
    (declareAll p name).module.globals = p.globals.filterMap (globalOf? p) := by
  have afterRuntime (b : Ir.Builder) : (declareRuntime b).module.globals = b.module.globals := by
    rw [declareRuntime]
    exact foldl_keeps (g := fun b => b.module.globals) (fun _ _ => by rfl) runtime
  have afterTypes (b : Ir.Builder) : (declareTypes p.types b).module.globals = b.module.globals := by
    exact foldl_keeps (g := fun b => b.module.globals) (fun _ _ => by rfl) p.types.user
  unfold declareAll
  rw [declareGlobals_globals, afterTypes, declareCommands_globals, afterRuntime]
  rfl

theorem builtinType_isWhole (w : PointerWidth) (t : BuiltinType) (elem : Ir.Ty) (count : Nat) :
    builtinType w t ≠ .array elem count := by
  cases w <;> cases t <;> exact Ir.Ty.noConfusion

theorem address_global (nested : p.types.IsNested) (ty : Ty) (name : String) :
    Ir.Global.address ⟨name, irType p.types ty, some .zero, false⟩ = .ptr (irType p.types ty) := by
  have whole : ∀ elem count, irType p.types ty ≠ .array elem count := by
    intro elem count
    cases ty with
    | user id =>
      rw [irType_user nested]
      exact Ir.Ty.noConfusion
    | builtin t =>
      rw [irType_of_builtin (t := t) rfl]
      exact builtinType_isWhole _ t elem count
    | arrayOf inner =>
      rw [irType_of_builtin (t := .array) rfl]
      exact builtinType_isWhole _ .array elem count
    | pointerTo inner =>
      rw [irType_of_builtin (t := .pointer) rfl]
      exact builtinType_isWhole _ .pointer elem count
  unfold Ir.Global.address
  split
  next elem count isArray => exact absurd isArray (whole elem count)
  next => rfl

theorem globalName_injective (same : globalName a = globalName b) : sameName a b = true := by
  have chars := congrArg String.toList same
  simp only [globalName, String.toList_append] at chars
  exact beq_iff_eq.mpr (String.toList_inj.mp (append_cancel_left chars))

theorem address_declareAll (resolved : p.Resolved fs) (isGlobal : id ∈ p.globals) {span : Span}
    (found : p.scopes.get? id = some ⟨varName, span, scope, .variable ⟨type, .global⟩⟩) :
    (declareAll p name).module.address? (globalName varName) = some (.ptr (irType p.types type)) := by
  have own : globalOf? p id = some ⟨globalName varName, irType p.types type, some .zero, false⟩ := by
    unfold globalOf?
    rw [found]
  unfold Ir.Module.address?
  rw [declareAll_globals]
  cases first : (p.globals.filterMap (globalOf? p)).find? (·.name = globalName varName) with
  | none =>
    have differs := find?_eq_none.mp first _ (mem_filterMap.mpr ⟨id, isGlobal, own⟩)
    exact absurd (decide_eq_true rfl) differs
  | some g =>
    have named := find?_some first
    rw [decide_eq_true_eq] at named
    obtain ⟨id', isGlobal', made⟩ := mem_filterMap.mp (mem_of_find?_eq_some first)
    -- the one that is found lies in the same scope and has the same name
    obtain ⟨⟨name', span', scope', kind⟩, found', atRoot', type', rfl⟩ := resolved.globals id' isGlobal'
    obtain ⟨sym, found'', atRoot, -⟩ := resolved.globals id isGlobal
    obtain rfl := some.inj (found.symm.trans found'')
    unfold globalOf? at made
    rw [found'] at made
    cases made
    have same : id' = id := resolved.unique id' id _ _ found' found (atRoot'.trans atRoot.symm) (globalName_injective named)
    rw [same] at found'
    obtain ⟨rfl, rfl, rfl, kinds⟩ := Symbol.mk.inj (some.inj (found.symm.trans found'))
    cases kinds
    exact congrArg some (address_global resolved.nested type _)

/-! ## Functions -/

def commandFunction (types : TypeTable) (c : Command) : Ir.Function :=
  .external c.linkName (commandParams types c.params).1 (commandParams types c.params).2 (irType types c.result)

theorem declareCommands_functions {types : TypeTable} (unseen : ∀ c ∈ commands, c.linkName ∉ seen)
    (links : (commands.map (·.linkName)).Nodup) :
    (declareCommands types seen b commands).module.functions =
      b.module.functions ++ commands.map (commandFunction types) := by
  induction commands generalizing seen b with
  | nil => exact (append_nil _).symm
  | cons c rest ih =>
    obtain ⟨own, links⟩ := nodup_cons.mp links
    unfold declareCommands
    rw [if_neg (by simpa using unseen c mem_cons_self), ih ?_ links, map_cons, append_cons]
    · rfl
    · intro d mem
      rw [mem_cons, not_or]
      exact ⟨fun same => own (mem_map.mpr ⟨d, mem, same⟩), unseen d (mem_cons_of_mem _ mem)⟩

theorem declareAll_functions (p : Program) (name : String) (links : (p.commands.map (·.linkName)).Nodup) :
    (declareAll p name).module.functions =
      runtime.map (fun r => .external r.1 r.2.1 false r.2.2) ++ p.commands.map (commandFunction p.types) := by
  have afterRuntime (b : Ir.Builder) : (declareRuntime b).module.functions =
      b.module.functions ++ runtime.map (fun r => .external r.1 r.2.1 false r.2.2) := by
    rw [declareRuntime]
    exact foldl_adds (g := fun b => b.module.functions) (fun _ _ => by rfl) runtime
  have afterTypes (b : Ir.Builder) : (declareTypes p.types b).module.functions = b.module.functions := by
    exact foldl_keeps (g := fun b => b.module.functions) (fun _ _ => by rfl) p.types.user
  have afterGlobals (b : Ir.Builder) : (p.globals.foldl (declareGlobal p) b).module.functions = b.module.functions := by
    refine foldl_keeps (g := fun b => b.module.functions) (fun b id => ?_) p.globals
    rw [declareGlobal_eq]
    cases globalOf? p id <;> rfl
  unfold declareAll
  rw [afterGlobals, afterTypes, declareCommands_functions (fun _ _ => not_mem_nil) links, afterRuntime]
  rfl

theorem signature_of_mem (names : (m.functions.map (·.name)).Nodup) (mem : fn ∈ m.functions) :
    m.signature? fn.name = some fn.signature := by
  unfold Ir.Module.signature?
  cases first : m.functions.find? (·.name = fn.name) with
  | none =>
    have differs := find?_eq_none.mp first fn mem
    exact absurd (decide_eq_true rfl) differs
  | some g =>
    have same : g.name = fn.name := of_decide_eq_true (find?_some (p := fun g : Ir.Function => g.name = fn.name) first)
    rw [inj_on_of_nodup_map names (mem_of_find?_eq_some first) mem same]
    rfl

end Declarations

/-! ## The whole module -/

section Module

theorem exists_linking (run : lower p name = .ok m) (nested : p.types.IsNested)
    (links : (p.commands.map (·.linkName)).Nodup)
    (casts : ∀ kind source target, Ir.Cast.leads p.types.pointer kind source target = true → rules.takes kind source target = true)
    (found : ∀ fn ∈ m.functions, rules.signature fn.name fn.signature) :
    ∃ k : Linking, k.program = p ∧ k.rules = rules ∧ ¬ k.total := by
  obtain ⟨b, fns, -, -, functions, emits⟩ := lower_run run
  rw [declareAll_functions p name links] at functions
  refine ⟨⟨p, rules, .void, False, casts, nested, fun r mem => ?_, fun c mem => ?_, fun f mem => ?_⟩, rfl, rfl, id⟩
  · refine found (.external r.1 r.2.1 false r.2.2) ?_
    rw [functions]
    exact mem_append_left _ (mem_append_left _ (mem_map.mpr ⟨r, mem, rfl⟩))
  · refine found (commandFunction p.types c) ?_
    rw [functions]
    exact mem_append_left _ (mem_append_right _ (mem_map.mpr ⟨c, mem, rfl⟩))
  · obtain ⟨fn, inside, emitted⟩ := Emits.exists_of_mem emits mem
    obtain ⟨named, params, infos, signature⟩ := emitted.signature
    refine ⟨params, infos, ?_⟩
    have declared := found fn (functions ▸ mem_append_right _ inside)
    rw [signature, named] at declared
    exact declared

theorem prepared_declareAll (name : String) (resolved : k.program.Resolved fs) :
    Prepared k (declareAll k.program name) where
  idle := (Declares.declareAll k.program name).idle
  texts g mem := by
    rw [declareAll_globals] at mem
    obtain ⟨id, -, made⟩ := mem_filterMap.mp mem
    unfold globalOf? at made
    split at made
    next varName _ _ _ _ =>
      cases made
      exact .inr ⟨varName, rfl⟩
    next => cases made
  globals id isGlobal varName span scope type found := address_declareAll resolved isGlobal found
  functions fn mem := by
    obtain ⟨_, _, _, _, rfl⟩ := (Declares.declareAll k.program name).external fn mem
    trivial

theorem resolved_of_mem_jobs (resolved : p.Resolved fs) (mem : job ∈ jobs p) :
    job.1.Resolved p ∧ (job.2 = true → job.1.result = .void) := by
  refine ⟨resolved.each job.1 (fst_mem_of_mem_jobs mem), fun isMain => ?_⟩
  rcases mem_append.mp mem with isFunction | last
  · obtain ⟨f, -, rfl⟩ := mem_map.mp isFunction
    cases isMain
  · rw [mem_singleton.mp last]
    exact resolved.mainResult

/-- Every function keeps the rules that allow the conversions of the target, and calls by the
names of the module. -/
theorem lower_keepsRules (resolved : p.Resolved fs) (run : lower p name = .ok m)
    (links : (p.commands.map (·.linkName)).Nodup) {rules : Ir.Rules}
    (casts : ∀ kind source target, Ir.Cast.leads p.types.pointer kind source target = true →
      rules.takes kind source target = true) (found : ∀ fn ∈ m.functions, rules.signature fn.name fn.signature) :
    ∀ fn ∈ m.functions, fn.WellTyped ⟨rules, m.address?⟩ := by
  obtain ⟨k, rfl, rfl, partly⟩ := exists_linking run resolved.nested links casts found
  obtain ⟨b, fns, emitted, rfl, -, -⟩ := lower_run run
  have prepared := (prepared_declareAll name resolved).emitFunctions partly (fun job => resolved_of_mem_jobs resolved) emitted
  exact prepared.functions

theorem lower_wellTyped (resolved : p.Resolved fs) (wide : p.types.pointer = .bits64)
    (run : lower p name = .ok m) (names : (m.functions.map (·.name)).Nodup)
    (links : (p.commands.map (·.linkName)).Nodup) : m.WellTyped := by
  refine lower_keepsRules resolved run links (fun kind source target leads => ?_) fun fn mem => signature_of_mem names mem
  rw [wide] at leads
  exact Ir.Cast.takes_of_leads leads

end Module

end BasicCompiler.Lowering
