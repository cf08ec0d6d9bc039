/-
# Lowering ignores case

Every name that goes into a module is spelled in small letters there. So a program with its names in small letters is
lowered to the same module, or its faults are at the same places (`lower_folded`).
-/
import BasicCompiler.Proofs.Lowering.Woven
import BasicCompiler.Proofs.Typed.Caseless

namespace BasicCompiler.Lowering

open List Lower Typed

/-! ## Types -/

theorem irTypeWithin_folded (types : TypeTable) (depth : Nat) (ty : Ty) :
    irTypeWithin types.folded depth ty = irTypeWithin types depth ty := by
  induction depth generalizing ty with
  | zero => cases ty <;> rfl
  | succ depth ih =>
    cases ty with
    | user id =>
      rw [irTypeWithin, irTypeWithin, types.get_folded, UserType.folded, map_map]
      exact congrArg Ir.Ty.struct (map_congr_left fun m _ => ih m.type)
    | _ => rfl

@[simp] theorem irType_folded (types : TypeTable) (ty : Ty) : irType types.folded ty = irType types ty := by
  rw [irType, show types.folded.user.length = types.user.length from length_map _, irTypeWithin_folded, irType]

@[simp] theorem paramType_folded (types : TypeTable) (ty : Ty) (pass : PassBy) :
    paramType types.folded ty pass = paramType types ty pass := by
  rw [paramType, irType_folded, paramType]

@[simp] theorem numericCast?_folded (types : TypeTable) (source target : Ty) :
    numericCast? types.folded source target = numericCast? types source target := by
  rw [numericCast?, irType_folded, irType_folded, numericCast?]

@[simp] theorem needsFini_folded (types : TypeTable) (ty : Ty) : types.folded.needsFini ty = types.needsFini ty := by
  rw [TypeTable.needsFini, types.trivialOf_folded, TypeTable.needsFini]

theorem asVariable?_folded (p : Program) (id : SymbolId) : p.folded.asVariable? id = p.asVariable? id := by
  rw [Program.asVariable?, show p.folded.scopes.get? id = _ from p.scopes.get?_folded id, Program.asVariable?]
  cases p.scopes.get? id <;> rfl

theorem globalName_fold (name : String) : globalName (fold name) = globalName name := by
  rw [globalName, fold_fold, globalName]

theorem registerMembers_folded (types : TypeTable) (registerField : Ir.Reg → Ty → Lower Unit) (slot : Ir.Reg)
    (index : Nat) (members : List Member) :
    registerMembers types.folded registerField slot index (members.map Member.folded) =
      registerMembers types registerField slot index members := by
  induction members generalizing index with
  | nil => rfl
  | cons m rest ih =>
    rw [map_cons, registerMembers, registerMembers, ih,
      show types.folded.needsFini m.folded.type = _ from needsFini_folded types m.type]
    rfl

theorem registerSlotWithin_folded (types : TypeTable) (depth : Nat) :
    registerSlotWithin types.folded depth = registerSlotWithin types depth := by
  induction depth with
  | zero =>
    funext slot ty
    cases ty with
    | builtin t => cases t <;> rfl
    | _ => rfl
  | succ depth ih =>
    funext slot ty
    cases ty with
    | builtin t => cases t <;> rfl
    | user type =>
      rw [registerSlotWithin, registerSlotWithin, needsFini_folded, types.get_folded, ih,
        UserType.folded, registerMembers_folded]
    | _ => rfl

/-! ## Pieces -/

def Env.folded (env : Env) : Env := { env with program := env.program.folded }

/-- With the names of the program in small letters, the piece does the same. -/
def IgnoresCase {α : Type} (m : Lower α) : Prop := ∀ env s, Matches LowerError.span id (m env s) (m env.folded s)

theorem View.folded (h : View view) (env : Env) : view env.folded = view env := by
  cases h with
  | type ty => exact irType_folded _ ty
  | param ty pass => exact paramType_folded _ ty pass
  | cast source target => exact numericCast?_folded _ source target
  | size ty => exact TypeTable.sizeOf_folded _ ty
  | declared id => exact asVariable?_folded _ id
  | notes slot ty =>
    dsimp only
    rw [show env.folded.program.types = env.program.types.folded from rfl, registerSlotWithin_folded,
      show env.program.types.folded.user.length = env.program.types.user.length from length_map _]
  | ends => rfl

theorem calleeName_folded (p : Program) (callee : Callee) : calleeName p.folded callee = calleeName p callee := by
  cases callee <;> simp only [calleeName, Program.folded, getElem?_map, Option.map_map] <;> rfl

theorem commandParams?_folded (p : Program) (callee : Callee) :
    commandParams? p.folded callee = commandParams? p callee := by
  cases callee <;> simp only [commandParams?, Program.folded, getElem?_map, Option.map_map]
  rfl

namespace IgnoresCase

theorem bind (first : IgnoresCase m) (second : ∀ a, IgnoresCase (f a)) : IgnoresCase (m >>= f) :=
  fun env s => .bind (first env s) fun r => second r.1 env r.2

theorem read (h : ∀ env s, Matches LowerError.span id (f env env s) (f env.folded env.folded s)) :
    IgnoresCase (MonadReader.read >>= f) := h

theorem varAddress (var : SymbolId) : IgnoresCase (varAddress var) := by
  refine read fun env s => ?_
  rw [show env.folded.slots = env.slots from rfl,
    show env.folded.program.scopes.get? var = _ from env.program.scopes.get?_folded var]
  cases env.slots.lookup var with
  | some slot => exact .ok _
  | none =>
    rcases env.program.scopes.get? var with _ | ⟨name, span, scope, kind⟩
    · exact .error rfl
    · rcases kind with ⟨type, storage⟩ | _ | _ | _
      · cases storage with
        | global =>
          dsimp only [Option.map, Symbol.folded]
          rw [globalName_fold]
          exact .ok _
        | _ => exact .error rfl
      all_goals exact .error rfl

end IgnoresCase

theorem Made.ignoresCase {α : Type} [Regs α] {regs : List Ir.Reg} {m : Lower α} (made : Made .any regs m) :
    IgnoresCase m := by
  induction made with
  | pure a _ => exact fun _ _ => .ok _
  | fails span _ fails =>
    intro env s
    obtain ⟨fault, failed⟩ := fails env s
    obtain ⟨fault', failed'⟩ := fails env.folded s
    rw [failed, failed']
    exact .error rfl
  | bind _ _ first second => exact first.bind second
  | @look _ _ _ _ view f isView _ ih =>
    intro env s
    change Matches _ _ (f (view env) env s) (f (view env.folded) env.folded s)
    rw [isView.folded]
    exact ih env env s
  | @named _ _ _ _ _ callee _ f _ _ ih =>
    intro env s
    change Matches _ _ (f (calleeName env.program callee) (commandParams? env.program callee) env s)
      (f (calleeName env.program.folded callee) (commandParams? env.program.folded callee) env.folded s)
    rw [calleeName_folded, commandParams?_folded]
    exact ih _ _ trivial env s
  | locate id _ => exact .varAddress id
  | @reread _ _ _ f _ _ none some =>
    intro env s
    change Matches _ _ (f env.target env s) (f env.target env.folded s)
    cases env.target with
    | none => exact none env s
    | some reg => exact some reg env s
  | aim address _ _ ih => exact fun env s => ih { env with target := .some address } s
  | spill ty _ _ _ ih =>
    refine ih.bind fun value env s => ?_
    change Matches _ _ _ ((do
      let slot ← build (·.alloca (irType env.program.types.folded ty))
      perform (.store slot value)
      Pure.pure slot : Lower Ir.Reg) env.folded s)
    rw [irType_folded]
    exact .ok _
  | _ => exact fun _ _ => .ok _

theorem Woven.ignoresCase {α : Type} {m : Lower α} (woven : Woven m) : IgnoresCase m := by
  induction woven with
  | made made => exact made.ignoresCase
  | bind _ _ first second => exact first.bind second
  | @look _ f same _ ih =>
    intro env s
    change Matches _ _ (f env env s) (f env.folded env.folded s)
    rw [show f env.folded = f env from same env _]
    exact ih env env s
  | @within _ m f same _ ih =>
    intro env s
    have program : (f env).program = env.program := by rw [show f env = _ from same env env.program]
    have surroundings : f env.folded = (f env).folded := by
      rw [Env.folded, same, Env.folded, program]
    change Matches _ _ (m (f env) s) (m (f env.folded) s)
    rw [surroundings]
    exact ih (f env) s
  | inspect _ ih => exact fun env s => ih s env s
  | framed _ ih =>
    have closed : IgnoresCase closeFrame := by
      refine .bind (fun _ _ => .ok _) fun _ => .bind (fun _ _ => .ok _) fun _ => ?_
      split
      · exact .bind (fun _ _ => .ok _) fun _ => (Made.released _).ignoresCase
      · exact fun _ _ => .ok _
    exact .bind (fun _ _ => .ok _) fun _ => ih.bind fun _ => closed.bind fun _ _ _ => .ok _
  | _ => exact fun _ _ => .ok _

theorem labelBlocks_ignoresCase (labels : List SymbolId) : IgnoresCase (labelBlocks labels) := by
  induction labels with
  | nil => exact fun _ _ => .ok _
  | cons label rest ih =>
    refine .read fun env s => ?_
    have spelled : fold (((env.folded.program.scopes.get? label).map (·.name)).getD "") =
        fold (((env.program.scopes.get? label).map (·.name)).getD "") := by
      rw [show env.folded.program.scopes.get? label = _ from env.program.scopes.get?_folded label]
      cases env.program.scopes.get? label with
      | none => rfl
      | some symbol => exact fold_fold symbol.name
    rw [spelled]
    exact IgnoresCase.bind (Woven.createBlock _).ignoresCase (fun _ => ih.bind fun _ _ _ => .ok _) env s

theorem functionBody_ignoresCase (f : Function) (params : List Lower.ParamInfo) (regs : List Ir.Reg) :
    IgnoresCase (functionBody f params regs) := by
  refine .bind (fun _ _ => .ok _) fun _ => .bind (Made.paramSlots trivial (List.Subset.refl _)).ignoresCase fun _ => ?_
  refine .bind (Made.localSlots trivial f.locals : Made .any [] _).ignoresCase fun _ => ?_
  refine .bind (labelBlocks_ignoresCase f.labels) fun _ => ?_
  exact (Woven.within _ (fun _ _ => rfl) (.bind (.block f.body) fun _ => .endOfFunction f.endValue)).ignoresCase

/-! ## Modules -/

section Modules

variable (p : Program)

theorem paramInfos_folded (span : Span) (params : List SymbolId) :
    paramInfos p.folded span params = paramInfos p span params := by
  induction params with
  | nil => rfl
  | cons var rest ih => rw [paramInfos, paramInfos, asVariable?_folded, ih]

section

variable (b : Ir.Builder) (f : Function) (isMain : Bool)

theorem lowerFunction_folded :
    Matches LowerError.span id (lowerFunction p b f isMain) (lowerFunction p.folded b f.folded isMain) := by
  have slots (params : List Lower.ParamInfo) : params.map (·.irType p.folded.types) = params.map (·.irType p.types) :=
    map_congr_left fun info _ => paramType_folded p.types info.type _
  have result : irType p.folded.types f.folded.result = irType p.types f.result := irType_folded p.types f.result
  unfold lowerFunction
  rw [paramInfos_folded, result]
  refine .bind (.refl _) fun params => ?_
  simp only [id, slots]
  exact .bind (functionBody_ignoresCase f params _ (startEnv p f isMain) _) fun r => .ok r.2

theorem emitFunction_folded :
    Matches LowerError.span id (emitFunction p b f isMain) (emitFunction p.folded b f.folded isMain) :=
  .bind (lowerFunction_folded p b f isMain) fun _ => .ok _

end

/-- Functions in small letters are emitted alike, with faults at the same places. -/
theorem emitFunctions_folded (b : Ir.Builder) (fs : List (Function × Bool)) :
    (emitFunctions p.folded b (fs.map fun f => (f.1.folded, f.2))).1 = (emitFunctions p b fs).1 ∧
      (emitFunctions p.folded b (fs.map fun f => (f.1.folded, f.2))).2.map LowerError.span =
        (emitFunctions p b fs).2.map LowerError.span := by
  induction fs generalizing b with
  | nil => exact ⟨rfl, rfl⟩
  | cons f rest ih =>
    obtain ⟨f, isMain⟩ := f
    have emitted := emitFunction_folded p b f isMain
    simp only [map_cons, emitFunctions]
    generalize emitFunction p b f isMain = first, emitFunction p.folded b f.folded isMain = second at emitted
    cases emitted with
    | ok b' => exact ih b'
    | error same =>
      obtain ⟨builders, errors⟩ := ih b
      exact ⟨builders, by simp only [map_cons, errors, same]⟩

theorem commandParams_folded (types : TypeTable) (params : List Param) :
    commandParams types.folded params = commandParams types params := by
  induction params with
  | nil => rfl
  | cons p rest ih => rw [commandParams, commandParams, ih, paramType_folded]

theorem declareCommands_folded (types : TypeTable) (commands : List Command) (seen : List String) (b : Ir.Builder) :
    declareCommands types.folded seen b (commands.map Command.folded) = declareCommands types seen b commands := by
  induction commands generalizing seen b with
  | nil => rfl
  | cons c rest ih =>
    rw [map_cons, declareCommands, declareCommands]
    simp only [show c.folded.linkName = c.linkName from rfl, show c.folded.params = c.params from rfl,
      show c.folded.result = c.result from rfl, commandParams_folded, irType_folded, ih]

theorem declareTypes_folded (types : TypeTable) (b : Ir.Builder) : declareTypes types.folded b = declareTypes types b := by
  rw [declareTypes, show types.folded.user = types.user.map UserType.folded from rfl, foldl_map, declareTypes]
  simp only [UserType.folded, map_map, fold_fold, Function.comp_def, Member.folded, irType_folded]

theorem declareGlobal_folded (b : Ir.Builder) (var : SymbolId) : declareGlobal p.folded b var = declareGlobal p b var := by
  rw [declareGlobal, show p.folded.scopes.get? var = _ from p.scopes.get?_folded var, declareGlobal]
  cases p.scopes.get? var with
  | none => rfl
  | some symbol =>
    obtain ⟨name, span, scope, kind⟩ := symbol
    cases kind with
    | «variable» v =>
      simp only [Option.map_some, Symbol.folded, globalName_fold,
        show irType p.folded.types v.type = _ from irType_folded p.types v.type]
    | _ => rfl

theorem declareAll_folded (name : String) : declareAll p.folded name = declareAll p name := by
  have commands := declareCommands_folded p.types p.commands [] (declareRuntime (Ir.Builder.start name))
  simp only [declareAll]
  rw [show declareCommands p.folded.types [] _ p.folded.commands = _ from commands,
    show declareTypes p.folded.types _ = _ from declareTypes_folded p.types _,
    show declareGlobal p.folded = declareGlobal p from funext fun b => funext fun var => declareGlobal_folded p b var]
  rfl

/-- A program in small letters becomes the same module, or has its faults at the same
places. -/
theorem lower_folded (name : String) : Matches (List.map LowerError.span) id (lower p name) (lower p.folded name) := by
  have functions : p.folded.functions.map (·, false) ++ [(p.folded.main, true)] =
      (p.functions.map (·, false) ++ [(p.main, true)]).map fun f => (f.1.folded, f.2) := by
    simp only [Program.folded, map_append, map_map, map_cons, map_nil]
    rfl
  obtain ⟨builders, errors⟩ := emitFunctions_folded p (declareAll p name) (p.functions.map (·, false) ++ [(p.main, true)])
  simp only [lower, functions, declareAll_folded]
  generalize emitFunctions p (declareAll p name) _ = first at builders errors ⊢
  generalize emitFunctions p.folded (declareAll p name) _ = second at builders errors ⊢
  obtain ⟨b, faults⟩ := first
  obtain ⟨b', faults'⟩ := second
  obtain rfl : b' = b := builders
  cases faults with
  | nil =>
    cases faults' with
    | nil => exact .ok _
    | cons e' rest' => cases errors
  | cons e rest =>
    cases faults' with
    | nil => cases errors
    | cons e' rest' => exact .error errors

end Modules

end BasicCompiler.Lowering
