/-
# What the names in a compiled module stand for

Functions and globals of a module share their names' space. Names come from five places: the runtime, the commands,
the functions and the globals of the program, and its texts.
-/
import BasicCompiler.Proofs.Compilation
import BasicCompiler.Proofs.Lowering.References
import BasicCompiler.Proofs.Typed.LinkNames

namespace BasicCompiler

open List Typed

/-! ## Entities of a module -/

namespace Ir

/-- Something that a module has a name for. -/
inductive Entity where
  | function (f : Function)
  | global (g : Global)

def Entity.name : Entity → String
  | .function f => f.name
  | .global g => g.name

namespace Module

variable {m : Module}

def entities (m : Module) : List Entity := m.functions.map .function ++ m.globals.map .global

def symbols (m : Module) : List String := m.entities.map (·.name)

def Denotes (m : Module) (name : String) (e : Entity) : Prop := m.entities.filter (·.name = name) = [e]

theorem symbols_eq (m : Module) : m.symbols = m.functions.map (·.name) ++ m.globals.map (·.name) := by
  simp [symbols, entities, Entity.name, Function.comp_def]

theorem denotes_of_mem (nodup : m.symbols.Nodup) (mem : e ∈ m.entities) : m.Denotes e.name e := by
  obtain ⟨front, back, split⟩ := append_of_mem mem
  unfold symbols at nodup
  rw [split, map_append, map_cons, nodup_middle, nodup_cons, ← map_append] at nodup
  have others (d : Entity) (other : d ∈ front ++ back) : ¬ decide (d.name = e.name) = true := by
    rw [decide_eq_true_eq]
    intro same
    exact nodup.1 (mem_map.mpr ⟨d, other, same⟩)
  have before : front.filter (·.name = e.name) = [] :=
    filter_eq_nil_iff.mpr fun d inside => others d (mem_append_left _ inside)
  have behind : back.filter (·.name = e.name) = [] :=
    filter_eq_nil_iff.mpr fun d inside => others d (mem_append_right _ inside)
  unfold Denotes
  rw [split, filter_append, filter_cons, if_pos (decide_eq_true rfl), before, behind]
  rfl

end Module

/-! ## Texts -/

def textGlobals (n : Nat) (contents : List String) : List Global :=
  (contents.zipIdx n).map fun content => textGlobal content.2 content.1

namespace Builder

variable {b : Builder}

/-- Of globals, only texts were added, and they are numbered one after the other. -/
def AddsTexts (b b' : Builder) : Prop :=
  ∃ contents, b'.module.globals = b.module.globals ++ textGlobals b.nextString contents ∧
    b'.nextString = b.nextString + contents.length

theorem AddsTexts.of_same (globals : b'.module.globals = b.module.globals) (next : b'.nextString = b.nextString) :
    b.AddsTexts b' := ⟨[], globals.trans (append_nil _).symm, next⟩

theorem AddsTexts.trans (h : b.AddsTexts b') (h' : b'.AddsTexts b'') : b.AddsTexts b'' := by
  obtain ⟨contents, globals, next⟩ := h
  obtain ⟨contents', globals', next'⟩ := h'
  refine ⟨contents ++ contents', ?_, ?_⟩
  · rw [globals', globals, next, textGlobals, textGlobals, textGlobals, zipIdx_append, map_append, append_assoc]
  · rw [next', next, length_append, Nat.add_assoc]

theorem alloca_nextString (type : Ty) : (b.alloca type).2.nextString = b.nextString := by
  simp only [alloca, freshReg]
  split
  · split <;> rfl
  · rfl

theorem closeBlock_nextString : b.closeBlock.nextString = b.nextString := by
  unfold closeBlock
  split <;> rfl

theorem finishFunction_addsTexts (b : Builder) : b.AddsTexts b.finishFunction := by
  refine .of_same ?_ ?_
  · rw [← @closeBlock_module b]
    unfold finishFunction
    dsimp only
    split <;> rfl
  · rw [← @closeBlock_nextString b]
    unfold finishFunction
    dsimp only
    split <;> rfl

end Builder

end Ir

namespace Lowering

open Typed (Outlook Mention)

variable {p : Program} {f : Function} {s : LowerState} {m : Ir.Module} {name : String}

theorem Step.addsTexts (st : Step) : s.builder.AddsTexts (st.play s).builder := by
  cases st with
  | text content => exact ⟨[content], rfl, rfl⟩
  | slot type =>
    exact .of_same (congrArg Ir.Module.globals (Ir.Builder.alloca_rest type).2) (Ir.Builder.alloca_nextString type)
  | _ => exact .of_same rfl rfl

theorem Edits.addsTexts (h : Edits s s') : s.builder.AddsTexts s'.builder := by
  induction h with
  | trans _ _ first second => exact first.trans second
  | step st _ => exact st.addsTexts
  | setBlock id =>
    exact .of_same (congrArg Ir.Module.globals (Ir.Builder.setBlock_module id)) Ir.Builder.closeBlock_nextString
  | framed _ inside => exact inside
  | _ => exact .of_same rfl rfl

theorem emitFunction_addsTexts (run : emitFunction p b f isMain = .ok b') : b.AddsTexts b' := by
  obtain ⟨s, lowered, finished⟩ := bind_ok_iff.mp run
  cases finished
  obtain ⟨params, -, body⟩ := lowerFunction_run lowered
  have edits := functionBody_edits body
  have started : b.AddsTexts (b.startFunction f.linkName (params.map (·.irType p.types)) (resultType p f isMain)).2 :=
    b.finishFunction_addsTexts.trans (.of_same rfl rfl)
  exact (started.trans edits.addsTexts).trans s.builder.finishFunction_addsTexts

theorem emitFunctions_addsTexts {jobs : List (Function × Bool)} (run : emitFunctions p b jobs = (b', [])) :
    b.AddsTexts b' := by
  induction jobs generalizing b with
  | nil =>
    cases run
    exact .of_same rfl rfl
  | cons job rest ih =>
    obtain ⟨b1, emitted, run⟩ := emitFunctions_cons run
    exact (emitFunction_addsTexts emitted).trans (ih run)

theorem lower_globals (run : lower p name = .ok m) :
    ∃ n contents, m.globals = p.globals.filterMap (globalOf? p) ++ Ir.textGlobals n contents := by
  obtain ⟨b, fns, emitted, rfl, -, -⟩ := lower_run run
  obtain ⟨contents, globals, -⟩ := emitFunctions_addsTexts emitted
  rw [declareAll_globals] at globals
  exact ⟨_, contents, globals⟩

/-! ## What is referred to is there -/

def runtimeFunction (r : String × List Ir.Ty × Ir.Ty) : Ir.Function := .external r.1 r.2.1 false r.2.2

/-- The function is what a module has for the callee: the declaration of a command, or what
a function was lowered to. -/
def IsFor (p : Program) (fn : Ir.Function) : Callee → Prop
  | .function id => ∃ f, p.functions[id]? = some f ∧ Emits p (f, false) fn
  | .command index => ∃ c, p.commands[index]? = some c ∧ fn = commandFunction p.types c

/-- What an operation in the code of a function names is one entity of the module, which is
of the runtime, a text, or what a call or a variable in the function stands for. -/
def Linked (p : Program) (m : Ir.Module) (f : Function) : Ir.Op → Prop
  | .call name _ => ∃ target, m.Denotes name (.function target) ∧
      ((∃ r ∈ runtime, target = runtimeFunction r) ∨ ∃ callee, .callee callee ∈ f.mentions ∧ IsFor p target callee)
  | .global name => ∃ g, m.Denotes name (.global g) ∧
      ((∃ n content, g = Ir.textGlobal n content) ∨
        ∃ id ∈ p.globals, .variable id ∈ f.mentions ∧ globalOf? p id = some g)
  | _ => True

section

variable (run : lower p name = .ok m) (links : (p.commands.map (·.linkName)).Nodup)
include run links

theorem lower_functions :
    ∃ fns, m.functions = runtime.map runtimeFunction ++ p.commands.map (commandFunction p.types) ++ fns ∧
      List.Forall₂ (Emits p) (jobs p) fns := by
  obtain ⟨b, fns, -, -, functions, emits⟩ := lower_run run
  rw [declareAll_functions p name links] at functions
  exact ⟨fns, functions, emits⟩

theorem exists_isFor
    (linked : linkName? p callee = some link) : ∃ fn ∈ m.functions, fn.name = link ∧ IsFor p fn callee := by
  obtain ⟨fns, functions, emits⟩ := lower_functions run links
  rw [functions]
  cases callee with
  | function id =>
    obtain ⟨f, found, rfl⟩ := Option.map_eq_some_iff.mp linked
    obtain ⟨fn, inside, emitted⟩ := Emits.exists_of_mem emits (mem_of_getElem? found)
    exact ⟨fn, mem_append_right _ inside, emitted.signature.1, f, found, emitted⟩
  | command index =>
    obtain ⟨c, found, rfl⟩ := Option.map_eq_some_iff.mp linked
    refine ⟨commandFunction p.types c, mem_append_left _ (mem_append_right _ ?_), rfl, c, found, rfl⟩
    exact mem_map.mpr ⟨c, mem_of_getElem? found, rfl⟩

theorem Refers.linked (nodup : m.symbols.Nodup) (refers : Refers p f.mentions m.globals op) : Linked p m f op := by
  have function {fn : Ir.Function} (mem : fn ∈ m.functions) : m.Denotes fn.name (.function fn) :=
    m.denotes_of_mem nodup (mem_append_left _ (mem_map.mpr ⟨fn, mem, rfl⟩))
  have global {g : Ir.Global} (mem : g ∈ m.globals) : m.Denotes g.name (.global g) :=
    m.denotes_of_mem nodup (mem_append_right _ (mem_map.mpr ⟨g, mem, rfl⟩))
  cases op with
  | call link args =>
    rcases refers with ofRuntime | ⟨callee, mentioned, linked⟩
    · obtain ⟨r, mem, rfl⟩ := mem_map.mp ofRuntime
      obtain ⟨fns, functions, -⟩ := lower_functions run links
      refine ⟨runtimeFunction r, @function (runtimeFunction r) ?_, .inl ⟨r, mem, rfl⟩⟩
      rw [functions]
      exact mem_append_left _ (mem_append_left _ (mem_map.mpr ⟨r, mem, rfl⟩))
    · obtain ⟨fn, mem, rfl, isFor⟩ := exists_isFor run links linked
      exact ⟨fn, function mem, .inr ⟨callee, mentioned, isFor⟩⟩
  | global link =>
    rcases refers with ⟨n, content, mem, rfl⟩ | ⟨id, isGlobal, g, mentioned, made, rfl⟩
    · exact ⟨_, global mem, .inl ⟨n, content, rfl⟩⟩
    · obtain ⟨n, contents, globals⟩ := lower_globals run
      refine ⟨g, global ?_, .inr ⟨id, isGlobal, mentioned, made⟩⟩
      rw [globals]
      exact mem_append_left _ (mem_filterMap.mpr ⟨id, isGlobal, made⟩)
  | _ => trivial

end

/-- The code of every function that is there refers to nothing but what the function
mentions, the runtime and texts. -/
def AllCite (p : Program) (b : Ir.Builder) : Prop :=
  ∀ link params result blocks, .defined link params result blocks ∈ b.module.functions →
    ∃ f ∈ p.functions ++ [p.main], f.linkName = link ∧
      ∀ c ∈ blocks, ∀ i ∈ c.instrs, Refers p f.mentions b.module.globals i.op

theorem AllCite.emitFunction (h : AllCite p b) (idle : b.function = none) (resolved : f.Resolved p)
    (mem : f ∈ p.functions ++ [p.main]) (run : emitFunction p b f isMain = .ok b') : AllCite p b' := by
  obtain ⟨contents, more, -⟩ := emitFunction_addsTexts run
  obtain ⟨s, lowered, -, globals, functions⟩ := emitFunction_ok idle run
  intro link params result blocks isDefined
  rw [functions] at isDefined
  rcases mem_append.mp isDefined with old | new
  · obtain ⟨g, inProgram, linked, refers⟩ := h link params result blocks old
    refine ⟨g, inProgram, linked, fun c entered i inside => (refers c entered i inside).mono ?_⟩
    rw [more]
    exact subset_append_left _ _
  · obtain ⟨rfl, -, -, rfl⟩ := Ir.Function.defined.inj (mem_singleton.mp new)
    refine ⟨f, mem, rfl, fun c entered i inside => ?_⟩
    rw [globals]
    exact lowerFunction_cites resolved lowered i ⟨c, entered, inside⟩

theorem AllCite.emitFunctions {jobs : List (Function × Bool)} (h : AllCite p b) (idle : b.function = none)
    (each : ∀ job ∈ jobs, job.1 ∈ p.functions ++ [p.main] ∧ job.1.Resolved p)
    (run : emitFunctions p b jobs = (b', [])) : AllCite p b' := by
  induction jobs generalizing b with
  | nil =>
    cases run
    exact h
  | cons job rest ih =>
    obtain ⟨b1, emitted, run⟩ := emitFunctions_cons run
    obtain ⟨mem, resolved⟩ := each job mem_cons_self
    obtain ⟨idle1, -⟩ := emitFunction_run idle emitted
    exact ih (h.emitFunction idle resolved mem emitted) idle1 (forall_mem_cons.mp each).2 run

theorem lower_linked (resolved : p.Resolved fs) (run : lower p name = .ok m)
    (links : (p.commands.map (·.linkName)).Nodup) (nodup : m.symbols.Nodup) {params : List (Ir.Reg × Ir.Ty)}
    {result : Ir.Ty} {blocks : List Ir.Block} (mem : .defined link params result blocks ∈ m.functions) :
    ∃ f ∈ p.functions ++ [p.main], f.linkName = link ∧ ∀ c ∈ blocks, ∀ i ∈ c.instrs, Linked p m f i.op := by
  obtain ⟨b, fns, emitted, same, -, -⟩ := lower_run run
  have declares := Declares.declareAll p name
  have declared : AllCite p (declareAll p name) := by
    intro link params result blocks isDefined
    obtain ⟨_, _, _, _, impossible⟩ := declares.external _ isDefined
    cases impossible
  have all := declared.emitFunctions declares.idle
    (fun job isJob => ⟨fst_mem_of_mem_jobs isJob, resolved.each job.1 (fst_mem_of_mem_jobs isJob)⟩) emitted
  rw [same] at mem
  obtain ⟨f, inProgram, linked, refers⟩ := all link params result blocks mem
  rw [← same] at refers
  exact ⟨f, inProgram, linked, fun c entered i inside => (refers c entered i inside).linked run links nodup⟩

end Lowering

/-! ## Names -/

/-- The names that functions of other modules are linked under. -/
def Context.linkNames (ctx : Context) : List String := Lowering.runtime.map (·.1) ++ ctx.commands.map (·.linkName)

/-- Functions of other modules are linked under different names, which have no dot and are
not that of the main program. -/
structure Context.Plain (ctx : Context) : Prop where
  nodup : ctx.linkNames.Nodup
  dotless : ∀ name ∈ ctx.linkNames, '.' ∉ name.toList
  notMain : "main" ∉ ctx.linkNames

theorem Context.standard_plain (pointer : PointerWidth) : (Context.standard pointer).Plain := by
  have nodup : (Lowering.runtime.map (·.1) ++ Context.standardCommands.map (·.linkName)).Nodup := by decide +kernel
  have dotless : ∀ name ∈ Lowering.runtime.map (·.1) ++ Context.standardCommands.map (·.linkName),
      '.' ∉ name.toList := by decide +kernel
  have notMain : "main" ∉ Lowering.runtime.map (·.1) ++ Context.standardCommands.map (·.linkName) := by decide +kernel
  exact ⟨nodup, dotless, notMain⟩

theorem Ir.textGlobals_nodup (n : Nat) (contents : List String) : ((textGlobals n contents).map (·.name)).Nodup := by
  have numbers : ((contents.zipIdx n).map (·.2)).Nodup := by
    rw [zipIdx_map_snd]
    exact nodup_range'
  have names : (textGlobals n contents).map (·.name) = ((contents.zipIdx n).map (·.2)).map fun k => s!".str.{k}" := by
    rw [textGlobals, map_map, map_map]
    rfl
  rw [names]
  exact numbers.map fun _ _ same => text_injective same

namespace Lowering

variable {p : Program} {m : Ir.Module} {name : String}

theorem globalOf_name {id : SymbolId} {sym : Symbol SymbolKind} {g : Ir.Global} (found : p.scopes.get? id = some sym)
    (made : globalOf? p id = some g) : g.name = Lower.globalName sym.name := by
  unfold globalOf? at made
  rw [found] at made
  obtain ⟨name, span, scope, kind⟩ := sym
  cases kind <;> cases made
  rfl

theorem globals_nodup (resolved : p.Resolved fs) (nodup : p.globals.Nodup) :
    ((p.globals.filterMap (globalOf? p)).map (·.name)).Nodup := by
  rw [List.Nodup, pairwise_map, pairwise_filterMap]
  refine nodup.imp_of_mem fun {id id'} mem mem' other g made g' made' same => other ?_
  obtain ⟨sym, found, atRoot, -⟩ := resolved.globals id mem
  obtain ⟨sym', found', atRoot', -⟩ := resolved.globals id' mem'
  rw [globalOf_name found made, globalOf_name found' made'] at same
  exact resolved.unique id id' sym sym' found found' (atRoot.trans atRoot'.symm) (globalName_injective same)

theorem lower_symbols (run : lower p name = .ok m) (links : (p.commands.map (·.linkName)).Nodup) :
    ∃ n contents, m.symbols = (runtime.map (·.1) ++ p.commands.map (·.linkName)) ++
      (p.functions ++ [p.main]).map (·.linkName) ++
        ((p.globals.filterMap (globalOf? p)).map (·.name) ++ (Ir.textGlobals n contents).map (·.name)) := by
  obtain ⟨fns, functions, emits⟩ := lower_functions run links
  obtain ⟨n, contents, globals⟩ := lower_globals run
  have linked : fns.map (·.name) = (jobs p).map (·.1.linkName) := by
    rw [← forall₂_eq_eq_eq, forall₂_map_left_iff, forall₂_map_right_iff]
    refine emits.flip.imp fun fn job emitted => ?_
    exact Emits.signature emitted |>.1
  have jobLinks : (jobs p).map (·.1.linkName) = (p.functions ++ [p.main]).map (·.linkName) := by
    simp [jobs, Function.comp_def]
  have functionNames : m.functions.map (·.name) =
      runtime.map (·.1) ++ p.commands.map (·.linkName) ++ (p.functions ++ [p.main]).map (·.linkName) := by
    rw [functions, map_append, map_append, map_map, map_map, linked, jobLinks]
    rfl
  have globalNames : m.globals.map (·.name) =
      (p.globals.filterMap (globalOf? p)).map (·.name) ++ (Ir.textGlobals n contents).map (·.name) := by
    rw [globals, map_append]
  exact ⟨n, contents, by rw [Ir.Module.symbols_eq, functionNames, globalNames]⟩

end Lowering

/-! ## Compiled modules -/

section Compiled

variable {file : SourceFile} {m : Ir.Module} {p : Program} {source : Source.Program}

theorem check_commandLinks (checked : check ctx source = .ok p) :
    p.commands.map (·.linkName) = ctx.commands.map (·.linkName) := by
  obtain ⟨commands, -⟩ := check_commands checked
  symm
  rw [← forall₂_eq_eq_eq, forall₂_map_left_iff, forall₂_map_right_iff]
  refine commands.imp fun decl c isOf => ?_
  obtain ⟨members, -, rfl⟩ := isOf
  rfl

/-- The names of the globals of a program and of texts are different. They have dots, and are
no names that functions are linked under. -/
theorem globalNames_nodup (read : (Source.parseProgram file.text).result = some source)
    (checked : check ctx source = .ok p) (n : Nat) (contents : List String) :
    ((p.globals.filterMap (Lowering.globalOf? p)).map (·.name) ++ (Ir.textGlobals n contents).map (·.name)).Nodup ∧
      ∀ name ∈ (p.globals.filterMap (Lowering.globalOf? p)).map (·.name) ++ (Ir.textGlobals n contents).map (·.name),
        '.' ∈ name.toList ∧ ∀ a k, IsName a → Check.linkName a k ≠ name := by
  obtain ⟨nodup, called⟩ := check_globalNames (Source.parseProgram_names read) checked
  have ofVariable {name : String} (mem : name ∈ (p.globals.filterMap (Lowering.globalOf? p)).map (·.name)) :
      ∃ varName, IsName varName ∧ name = Lowering.Lower.globalName varName := by
    obtain ⟨g, isGlobal, rfl⟩ := mem_map.mp mem
    obtain ⟨id, mem, made⟩ := mem_filterMap.mp isGlobal
    obtain ⟨sym, found, isName⟩ := called id mem
    exact ⟨sym.name, isName, Lowering.globalOf_name found made⟩
  have ofText {name : String} (mem : name ∈ (Ir.textGlobals n contents).map (·.name)) : ∃ k : Nat, name = s!".str.{k}" := by
    obtain ⟨g, isText, rfl⟩ := mem_map.mp mem
    obtain ⟨content, -, rfl⟩ := mem_map.mp isText
    exact ⟨content.2, rfl⟩
  refine ⟨nodup_append.mpr ⟨?_, Ir.textGlobals_nodup n contents, fun a isVariable b isText same => ?_⟩,
    fun name mem => ?_⟩
  · exact Lowering.globals_nodup (check_resolved checked) nodup
  · obtain ⟨varName, -, rfl⟩ := ofVariable isVariable
    obtain ⟨k, rfl⟩ := ofText isText
    exact Lowering.text_ne_globalName k varName same.symm
  · rcases mem_append.mp mem with isVariable | isText
    · obtain ⟨varName, isName, rfl⟩ := ofVariable isVariable
      exact ⟨Check.dot_mem_globalName varName, fun a k ha => Check.linkName_ne_globalName ha isName⟩
    · obtain ⟨k, rfl⟩ := ofText isText
      obtain ⟨rest, dotted⟩ := text_dotted k
      rw [dotted]
      exact ⟨by simp [String.toList_append], fun a k ha => Check.linkName_ne_dotted ha rest⟩

/-- The names of a module are different if no function of the program takes that of a
function of another module. -/
theorem symbols_nodup_iff (plain : ctx.Plain) (read : (Source.parseProgram file.text).result = some source)
    (checked : check ctx source = .ok p) (lowered : Lowering.lower p file.name = .ok m) :
    m.symbols.Nodup ↔ ∀ f ∈ p.functions, f.linkName ∉ ctx.linkNames := by
  obtain ⟨spelled, main, functions⟩ := check_linkNames (Source.parseProgram_names read) checked
  have commands := check_commandLinks checked
  have links : (p.commands.map (·.linkName)).Nodup := commands ▸ (nodup_append.mp plain.nodup).2.1
  obtain ⟨n, contents, symbols⟩ := Lowering.lower_symbols lowered links
  obtain ⟨globals, dotted⟩ := globalNames_nodup read checked n contents
  rw [commands, ← Context.linkNames] at symbols
  rw [symbols]
  constructor
  · intro nodup f mem taken
    obtain ⟨front, -, -⟩ := nodup_append.mp nodup
    refine (nodup_append.mp front).2.2 _ taken _ ?_ rfl
    exact mem_map.mpr ⟨f, mem_append_left _ mem, rfl⟩
  · intro free
    have own {link : String} (mem : link ∈ (p.functions ++ [p.main]).map (·.linkName)) :
        (∃ f ∈ p.functions, f.linkName = link) ∨ link = "main" := by
      obtain ⟨f, inside, rfl⟩ := mem_map.mp mem
      rcases mem_append.mp inside with isFunction | isMain
      · exact .inl ⟨f, isFunction, rfl⟩
      · rw [mem_singleton.mp isMain]
        exact .inr main
    refine nodup_append.mpr ⟨nodup_append.mpr ⟨plain.nodup, functions, ?_⟩, globals, ?_⟩
    · rintro link reserved _ mem rfl
      rcases own mem with ⟨f, isFunction, rfl⟩ | rfl
      · exact free f isFunction reserved
      · exact plain.notMain reserved
    · rintro link inFront _ isGlobal rfl
      obtain ⟨dot, noLink⟩ := dotted link isGlobal
      rcases mem_append.mp inFront with reserved | mem
      · exact plain.dotless link reserved dot
      · rcases own mem with ⟨f, isFunction, rfl⟩ | rfl
        · obtain ⟨name, overload, isName, linked⟩ := spelled f isFunction
          exact noLink name overload isName linked.symm
        · revert dot
          decide

/-- All names of a compiled module are different if and only if no function of the program is
linked under the name of a function of the runtime or of a command. Then every name that
the code of a function refers to stands for one entity: of the runtime, a text, or what the
checker found for a call or a variable of the function. -/
theorem compile_linked {pointer : PointerWidth} (run : (compile (.standard pointer) file).result = some m) :
    ∃ p, (checkText (.standard pointer) file.text).result = some p ∧
      (m.symbols.Nodup ↔ ∀ f ∈ p.functions, f.linkName ∉ (Context.standard pointer).linkNames) ∧
      (m.symbols.Nodup → ∀ name params result blocks, .defined name params result blocks ∈ m.functions →
        ∃ f ∈ p.functions ++ [p.main], f.linkName = name ∧
          ∀ c ∈ blocks, ∀ i ∈ c.instrs, Lowering.Linked p m f i.op) := by
  obtain ⟨p, typed, lowered⟩ := compile_run run
  obtain ⟨source, read, checked⟩ := checkText_run typed
  have plain := Context.standard_plain pointer
  have links : (p.commands.map (·.linkName)).Nodup :=
    check_commandLinks checked ▸ (List.nodup_append.mp plain.nodup).2.1
  refine ⟨p, typed, symbols_nodup_iff plain read checked lowered, fun nodup name params result blocks mem => ?_⟩
  exact Lowering.lower_linked (Typed.check_resolved checked) lowered links nodup mem

end Compiled

example : (compile (.bare .bits64) ⟨"empty", ""⟩).result.any (fun m => decide m.symbols.Nodup) = true := by
  decide +kernel

/-- Overloads of a command's name and of one that looks like a global, with texts and with
globals that are called like functions. -/
def lookalikes : SourceFile := ⟨"<input>",
  "g as integer\nmain = 1\nfunction print(a as integer, b as string)\n print b\nendfunction a + g\n" ++
  "function g1()\nendfunction \"x\"\nfunction g1(a as integer)\nendfunction a\nprint print(g1(main), g1() + \"y\")\n"⟩

theorem lookalikes_linked : ∃ m p, (compile (.standard .bits32) lookalikes).result = some m ∧
    (checkText (.standard .bits32) lookalikes.text).result = some p ∧ m.symbols.Nodup ∧
      ∀ name params result blocks, .defined name params result blocks ∈ m.functions →
        ∃ f ∈ p.functions ++ [p.main], f.linkName = name ∧
          ∀ c ∈ blocks, ∀ i ∈ c.instrs, Lowering.Linked p m f i.op := by
  have computed : (compile (.standard .bits32) lookalikes).result.any (fun m => decide m.symbols.Nodup) = true := by
    decide +kernel
  obtain ⟨m, run, different⟩ := (Option.any_eq_true _ _).mp computed
  obtain ⟨p, checked, -, linked⟩ := compile_linked run
  have nodup := of_decide_eq_true different
  exact ⟨m, p, run, checked, nodup, linked nodup⟩

/-- A function that is called as a command is linked, and calls that command. -/
def takenName : SourceFile := ⟨"<input>", "function dbrt_timer()\nendfunction timer()\nprint dbrt_timer()\n"⟩

/-- Two functions of a module may have one name. -/
theorem takenName_clashes : ∃ m, (compile (.standard .bits64) takenName).result = some m ∧
    ¬ m.symbols.Nodup ∧ (m.symbols.filter (· = "dbrt_timer")).length = 2 := by
  have computed : (compile (.standard .bits64) takenName).result.any (fun m =>
      !decide m.symbols.Nodup && (m.symbols.filter (· = "dbrt_timer")).length = 2) = true := by decide +kernel
  obtain ⟨m, run, clashes⟩ := (Option.any_eq_true _ _).mp computed
  obtain ⟨twice, count⟩ := (Bool.and_eq_true _ _).mp clashes
  exact ⟨m, run, by simpa using twice, of_decide_eq_true count⟩

end BasicCompiler
