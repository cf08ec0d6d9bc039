/-
# Whole programs that are checked

When everything is declared, every function waits. Those that still wait are analysed one after the other, so that all
are done, and the main program is checked last, in a scope of its own.
-/
import BasicCompiler.Proofs.Source.Names
import BasicCompiler.Proofs.Typed.Analysis
import BasicCompiler.Proofs.Typed.Layouts
import Mathlib.Data.List.Nodup

namespace BasicCompiler.Typed

open List Check CheckState Option

/-! ## The functions that wait -/

def Idle (s : CheckState) : Prop := ∀ sig ∈ s.signatures, sig.analysis ≠ .running

def Finished (s : CheckState) : Prop := ∀ sig ∈ s.signatures, ∃ f, sig.analysis = .done f

theorem Idle.grow (h : Idle s) (grows : Grows here s s') : Idle s' := by
  intro sig' mem running
  obtain ⟨id, below, rfl⟩ := getElem_of_mem mem
  obtain ⟨sig, found, becomes⟩ := grows.signature_of (getElem?_eq_getElem below)
  have before := becomes.analysis
  rw [running] at before
  generalize was : sig.analysis = a at before
  cases before
  exact h sig (mem_of_getElem? found) was

theorem Finished.grow (h : Finished s) (grows : Grows here s s') : Finished s' := by
  intro sig' mem
  obtain ⟨id, below, rfl⟩ := getElem_of_mem mem
  obtain ⟨sig, found, becomes⟩ := grows.signature_of (getElem?_eq_getElem below)
  obtain ⟨f, done⟩ := h sig (mem_of_getElem? found)
  have after := becomes.analysis
  rw [done] at after
  exact ⟨f, after.of_done⟩

theorem pendingFunctions_sound (analyses : Analyses fs analyse)
    (sound : Sound fs s) (run : pendingFunctions analyse ids s = .ok (u, s')) :
    Grows (fun _ => False) s s' ∧ Sound fs s' ∧
      ∀ id ∈ ids, ∃ sig : Signature, s'.signatures[id]? = some sig ∧ sig.analysis ≠ .pending := by
  induction ids generalizing s with
  | nil =>
    cases run
    exact ⟨.refl _ _, sound, by simp⟩
  | cons id rest ih =>
    obtain ⟨sig, s1, signed, run1⟩ := bind_ok.mp run
    obtain ⟨rfl, found⟩ := Looks.signature id Span.none sig s1 signed
    -- after this the function does not wait
    obtain ⟨s2, grows2, sound2, ⟨sig2, found2, handled⟩, run2⟩ : ∃ s2, Grows (fun _ => False) s1 s2 ∧
        Sound fs s2 ∧ (∃ sig : Signature, s2.signatures[id]? = some sig ∧ sig.analysis ≠ .pending) ∧
        pendingFunctions analyse rest s2 = .ok (u, s') := by
      cases isPending : sig.analysis.isPending with
      | false =>
        rw [isPending] at run1
        refine ⟨s1, .refl _ _, sound, ⟨sig, found, fun pending => ?_⟩, run1⟩
        rw [pending] at isPending
        cases isPending
      | true =>
        rw [isPending] at run1
        have pending : sig.analysis = .pending := by
          generalize sig.analysis = a at isPending
          cases a <;> simp_all [Analysis.isPending]
        obtain ⟨_, s2, analysed, run2⟩ := bind_ok.mp run1
        obtain ⟨grows, -, sound2, sig2, f, found2, done⟩ := analyses id sig s1 s2 sound found pending analysed
        exact ⟨s2, grows, sound2, ⟨sig2, found2, by simp [done]⟩, run2⟩
    obtain ⟨grows', sound', each⟩ := ih sound2 run2
    refine ⟨grows2.trans grows', sound', fun i mem => ?_⟩
    rcases mem_cons.mp mem with rfl | mem
    · obtain ⟨sig', found', becomes⟩ := grows'.signatures i sig2 found2
      refine ⟨sig', found', fun pending => handled ?_⟩
      have before := becomes.analysis
      rw [pending] at before
      exact before.pending
    · exact each i mem

theorem finished_of_handled (idle : Idle s)
    (handled : ∀ id < s.signatures.length, ∃ sig : Signature, s.signatures[id]? = some sig ∧
      sig.analysis ≠ .pending) : Finished s := by
  intro sig mem
  obtain ⟨id, below, rfl⟩ := getElem_of_mem mem
  obtain ⟨sig', found, waits⟩ := handled id below
  obtain rfl := some.inj ((getElem?_eq_getElem below).symm.trans found)
  have atWork := idle _ mem
  generalize s.signatures[id].analysis = a at waits atWork
  cases a with
  | pending => exact absurd rfl waits
  | running => exact absurd rfl atWork
  | done f => exact ⟨f, rfl⟩

/-! ## The main program -/

theorem Sound.pushScope (h : Sound fs s) (run : pushScope none s = .ok (scope, s')) :
    Sound fs s' ∧ Ready fs { s' with body := Body.start scope none } := by
  obtain ⟨adds, isNew, count⟩ := Adds.push h.declared.toScoped run
  have signatures : s'.signatures = s.signatures := by rw [adds.rest]
  have types : s'.types = s.types := by rw [adds.rest]
  have declared : Declared fs s' := by
    refine h.declared.expand adds.expands adds.isScoped (fun i sym found absent => ?_)
      (adds.overloads _ (fun i sym os found isFunction o mem => ?_) (by simp)) (by simp [signatures])
      (by simp [signatures]) (types ▸ h.declared.members) (types ▸ h.declared.nested)
    · exact (adds.fresh i sym found absent).elim
    · exact adds.expands.knows h.declared (h.declared.overloads i sym os found isFunction o mem)
  have sound : Sound fs s' := by
    refine ⟨declared, fun id sig f found isDone => ?_⟩
    cases run
    obtain ⟨decl, isDecl, analysed⟩ := h.done id sig f found isDone
    exact ⟨decl, isDecl, { analysed with }⟩
  -- nothing is declared in the new scope
  have nothing {P : SymbolKind → Prop} {i : SymbolId} (declares : s'.scopes.Declares scope P i) : False := by
    obtain ⟨sym, found, inScope, -⟩ := declares
    cases run
    have below := h.declared.inside i sym found
    rw [inScope, isNew] at below
    exact Nat.lt_irrefl _ below
  refine ⟨sound, sound.withBody _, ?_, ?_, ?_, ?_, ?_, ?_, nodup_nil, ?_⟩
  · rw [isNew]
    exact Nat.ne_of_gt h.declared.rooted
  · rw [isNew, count]
    exact Nat.lt_succ_self _
  · intro id isFunction
    cases isFunction
  · intro _ id sig found same
    have below := (h.declared.signatures id sig (signatures ▸ found)).scope.2
    rw [same] at below
    exact Nat.ne_of_lt below isNew
  · intro id declares
    exact (nothing declares).elim
  · intro id mem
    cases mem
  · intro id
    refine ⟨fun mem => ?_, fun declares => (nothing declares).elim⟩
    cases mem

/-- What is known of the main program. -/
structure Function.IsMain (s : CheckState) (body : List Source.Stmt) (f : Function) : Prop where
  linkName : f.linkName = "main"
  params : f.params = []
  result : f.result = .void
  endValue : f.endValue = none
  inner : f.scope ≠ ScopeTree.root
  apart : ∀ sig ∈ s.signatures, sig.scope ≠ f.scope
  locals : ∀ id ∈ f.locals, s.scopes.Declares f.scope SymbolKind.IsLocal id
  nodup : f.locals.Nodup
  labels : ∀ id ∈ f.labels, s.scopes.Declares f.scope SymbolKind.IsLabel id
  labelled : f.Labelled
  typed : ∀ w, s.view f.locals f.labels none ≤ w → f.body.WellTyped w
  placed : Source.stmtsPlaced false false body → s.Sizes (Source.stmtsDecls body) →
    ∀ w, s.view f.locals f.labels none ≤ w → f.body.Placed w false false

/-- What is noted of the globals and the commands stays as it is. -/
structure Retains (s s' : CheckState) : Prop where
  types : s'.types = s.types
  commands : s'.commands = s.commands
  globals : s'.globals = s.globals
  predeclared : s'.predeclared = s.predeclared
  symbols : s.scopes.Extends s'.scopes

theorem Retains.trans (h : Retains s s') (h' : Retains s' s'') : Retains s s'' :=
  ⟨h'.types.trans h.types, h'.commands.trans h.commands, h'.globals.trans h.globals,
    h'.predeclared.trans h.predeclared, h.symbols.trans h'.symbols⟩

theorem Grows.retains (h : Grows here s s') : Retains s s' := ⟨h.types, h.commands, h.globals, h.predeclared, h.symbols⟩

variable {f : Function}

theorem mainProgram_isMain (analyses : Analyses fs analyse) {body : List Source.Stmt}
    (sound : Sound fs s) (finished : Finished s) (run : mainProgram analyse body s = .ok (f, s')) :
    Sound fs s' ∧ Finished s' ∧ s'.signatures.length = s.signatures.length ∧ Retains s s' ∧ f.IsMain s' body := by
  obtain ⟨scope, s1, pushed, run1⟩ := bind_ok.mp run
  obtain ⟨_, s2, started, run2⟩ := bind_ok.mp run1
  cases started
  obtain ⟨_, s3, labels, run3⟩ := bind_ok.mp run2
  obtain ⟨typed, s4, checked, run4⟩ := bind_ok.mp run3
  obtain ⟨_, s5, got, made⟩ := bind_ok.mp run4
  cases got
  cases made
  have signatures : s1.signatures = s.signatures := by
    cases pushed
    rfl
  obtain ⟨-, ready⟩ := sound.pushScope pushed
  obtain ⟨grows, ready3, scope3, function3, distinct, symbols, noted, declared⟩ := ready.labelsFrom labels
  obtain ⟨later, ready', agree⟩ := Keeps.stmts analyses body s3 typed _ checked ready3
  have inScope : s'.body.scope = scope := later.scope.trans scope3
  have isMain : s'.body.function = none := later.function.trans function3
  have grown := grows.trans (scope3 ▸ later.grows)
  have working := ready'.working
  have seen : s'.outlook = s'.view s'.body.locals s'.body.labels none := by
    unfold outlook own working?
    rw [isMain]
    rfl
  refine ⟨ready'.sound, ?_, ?_, ?_, rfl, rfl, rfl, rfl, ?_, fun sig mem same => ?_, fun id mem => ?_,
    working.nodup, fun id mem => ?_, ?_, fun w le => agree.typed w (seen ▸ le), fun isPlaced sizes w le => ?_⟩
  · refine Finished.grow (fun sig mem => finished sig ?_) grown
    exact signatures ▸ mem
  · rw [grown.count]
    exact congrArg _ signatures
  · have retains : Retains s { s1 with body := Body.start scope none } := by
      obtain ⟨adds, -⟩ := Adds.push sound.declared.toScoped pushed
      refine ⟨?_, ?_, ?_, ?_, adds.expands.symbols⟩ <;> rw [adds.rest]
    exact retains.trans grown.retains
  · exact inScope ▸ working.scope
  · obtain ⟨id, below, found⟩ := getElem_of_mem mem
    refine working.main isMain id sig ?_ (same.trans inScope.symm)
    rw [getElem?_eq_getElem below, found]
  · exact inScope ▸ working.locals id mem
  · exact inScope ▸ (working.labels id).mp mem
  · exact ready'.labelled rfl (later.labels ▸ noted) (later.labelsOf declared) agree.labels
      (later.labels ▸ distinct) rfl
  · exact agree.placed sizes false false isPlaced w (seen ▸ le)

/-! ## The program -/

/-- What is set up before any body is checked. -/
structure Furnished (ctx : Context) (p : Source.Program) (s : CheckState) : Prop where
  noted : Noted (programGlobals p) s
  commands : List.Forall₂ Command.IsOf ctx.commands s.commands
  pointer : s.types.pointer = ctx.pointer

variable {ctx : Context} {p : Source.Program}

theorem Furnished.retain (h : Furnished ctx p s) (retains : Retains s s') : Furnished ctx p s' where
  noted := by
    refine ⟨retains.globals ▸ h.noted.nodup, fun id mem => ?_, fun entry mem => ?_⟩
    · rw [retains.globals] at mem
      obtain ⟨decl, isDecl, sym, found, name⟩ := h.noted.names id mem
      obtain ⟨kind, found', -⟩ := retains.symbols id sym found
      exact ⟨decl, isDecl, _, found', name⟩
    · rw [retains.predeclared] at mem
      obtain ⟨decl, isDecl, span, v, isVariable, sized⟩ := h.noted.sized entry mem
      exact ⟨decl, isDecl, span, v, retains.symbols.asVariable? isVariable, sized⟩
  commands := retains.commands ▸ h.commands
  pointer := retains.types ▸ h.pointer

/-- What checking ends with. -/
structure Completes (ctx : Context) (p : Source.Program) (s : CheckState) (main : Function) : Prop where
  sound : Sound p.functions s
  finished : Finished s
  count : s.signatures.length = p.functions.length
  isMain : main.IsMain s p.stmts
  furnished : Furnished ctx p s

/-- The program of a state. -/
def CheckState.program (s : CheckState) (main : Function) : Program where
  scopes := s.scopes
  types := s.types
  commands := s.commands
  globals := s.globals
  functions := s.signatures.filterMap (·.analysis.function?)
  main := main

theorem CheckState.start_declared (fs : List Source.Function) (pointer : PointerWidth) (memberAlign : Nat) :
    Declared fs (start pointer memberAlign) where
  rooted := Nat.one_pos
  flat scope parent isParent := by
    cases scope <;> cases isParent
  inside id sym found := by simp [start, ScopeTree.empty, ScopeTree.get?] at found
  unique i j a b found := by simp [start, ScopeTree.empty, ScopeTree.get?] at found
  rootVariables id declares := by
    obtain ⟨sym, found, -⟩ := declares
    simp [start, ScopeTree.empty, ScopeTree.get?] at found
  globals id mem := by cases mem
  predeclared entry mem := by cases mem
  values id v found := by
    simp [start, ScopeTree.empty, ScopeTree.get?, ScopeTree.asVariable?] at found
  overloads id sym os found := by simp [start, ScopeTree.empty, ScopeTree.get?] at found
  signatures id sig found := by simp [start] at found
  apart i j sig sig' found := by simp [start] at found
  pending id sig found := by simp [start] at found
  members id m mem := by
    simp [start, TypeTable.empty, TypeTable.get, UserType.declared] at mem
  nested := by
    refine ⟨[], nodup_nil, fun id => ?_, fun id m mem => ?_, fun id => rfl⟩
    · simp [start, TypeTable.empty, TypeTable.get, UserType.declared]
    · simp [start, TypeTable.empty, TypeTable.get, UserType.declared] at mem

/-- What the bodies of a program are checked with. -/
structure Begins (ctx : Context) (p : Source.Program) (s : CheckState) : Prop where
  declared : Declared p.functions s
  furnished : Furnished ctx p s
  waiting : ∀ sig ∈ s.signatures, sig.analysis = .pending
  count : s.signatures.length = p.functions.length

theorem declarations_begin (commands : commandsFrom 0 ctx.commands (start ctx.pointer ctx.memberAlign) =
      .ok (u, s1)) (types : types p.types s1 = .ok (u, s2)) (functions : functionsFrom 0 p.functions s2 = .ok (u, s3))
    (globals : globals (programGlobals p) s3 = .ok (u, s)) : Begins ctx p s := by
  have start := start_declared p.functions ctx.pointer ctx.memberAlign
  obtain ⟨declared1, same1, cs, areOf, commands1⟩ := start.commandsFrom rfl commands
  obtain ⟨declared2, unsigned2, same2, pointer2⟩ := declared1.types (by rw [same1]; rfl) (by rw [same1]; rfl) types
  have functions' : functionsFrom s2.signatures.length p.functions s2 = .ok (u, s3) := by
    rw [unsigned2]
    exact functions
  obtain ⟨declared3, same3, waiting, count⟩ :=
    declared2.functionsFrom (by simp [unsigned2]) (by simp [unsigned2]) functions'
  have predeclared3 : s3.predeclared = [] := by
    rw [same3, same2, same1]
    rfl
  have globals3 : s3.globals = [] := by
    rw [same3, same2, same1]
    rfl
  have noted3 : Noted (programGlobals p) s3 := ⟨by simp [globals3], by simp [globals3], by simp [predeclared3]⟩
  obtain ⟨declared, noted, same⟩ := declared3.globalsOf noted3 (fun _ mem => mem) globals
  have signatures : s.signatures = s3.signatures := by rw [same]
  refine ⟨declared, ⟨noted, ?_, ?_⟩, signatures ▸ waiting, ?_⟩
  · have commands : s.commands = cs := by
      rw [same, same3, same2]
      exact commands1
    exact commands ▸ areOf
  · have pointer : s.types.pointer = s2.types.pointer := by rw [same, same3]
    rw [pointer, pointer2, same1]
    rfl
  · rw [signatures, count, unsigned2]
    exact Nat.zero_add _

theorem Begins.sound (h : Begins ctx p s) : Sound p.functions s := by
  refine ⟨h.declared, fun id sig f found done => ?_⟩
  rw [h.waiting sig (mem_of_getElem? found)] at done
  cases done

theorem Begins.idle (h : Begins ctx p s) : Idle s := by
  intro sig mem running
  rw [h.waiting sig mem] at running
  cases running

variable {typed : Program}

theorem check_completes (run : check ctx p = .ok typed) :
    ∃ s, Completes ctx p s typed.main ∧ typed = s.program typed.main := by
  obtain ⟨⟨_, s'⟩, run, made⟩ := bind_ok_iff.mp run
  dsimp only at made
  split at made
  case isFalse => cases made
  cases made
  obtain ⟨_, s1, commands, run1⟩ := bind_ok.mp run
  obtain ⟨_, s2, types, run2⟩ := bind_ok.mp run1
  obtain ⟨_, s3, functions, run3⟩ := bind_ok.mp run2
  obtain ⟨_, s4, globals, run4⟩ := bind_ok.mp run3
  obtain ⟨_, s5, pending, run5⟩ := bind_ok.mp run4
  obtain ⟨main, s6, last, run6⟩ := bind_ok.mp run5
  obtain ⟨_, s7, got, made⟩ := bind_ok.mp run6
  cases got
  cases made
  have begins := declarations_begin commands types functions globals
  have analyses := function_analyses p.functions p.functions.length
  obtain ⟨grows, sound, handled⟩ := pendingFunctions_sound analyses begins.sound pending
  have count : s5.signatures.length = p.functions.length := grows.count.trans begins.count
  have finished : Finished s5 := by
    refine finished_of_handled (begins.idle.grow grows) fun id below => handled id ?_
    exact mem_range.mpr (count ▸ below)
  obtain ⟨sound', finished', count', retains, isMain⟩ := mainProgram_isMain analyses sound finished last
  have furnished := begins.furnished.retain (grows.retains.trans retains)
  exact ⟨s', ⟨sound', finished', count'.trans count, isMain, furnished⟩, rfl⟩

/-! ## What is true of the program -/

/-- The function is in order: it has a scope with its parameters, variables and labels,
and is well typed. -/
structure Function.Resolved (p : Program) (f : Function) : Prop where
  inner : f.scope ≠ ScopeTree.root
  params : ∀ id ∈ f.params, p.scopes.Declares f.scope SymbolKind.IsParam id
  locals : ∀ id ∈ f.locals, p.scopes.Declares f.scope SymbolKind.IsLocal id
  labels : ∀ id ∈ f.labels, p.scopes.Declares f.scope SymbolKind.IsLabel id
  labelled : f.Labelled
  paramsNodup : f.params.Nodup
  localsNodup : f.locals.Nodup
  typed : f.WellTyped p

theorem Function.Resolved.mem_globals {p : Program} (resolved : f.Resolved p)
    {id : SymbolId} {v : Variable} (mem : id ∈ f.params ++ f.locals ++ p.globals)
    (isVariable : p.asVariable? id = some v) (atRoot : v.storage = .global) : id ∈ p.globals := by
  unfold Program.asVariable? at isVariable
  rcases mem_append.mp mem with own | isGlobal
  · exfalso
    rcases mem_append.mp own with isParam | isLocal
    · obtain ⟨sym, found, -, type, index, byRef, kind⟩ := resolved.params id isParam
      rw [found, bind_some, kind] at isVariable
      cases isVariable
      cases atRoot
    · obtain ⟨sym, found, -, type, kind⟩ := resolved.locals id isLocal
      rw [found, bind_some, kind] at isVariable
      cases isVariable
      cases atRoot
  · exact isGlobal

/-- The function is that of the declaration. -/
structure Function.IsOf (p : Program) (f : Function) (decl : Source.Function) : Prop where
  name : f.name = decl.name.node
  span : f.span = decl.span
  params : List.Forall₂ (fun id (q : Source.Param) => ∃ sym, p.scopes.get? id = some sym ∧
    sym.name = q.name.node) f.params decl.params

structure Program.Resolved (fs : List Source.Function) (p : Program) : Prop where
  functions : List.Forall₂ (Function.IsOf p) p.functions fs
  each : ∀ f ∈ p.functions ++ [p.main], f.Resolved p
  apart : ((p.functions ++ [p.main]).map (·.scope)).Nodup
  unique : p.scopes.IsUnique
  globals : ∀ id ∈ p.globals, p.scopes.Declares ScopeTree.root SymbolKind.IsGlobal id
  values : ∀ id v, p.asVariable? id = some v → v.type.IsSolid
  members : ∀ id, ∀ m ∈ (p.types.get id).members, m.type.IsSolid
  nested : p.types.IsNested
  results : (∀ c ∈ p.commands, (∀ q ∈ c.params, q.type.IsSolid) ∧ c.result.IsResult) →
    ∀ f ∈ p.functions, f.result.IsResult
  mainResult : p.main.result = .void
  mainParams : p.main.params = []

namespace Completes

variable {ctx : Context} {p : Source.Program} {main : Function}

theorem getElem?_functions (h : Completes ctx p s main) (id : FunctionId) :
    (s.program main).functions[id]? = s.signatures[id]?.bind (·.analysis.function?) := by
  have finished := h.finished
  unfold Finished at finished
  unfold CheckState.program
  generalize s.signatures = sigs at finished
  induction sigs generalizing id with
  | nil => rfl
  | cons sig rest ih =>
    obtain ⟨f, done⟩ := finished sig (by simp)
    have first : sig.analysis.function? = some f := by rw [done]; rfl
    rw [filterMap_cons, first]
    cases id with
    | zero => exact first.symm
    | succ id => exact ih id fun sig mem => finished sig (by simp [mem])

variable {id : FunctionId}

section

variable (h : Completes ctx p s main)
include h

theorem analysed (found : (s.program main).functions[id]? = some f) :
    ∃ (sig : Signature) (decl : Source.Function), s.signatures[id]? = some sig ∧ p.functions[id]? = some decl ∧
      f.Analysed s decl sig := by
  rw [h.getElem?_functions] at found
  obtain ⟨sig, atId, isFunction⟩ := bind_eq_some_iff.mp found
  have done : sig.analysis = .done f := by
    generalize sig.analysis = a at isFunction
    cases a <;> cases isFunction
    rfl
  obtain ⟨decl, isDecl, analysed⟩ := h.sound.done id sig f atId done
  exact ⟨sig, decl, atId, isDecl, analysed⟩

theorem analysed_of_signature (atId : s.signatures[id]? = some sig) :
    ∃ (f : Function) (decl : Source.Function), (s.program main).functions[id]? = some f ∧ f.Analysed s decl sig := by
  obtain ⟨f, done⟩ := h.finished sig (mem_of_getElem? atId)
  obtain ⟨decl, -, analysed⟩ := h.sound.done id sig f atId done
  refine ⟨f, decl, ?_, analysed⟩
  rw [h.getElem?_functions, atId, bind_some, done]
  rfl

theorem view_le {own : List SymbolId} {returns? : Option Ty}
    (same : own = f.params ++ f.locals) (known : ∀ ty, returns? = some ty → ty = f.result) :
    s.view own f.labels returns? ≤ (s.program main).outlook f where
  types := rfl
  sees id v found := by
    rw [same] at found
    exact found
  params callee ps found := by
    cases callee with
    | function id =>
      obtain ⟨sig, atId, rfl⟩ := map_eq_some_iff.mp found
      obtain ⟨g, decl, isFunction, analysed⟩ := h.analysed_of_signature atId
      refine map_eq_some_iff.mpr ⟨g, isFunction, ?_⟩
      rw [analysed.params]
      rfl
    | command index => exact found
  result callee ty found := by
    cases callee with
    | function id =>
      obtain ⟨sig, atId, result⟩ := bind_eq_some_iff.mp found
      obtain ⟨g, decl, isFunction, analysed⟩ := h.analysed_of_signature atId
      refine map_eq_some_iff.mpr ⟨g, isFunction, ?_⟩
      exact some.inj (analysed.result.symm.trans result)
    | command index => exact found
  labels id mem := mem
  returns ty found := by rw [known ty found]; rfl
  target ty impossible := by cases impossible

theorem resolved_function (found : (s.program main).functions[id]? = some f) : f.Resolved (s.program main) := by
  obtain ⟨sig, decl, atId, isDecl, analysed⟩ := h.analysed found
  have stands := h.sound.declared.signatures id sig atId
  obtain ⟨body, endValue⟩ := analysed.typed _ (h.view_le rfl fun ty same => (some.inj same).symm)
  refine ⟨?_, ?_, analysed.locals, analysed.labels, analysed.labelled, ?_, analysed.nodup, body, endValue⟩
  · rw [analysed.scope]
    exact stands.scope.1
  · rw [analysed.scope, analysed.params]
    exact stands.params
  · rw [analysed.params]
    exact stands.nodup

theorem resolved_main : main.Resolved (s.program main) := by
  have isMain := h.isMain
  refine ⟨isMain.inner, ?_, isMain.locals, isMain.labels, isMain.labelled, ?_, isMain.nodup, ?_, ?_⟩
  · simp [isMain.params]
  · simp [isMain.params]
  · exact isMain.typed _ (h.view_le (by simp [isMain.params]) (by simp))
  · simp [isMain.endValue]

theorem scopes_nodup : (((s.program main).functions ++ [main]).map (·.scope)).Nodup := by
  rw [map_append, nodup_append]
  refine ⟨?_, by simp, ?_⟩
  · rw [nodup_iff_getElem?_ne_getElem?]
    intro i j lt below same
    rw [length_map] at below
    have atJ := getElem?_eq_getElem below
    have atI := getElem?_eq_getElem (Nat.lt_trans lt below)
    rw [getElem?_map, getElem?_map, atI, atJ] at same
    obtain ⟨sigI, _, foundI, -, analysedI⟩ := h.analysed atI
    obtain ⟨sigJ, _, foundJ, -, analysedJ⟩ := h.analysed atJ
    have scopes : sigI.scope = sigJ.scope := by
      rw [← analysedI.scope, ← analysedJ.scope]
      exact some.inj same
    exact Nat.ne_of_lt lt (h.sound.declared.apart i j sigI sigJ foundI foundJ scopes)
  · intro scope mem scope' isMain same
    obtain ⟨f, isFunction, rfl⟩ := mem_map.mp mem
    obtain ⟨id, below, rfl⟩ := getElem_of_mem isFunction
    obtain ⟨sig, _, found, -, analysed⟩ := h.analysed (getElem?_eq_getElem below)
    rw [map_singleton, mem_singleton] at isMain
    refine h.isMain.apart sig (mem_of_getElem? found) ?_
    rw [← analysed.scope, same, isMain]

theorem isOf_functions : Forall₂ (Function.IsOf (s.program main)) (s.program main).functions p.functions := by
  have lengths : (s.program main).functions.length = p.functions.length := by
    rw [← h.count]
    refine Nat.le_antisymm (length_filterMap_le _ _) (Nat.not_lt.mp fun short => ?_)
    have past := h.getElem?_functions (s.program main).functions.length
    obtain ⟨f, _, found, -⟩ := h.analysed_of_signature (getElem?_eq_getElem short)
    rw [getElem?_eq_none (Nat.le_refl _)] at found
    cases found
  refine forall₂_iff_get.mpr ⟨lengths, fun id below below' => ?_⟩
  obtain ⟨sig, decl, atId, isDecl, analysed⟩ := h.analysed (getElem?_eq_getElem below)
  obtain ⟨decl', isDecl', names⟩ := (h.sound.declared.signatures id sig atId).names
  obtain rfl := some.inj (isDecl.symm.trans isDecl')
  obtain rfl := some.inj (isDecl.symm.trans (getElem?_eq_getElem below'))
  refine ⟨analysed.name, analysed.span, ?_⟩
  rw [get_eq_getElem, analysed.params]
  exact names

theorem resolved : (s.program main).Resolved p.functions where
  functions := h.isOf_functions
  each := by
    refine forall_mem_append.mpr ⟨fun f isFunction => ?_, forall_mem_singleton.mpr h.resolved_main⟩
    obtain ⟨id, below, rfl⟩ := getElem_of_mem isFunction
    exact h.resolved_function (getElem?_eq_getElem below)
  apart := h.scopes_nodup
  unique := h.sound.declared.unique
  globals := h.sound.declared.globals
  values := h.sound.declared.values
  members := h.sound.declared.members
  nested := h.sound.declared.nested
  results solid f mem := by
    obtain ⟨id, below, rfl⟩ := getElem_of_mem mem
    obtain ⟨sig, _, found, -, analysed⟩ := h.analysed (getElem?_eq_getElem below)
    exact (h.sound.declared.signatures id sig found).fits.result solid _ analysed.result
  mainResult := h.isMain.result
  mainParams := h.isMain.params

theorem sizes (nodup : (Source.declSpans p.decls).Nodup) : s.Sizes p.decls := by
  intro decl mem sized id found
  obtain ⟨before, behind, split, -⟩ := lookup_eq_some_iff.mp found
  obtain ⟨decl', isGlobal, span, v, isVariable, isArray⟩ :=
    h.furnished.noted.sized (decl.name.span, id) (by rw [split]; simp)
  have mem' := (programGlobals_sublist p).subset isGlobal
  obtain rfl := inj_on_of_nodup_map nodup mem mem' span
  obtain ⟨elem, isArray⟩ := isArray sized
  exact ⟨v, elem, isVariable, isArray⟩

theorem placed (isPlaced : p.Placed) (nodup : (Source.declSpans p.decls).Nodup)
    (mem : f ∈ (s.program main).functions ++ [main]) : f.body.Placed ((s.program main).outlook f) false false := by
  have sizes := h.sizes nodup
  rcases mem_append.mp mem with isFunction | isMain
  · obtain ⟨id, below, rfl⟩ := getElem_of_mem isFunction
    obtain ⟨sig, decl, -, isDecl, analysed⟩ := h.analysed (getElem?_eq_getElem below)
    have declared := mem_of_getElem? isDecl
    refine analysed.placed (isPlaced.functions decl declared) (sizes.mono fun d isOne => ?_) _
      (h.view_le rfl fun ty same => (some.inj same).symm)
    exact mem_append_right _ (mem_flatMap.mpr ⟨decl, declared, isOne⟩)
  · rw [mem_singleton.mp isMain]
    refine h.isMain.placed isPlaced.main (sizes.mono fun d isOne => mem_append_left _ isOne) _
      (h.view_le (by simp [h.isMain.params]) (by simp))

end

end Completes

theorem check_resolved (run : check ctx p = .ok typed) : typed.Resolved p.functions := by
  obtain ⟨s, completes, same⟩ := check_completes run
  rw [same]
  exact completes.resolved

theorem check_commands (run : check ctx p = .ok typed) :
    Forall₂ Command.IsOf ctx.commands typed.commands ∧ typed.types.pointer = ctx.pointer := by
  obtain ⟨s, completes, same⟩ := check_completes run
  rw [same]
  exact ⟨completes.furnished.commands, completes.furnished.pointer⟩

theorem check_placed (read : (Source.parseProgram text).result = some p) (run : check ctx p = .ok typed) :
    ∀ f ∈ typed.functions ++ [typed.main], f.body.Placed (typed.outlook f) false false := by
  obtain ⟨isPlaced, nodup⟩ := Source.parseProgram_placed read
  obtain ⟨s, completes, same⟩ := check_completes run
  intro f mem
  rw [same] at mem ⊢
  exact completes.placed isPlaced nodup mem

/-- Every function of a checked program is well typed. -/
theorem check_wellTyped {ctx : Context} {p : Source.Program} {typed : Program}
    (run : check ctx p = .ok typed) : ∀ f ∈ typed.functions ++ [typed.main], f.WellTyped typed :=
  fun f mem => ((check_resolved run).each f mem).typed

/-- A function that is analysed in the middle of another one, with a label, a loop variable
and a global that is written to in part. -/
def interrupted : String :=
  "function outer(n)\nendfunction inner(n) + 1\n" ++
  "function inner(n)\n again:\n total# = n * 1.5\n if n > 3 then goto again\nendfunction total#\n" ++
  "v as vec3\nv.xz += 1\nfor i = 1 to 3\n x = outer(i)\nnext i\n"

theorem interrupted_accepted : ∃ p typed, (Source.parseProgram interrupted).result = some p ∧
    check (.bare .bits64) p = .ok typed := by
  have computed : (Source.parseProgram interrupted).result.any
      (fun p => (check (.bare .bits64) p).isOk) = true := by decide +kernel
  obtain ⟨p, parsed, accepted⟩ := (any_eq_true _ _).mp computed
  cases run : check (.bare .bits64) p with
  | error e =>
    rw [run] at accepted
    cases accepted
  | ok typed => exact ⟨p, typed, parsed, run⟩

theorem interrupted_wellTyped : ∃ p typed, (Source.parseProgram interrupted).result = some p ∧
    check (.bare .bits64) p = .ok typed ∧ ∀ f ∈ typed.functions ++ [typed.main], f.WellTyped typed := by
  obtain ⟨p, typed, parsed, run⟩ := interrupted_accepted
  exact ⟨p, typed, parsed, run, check_wellTyped run⟩

end BasicCompiler.Typed
