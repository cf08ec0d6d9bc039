/-
# What the checker accepts is lowered

A program that was read and checked has a module, if every place that it assigns to or passes by its address has one:
components of a vector have none of their own.
-/
import BasicCompiler.Proofs.Lowering.TypedModules

namespace BasicCompiler

open List Typed

namespace Typed

theorem Function.Resolved.knows {f : Function} (resolved : f.Resolved p) : ∀ id ∈ f.params, ∃ v, p.asVariable? id = some v := by
  intro id isParam
  obtain ⟨sym, found, -, type, index, byRef, isVariable⟩ := resolved.params id isParam
  refine ⟨⟨type, .param index byRef⟩, ?_⟩
  unfold Program.asVariable?
  rw [found, Option.bind_some, isVariable]
  rfl

end Typed

namespace Lowering

open Typed (Outlook)

variable {f : Function} {k : Linking}

/-! ## Outcomes -/

/-- A success as it should be, only where `possible` holds, and for want of an address a failure
only where `sure` does not. -/
def Decided (sure possible : Bool) (P : α → Prop) : Except LowerError α → Prop
  | .ok a => possible = true ∧ P a
  | .error e => sure = false ∧ e.fault = .noAddress

section

variable {r : Except LowerError α} (h : Decided sure possible P r)
include h

theorem Decided.ok (holds : sure = true) : ∃ a, r = .ok a ∧ P a := by
  cases r with
  | ok a => exact ⟨a, rfl, h.2⟩
  | error e =>
    have never := h.1
    rw [holds] at never
    cases never

theorem Decided.error (fails : possible = false) : ∃ e, r = .error e := by
  cases r with
  | error e => exact ⟨e, rfl⟩
  | ok a =>
    rw [h.1] at fails
    cases fails

end

/-! ## Functions -/

theorem paramInfos_ok (span : Span) (known : ∀ id ∈ ids, ∃ v, p.asVariable? id = some v) :
    ∃ infos, Lower.paramInfos p span ids = .ok infos := by
  induction ids with
  | nil => exact ⟨[], rfl⟩
  | cons id rest ih =>
    obtain ⟨v, isVariable⟩ := known id mem_cons_self
    obtain ⟨infos, made⟩ := ih fun id mem => known id (mem_cons_of_mem _ mem)
    unfold Lower.paramInfos
    rw [isVariable, made]
    exact ⟨_, rfl⟩

theorem emitFunction_decided (prepared : Prepared k b) (resolved : f.Resolved k.program)
    (mainVoid : isMain = true → f.result = .void) (total : k.total) (relies : Relies k.program)
    (placed : f.body.Placed (k.program.outlook f) false false) :
    Decided f.addressable f.body.addressable (Prepared k) (emitFunction k.program b f isMain) := by
  obtain ⟨infos, made⟩ := paramInfos_ok f.span resolved.knows
  have answer := startedBody_answers prepared resolved mainVoid (fun _ => relies) (fun _ => placed) made
  have kept (b' : Ir.Builder) : emitFunction k.program b f isMain = .ok b' → Prepared k b' :=
    prepared.emitFunction resolved mainVoid (fun _ => relies) fun _ => placed
  unfold emitFunction lowerFunction at kept ⊢
  unfold resultType at answer
  rw [made] at kept ⊢
  dsimp only [Bind.bind, Except.bind, StateT.run] at kept ⊢
  generalize Lower.functionBody f infos _ _ _ = r at answer kept ⊢
  cases r with
  | ok p => exact ⟨answer.1 total, kept _ rfl⟩
  | error e => exact answer total

/-! ## Programs -/

/-- From any builder that is fine, the function is lowered or not as its places have addresses
or not, and leaves a builder that is fine. -/
def Settled (p : Program) (fine : Ir.Builder → Prop) (job : Function × Bool) : Prop :=
  ∀ b, fine b → Decided job.1.addressable job.1.body.addressable fine (emitFunction p b job.1 job.2)

section

variable {jobs : List (Function × Bool)} (settled : ∀ job ∈ jobs, Settled p fine job) (isFine : fine b)
include settled isFine

theorem emitFunctions_ok (all : ∀ job ∈ jobs, job.1.addressable = true) : (emitFunctions p b jobs).2 = [] := by
  induction jobs generalizing b with
  | nil => rfl
  | cons job rest ih =>
    obtain ⟨b', made, isFine'⟩ := (settled job mem_cons_self b isFine).ok (all job mem_cons_self)
    unfold emitFunctions
    rw [made]
    exact ih (forall_mem_cons.mp settled).2 isFine' (forall_mem_cons.mp all).2

theorem emitFunctions_error (mem : job ∈ jobs) (fails : job.1.body.addressable = false) :
    (emitFunctions p b jobs).2 ≠ [] := by
  induction jobs generalizing b with
  | nil => cases mem
  | cons first rest ih =>
    have decided := settled first mem_cons_self b isFine
    unfold emitFunctions
    rcases mem_cons.mp mem with rfl | later
    · obtain ⟨e, failed⟩ := decided.error fails
      rw [failed]
      exact cons_ne_nil _ _
    · split
      next b' made =>
        rw [made] at decided
        exact ih (forall_mem_cons.mp settled).2 decided.2 later
      · exact cons_ne_nil _ _

theorem emitFunctions_fault : ∀ e ∈ (emitFunctions p b jobs).2, e.fault = .noAddress := by
  induction jobs generalizing b with
  | nil => exact forall_mem_nil _
  | cons job rest ih =>
    have first := settled job mem_cons_self b isFine
    unfold emitFunctions
    split
    next b' made =>
      rw [made] at first
      exact ih (forall_mem_cons.mp settled).2 first.2
    next e failed =>
      rw [failed] at first
      exact forall_mem_cons.mpr ⟨first.2, ih (forall_mem_cons.mp settled).2 isFine⟩

end

theorem lower_cases (p : Program) (name : String) :
    (emitFunctions p (declareAll p name) (jobs p)).2 = [] ∧ (∃ m, lower p name = .ok m) ∨
      (emitFunctions p (declareAll p name) (jobs p)).2 ≠ [] ∧
        lower p name = .error (emitFunctions p (declareAll p name) (jobs p)).2 := by
  unfold lower jobs
  dsimp only
  obtain ⟨b, errors⟩ := emitFunctions p (declareAll p name) (p.functions.map (·, false) ++ [(p.main, true)])
  cases errors with
  | nil => exact .inl ⟨rfl, _, rfl⟩
  | cons e rest => exact .inr ⟨cons_ne_nil _ _, rfl⟩

section Program

variable {name : String} (settled : ∃ fine, fine (declareAll p name) ∧ ∀ job ∈ jobs p, Settled p fine job)

include settled

theorem lower_ok (all : ∀ f ∈ p.functions ++ [p.main], f.addressable = true) : ∃ m, lower p name = .ok m := by
  obtain ⟨fine, isFine, settled⟩ := settled
  have none := emitFunctions_ok settled isFine fun job mem => all job.1 (fst_mem_of_mem_jobs mem)
  rcases lower_cases p name with ⟨-, made⟩ | ⟨nonempty, -⟩
  · exact made
  · exact absurd none nonempty

theorem lower_error (mem : f ∈ p.functions ++ [p.main]) (fails : f.body.addressable = false) :
    ∃ errors, lower p name = .error errors := by
  obtain ⟨fine, isFine, settled⟩ := settled
  obtain ⟨isMain, isJob⟩ := exists_mem_jobs mem
  rcases lower_cases p name with ⟨none, -⟩ | ⟨-, reported⟩
  · exact absurd none (emitFunctions_error settled isFine isJob fails)
  · exact ⟨_, reported⟩

theorem lower_fault (run : lower p name = .error errors) : ∀ e ∈ errors, e.fault = .noAddress := by
  rcases lower_cases p name with ⟨-, m, made⟩ | ⟨-, reported⟩
  · rw [made] at run
    cases run
  · rw [reported] at run
    cases run
    obtain ⟨fine, isFine, settled⟩ := settled
    exact emitFunctions_fault settled isFine

end Program

/-! ## Commands -/

def SolidCommands (p : Program) : Prop := ∀ c ∈ p.commands, (∀ q ∈ c.params, q.type.IsSolid) ∧ c.result.IsResult

theorem Relies.of_resolved (resolved : p.Resolved fs)
    (commands : SolidCommands p) : Relies p where
  values := resolved.values
  members := resolved.members
  globals := resolved.globals
  params callee ps known q mem := by
    cases callee with
    | function id =>
      obtain ⟨g, -, rfl⟩ := Option.map_eq_some_iff.mp known
      obtain ⟨param, -, isParam⟩ := mem_filterMap.mp mem
      obtain ⟨v, isVariable, rfl⟩ := Option.map_eq_some_iff.mp isParam
      exact resolved.values param v isVariable
    | command index =>
      obtain ⟨c, found, rfl⟩ := Option.map_eq_some_iff.mp known
      exact (commands c (mem_of_getElem? found)).1 q mem
  results callee ty known := by
    cases callee with
    | function id =>
      obtain ⟨g, found, rfl⟩ := Option.map_eq_some_iff.mp known
      exact resolved.results commands g (mem_of_getElem? found)
    | command index =>
      obtain ⟨c, found, rfl⟩ := Option.map_eq_some_iff.mp known
      exact (commands c (mem_of_getElem? found)).2

def spellsValues (decl : CommandDecl) : Bool :=
  match parsePattern decl.pattern with
  | .ok members => members.tail.all (fun m => decide m.toParam.type.IsSolid) &&
      decide (((members.head?.map (·.type.toTy)).getD .void : Ty).IsResult)
  | .error _ => true

theorem standard_spellsValues : Context.standardCommands.all spellsValues = true := by decide +kernel

theorem solidCommands (areOf : List.Forall₂ Command.IsOf decls p.commands) (spells : decls.all spellsValues = true) :
    SolidCommands p := by
  intro c mem
  obtain ⟨index, below, rfl⟩ := getElem_of_mem mem
  obtain ⟨lengths, each⟩ := forall₂_iff_get.mp areOf
  obtain ⟨members, spelled, same⟩ := each index (lengths ▸ below) below
  have values := all_eq_true.mp spells _ (get_mem decls ⟨index, lengths ▸ below⟩)
  unfold spellsValues at values
  rw [spelled] at values
  obtain ⟨params, result⟩ := (Bool.and_eq_true _ _).mp values
  rw [get_eq_getElem] at same
  rw [same]
  refine ⟨fun q isParam => ?_, of_decide_eq_true result⟩
  obtain ⟨m, isMember, rfl⟩ := mem_map.mp isParam
  exact of_decide_eq_true (all_eq_true.mp params m isMember)

theorem check_settled (name : String) (read : (Source.parseProgram text).result = some source)
    (run : check ctx source = .ok p) (spells : ctx.commands.all spellsValues = true) :
    ∃ fine, fine (declareAll p name) ∧ ∀ job ∈ jobs p, Settled p fine job := by
  have resolved := check_resolved run
  have relies := Relies.of_resolved resolved (solidCommands (check_commands run).1 spells)
  -- a linking that takes all calls and conversions
  let k : Linking := {
    program := p
    rules := ⟨fun _ _ => True, fun _ _ _ => true⟩
    result := .void
    total := True
    casts := fun _ _ _ _ => rfl
    nested := resolved.nested
    runtime := fun _ _ => trivial
    commands := fun _ _ => trivial
    functions := fun f mem =>
      have ⟨infos, made⟩ := paramInfos_ok f.span (resolved.each f (mem_append_left _ mem)).knows
      ⟨infos, made, trivial⟩ }
  refine ⟨Prepared k, prepared_declareAll (k := k) name resolved, fun job isJob b prepared => ?_⟩
  obtain ⟨inOrder, mainVoid⟩ := resolved_of_mem_jobs resolved isJob
  exact emitFunction_decided prepared inOrder mainVoid trivial relies
    (check_placed read run job.1 (fst_mem_of_mem_jobs isJob))

end Lowering

end BasicCompiler
