/-
# What the tables of a check agree on

The scopes, the signatures, the commands and the types are kept in tables of their own.
-/
import BasicCompiler.Proofs.Typed.Scopes
import BasicCompiler.Proofs.Typed.Solid
import Mathlib.Data.List.Forall2

namespace BasicCompiler

open Option

/-- The types that are laid out can be put in an order in which each stands behind those
that it embeds, and a type owns something exactly if a member does. -/
def TypeTable.IsNested (t : TypeTable) : Prop :=
  ∃ order : List UserTypeId, order.Nodup ∧ (∀ id, id ∈ order ↔ (t.get id).isLaidOut = true) ∧
    (∀ id, ∀ m ∈ (t.get id).members, ∀ j, m.type = .user j → j < t.user.length →
      ∃ before behind, order = before ++ id :: behind ∧ j ∈ before) ∧
    ∀ id, t.needsFini (.user id) = (t.get id).members.any fun m => t.needsFini m.type

namespace Typed

/-! ## Signatures and what they become -/

/-- An analysis stays as it is, or it is done at once. -/
inductive Analysis.Becomes : Analysis → Analysis → Prop
  | same (a : Analysis) : Becomes a a
  | finished (f : Function) : Becomes .pending (.done f)

structure Signature.Becomes (sig sig' : Signature) : Prop where
  symbol : sig'.symbol = sig.symbol
  overload : sig'.overload = sig.overload
  params : sig'.params = sig.params
  scope : sig'.scope = sig.scope
  linkName : sig'.linkName = sig.linkName
  result : ∀ ty, sig.result = some ty → sig'.result = some ty
  analysis : sig.analysis.Becomes sig'.analysis

theorem Analysis.Becomes.trans {a b c : Analysis} (h : a.Becomes b) (h' : b.Becomes c) : a.Becomes c := by
  cases h with
  | same => exact h'
  | finished f =>
    cases h'
    exact .finished f

theorem Analysis.Becomes.pending {a : Analysis} (h : a.Becomes .pending) : a = .pending := by
  cases h
  rfl

theorem Analysis.Becomes.of_running (h : Analysis.running.Becomes a) : a = .running := by
  cases h
  rfl

theorem Analysis.Becomes.of_done (h : (Analysis.done f).Becomes a) : a = .done f := by
  cases h
  rfl

theorem Signature.Becomes.refl (sig : Signature) : sig.Becomes sig := ⟨rfl, rfl, rfl, rfl, rfl, fun _ h => h, .same _⟩

theorem Signature.Becomes.trans {sig sig' sig'' : Signature} (h : sig.Becomes sig')
    (h' : sig'.Becomes sig'') : sig.Becomes sig'' where
  symbol := h'.symbol.trans h.symbol
  overload := h'.overload.trans h.overload
  params := h'.params.trans h.params
  scope := h'.scope.trans h.scope
  linkName := h'.linkName.trans h.linkName
  result ty known := h'.result ty (h.result ty known)
  analysis := h.analysis.trans h'.analysis

namespace CheckState

/-! ## Views of the tables -/

def callParams? (s : CheckState) : Callee → Option (List Param)
  | .function id => s.signatures[id]?.map fun sig => s.scopes.paramList sig.params
  | .command index => s.commands[index]?.map (·.params)

def callResult? (s : CheckState) : Callee → Option Ty
  | .function id => s.signatures[id]?.bind (·.result)
  | .command index => s.commands[index]?.map (·.result)

def view (s : CheckState) (own labels : List SymbolId) (returns? : Option Ty) : Outlook where
  types := s.types
  sees? id := if id ∈ own ++ s.globals then s.scopes.asVariable? id else none
  params? := s.callParams?
  result? := s.callResult?
  labels := labels
  returns? := returns?
  target? := none

/-- The overload has the parameters of what it calls, and the result of a command. -/
def Knows (s : CheckState) (o : Overload) : Prop :=
  s.callParams? o.callee = some o.params ∧ ∀ index, o.callee = .command index → s.callResult? o.callee = some o.result

def Awaits (s : CheckState) (scope : ScopeId) : Prop :=
  ∃ (id : FunctionId) (sig : Signature), s.signatures[id]? = some sig ∧ sig.analysis = .pending ∧ sig.scope = scope

def SolidCommands (s : CheckState) : Prop := ∀ c ∈ s.commands, (∀ p ∈ c.params, p.type.IsSolid) ∧ c.result.IsResult

end CheckState

/-! ## Agreement -/

/-- A signature has its place among the overloads, and gives a value or nothing. -/
structure Signature.Fits (s : CheckState) (id : FunctionId) (sig : Signature) : Prop where
  placed : ∃ sym os o, s.scopes.get? sig.symbol = some sym ∧ sym.kind = .function os ∧
    os[sig.overload]? = some o ∧ o.callee = .function id
  result : s.SolidCommands → ∀ ty, sig.result = some ty → ty.IsResult

/-- The function is linked under its name and the number of its overload, and the symbol is
that of its name. -/
def Signature.Linked (fs : List Source.Function) (s : CheckState) (id : FunctionId) (sig : Signature) : Prop :=
  ∃ decl, fs[id]? = some decl ∧ sig.linkName = Check.linkName decl.name.node sig.overload ∧
    s.scopes.CalledAtRoot sig.symbol decl.name.node

/-- The signature of the function that has the number `id`. -/
structure Signature.Stands (fs : List Source.Function) (s : CheckState) (id : FunctionId)
    (sig : Signature) : Prop where
  names : ∃ decl, fs[id]? = some decl ∧
    List.Forall₂ (fun i (p : Source.Param) => ∃ sym, s.scopes.get? i = some sym ∧ sym.name = p.name.node)
      sig.params decl.params
  scope : sig.scope ≠ ScopeTree.root ∧ sig.scope < s.scopes.scopes.length
  params : ∀ i ∈ sig.params, s.scopes.Declares sig.scope SymbolKind.IsParam i
  nodup : sig.params.Nodup
  fits : sig.Fits s id
  linked : sig.Linked fs s id

/-- Every symbol lies in a scope that is there, and every variable of the root is a global
and is known to be one. -/
structure Scoped (s : CheckState) : Prop where
  rooted : 0 < s.scopes.scopes.length
  flat : s.scopes.IsFlat
  inside : ∀ id sym, s.scopes.get? id = some sym → sym.scope < s.scopes.scopes.length
  unique : s.scopes.IsUnique
  rootVariables : ∀ id, s.scopes.Declares ScopeTree.root (fun k => ∃ v, k = .variable v) id → id ∈ s.globals
  globals : ∀ id ∈ s.globals, s.scopes.Declares ScopeTree.root SymbolKind.IsGlobal id
  predeclared : ∀ entry ∈ s.predeclared, entry.2 ∈ s.globals
  values : ∀ id v, s.scopes.asVariable? id = some v → v.type.IsSolid

structure Declared (fs : List Source.Function) (s : CheckState) : Prop extends Scoped s where
  overloads : ∀ id sym os, s.scopes.get? id = some sym → sym.kind = .function os → ∀ o ∈ os, s.Knows o
  signatures : ∀ (id : FunctionId) (sig : Signature), s.signatures[id]? = some sig → sig.Stands fs s id
  apart : ∀ (i j : FunctionId) (sig sig' : Signature), s.signatures[i]? = some sig →
    s.signatures[j]? = some sig' → sig.scope = sig'.scope → i = j
  pending : ∀ (id : FunctionId) (sig : Signature), s.signatures[id]? = some sig →
    sig.analysis = .pending → ∀ i, s.scopes.Declares sig.scope (fun _ => True) i → i ∈ sig.params
  members : ∀ id, ∀ m ∈ (s.types.get id).members, m.type.IsSolid
  nested : s.types.IsNested

theorem Declared.params_asVariable? {id : FunctionId} (h : Declared fs s) (found : s.signatures[id]? = some sig) :
    ∀ i ∈ sig.params, ∃ v, s.scopes.asVariable? i = some v := by
  intro i mem
  obtain ⟨v, isVariable, -⟩ := ((h.signatures id sig found).params i mem).asVariable? fun k isParam => by
    obtain ⟨type, index, byRef, same⟩ := isParam
    exact ⟨_, same⟩
  exact ⟨v, isVariable⟩

/-- A new symbol lies in a scope that is there, is no variable of the root, and as a
variable holds values. -/
structure CheckState.Admits (s : CheckState) (sym : Symbol SymbolKind) : Prop where
  inside : sym.scope < s.scopes.scopes.length
  rootless : sym.scope = ScopeTree.root → ∀ v, sym.kind ≠ .variable v
  solid : ∀ v, sym.kind = .variable v → v.type.IsSolid

theorem Scoped.grow (h : Scoped s) (symbols : s.scopes.Extends s'.scopes)
    (scopes : s.scopes.scopes.length ≤ s'.scopes.scopes.length) (flat : s'.scopes.IsFlat)
    (unique : s'.scopes.IsUnique) (globals : s'.globals = s.globals) (predeclared : s'.predeclared = s.predeclared)
    (fresh : ∀ id sym, s'.scopes.get? id = some sym → s.scopes.get? id = none → s'.Admits sym) :
    Scoped s' where
  rooted := Nat.lt_of_lt_of_le h.rooted scopes
  flat := flat
  inside id sym' found' := by
    rcases symbols.new_or_old found' with isNew | ⟨sym, kind, before, rfl, -⟩
    · exact (fresh id sym' found' isNew).inside
    · exact Nat.lt_of_lt_of_le (h.inside id sym before) scopes
  unique := unique
  rootVariables id declared := by
    obtain ⟨sym', found', atRoot, v, isVariable⟩ := declared
    rw [globals]
    rcases symbols.new_or_old found' with isNew | ⟨sym, kind, before, rfl, becomes⟩
    · exact absurd isVariable ((fresh id sym' found' isNew).rootless atRoot v)
    · exact h.rootVariables id ⟨sym, before, atRoot, v, (becomes.variable_iff v).mp isVariable⟩
  globals id mem := by
    rw [globals] at mem
    exact symbols.declares SymbolKind.IsGlobal.becomes (h.globals id mem)
  predeclared entry mem := by
    rw [predeclared] at mem
    rw [globals]
    exact h.predeclared entry mem
  values id v found := by
    obtain ⟨sym', atId, isVariable⟩ := bind_eq_some_iff.mp found
    rw [SymbolKind.asVariable?_eq_some] at isVariable
    rcases symbols.new_or_old atId with isNew | ⟨sym, kind, before, rfl, becomes⟩
    · exact (fresh id sym' atId isNew).solid v isVariable
    · refine h.values id v (bind_eq_some_iff.mpr ⟨sym, before, ?_⟩)
      rw [SymbolKind.asVariable?_eq_some]
      exact (becomes.variable_iff v).mp isVariable

/-! ## Growth -/

/-- Nothing is forgotten, and what is new is declared where `here` says, or in functions
that had not been looked at. -/
structure Grows (here : ScopeId → Prop) (s s' : CheckState) : Prop where
  types : s'.types = s.types
  commands : s'.commands = s.commands
  globals : s'.globals = s.globals
  predeclared : s'.predeclared = s.predeclared
  scopes : s'.scopes.parents = s.scopes.parents
  symbols : s.scopes.Extends s'.scopes
  fresh : ∀ id sym, s'.scopes.get? id = some sym → s.scopes.get? id = none → here sym.scope ∨ s.Awaits sym.scope
  count : s'.signatures.length = s.signatures.length
  signatures : ∀ (id : FunctionId) (sig : Signature), s.signatures[id]? = some sig →
    ∃ sig' : Signature, s'.signatures[id]? = some sig' ∧ sig.Becomes sig'

namespace Grows

theorem length_scopes (h : Grows here s s') : s'.scopes.scopes.length = s.scopes.scopes.length :=
  ScopeTree.length_of_parents h.scopes

theorem refl (here : ScopeId → Prop) (s : CheckState) : Grows here s s where
  types := rfl
  commands := rfl
  globals := rfl
  predeclared := rfl
  scopes := rfl
  symbols := .refl _
  fresh id sym found absent := by simp [absent] at found
  count := rfl
  signatures id sig found := ⟨sig, found, .refl sig⟩

section

variable (h : Grows here s s')
include h

theorem signature_of {id : FunctionId} {sig' : Signature} (found : s'.signatures[id]? = some sig') :
    ∃ sig : Signature, s.signatures[id]? = some sig ∧ sig.Becomes sig' := by
  obtain ⟨below, -⟩ := List.getElem?_eq_some_iff.mp found
  have there := List.getElem?_eq_getElem (h.count ▸ below)
  obtain ⟨sig'', found'', becomes⟩ := h.signatures id _ there
  obtain rfl := some.inj (found.symm.trans found'')
  exact ⟨_, there, becomes⟩

theorem awaits_of {scope : ScopeId} (awaits : s'.Awaits scope) : s.Awaits scope := by
  obtain ⟨id, sig', found, pending, same⟩ := awaits
  obtain ⟨sig, found, becomes⟩ := h.signature_of found
  have before := becomes.analysis
  rw [pending] at before
  exact ⟨id, sig, found, before.pending, becomes.scope.symm.trans same⟩

theorem trans (h' : Grows here s' s'') : Grows here s s'' where
  types := h'.types.trans h.types
  commands := h'.commands.trans h.commands
  globals := h'.globals.trans h.globals
  predeclared := h'.predeclared.trans h.predeclared
  scopes := h'.scopes.trans h.scopes
  symbols := h.symbols.trans h'.symbols
  fresh id sym found absent := by
    rcases h'.symbols.new_or_old found with isNew | ⟨sym', kind, atMiddle, rfl, -⟩
    · exact (h'.fresh id sym found isNew).imp_right h.awaits_of
    · exact h.fresh id sym' atMiddle absent
  count := h'.count.trans h.count
  signatures id sig found := by
    obtain ⟨sig', found', becomes⟩ := h.signatures id sig found
    obtain ⟨sig'', found'', becomes'⟩ := h'.signatures id sig' found'
    exact ⟨sig'', found'', becomes.trans becomes'⟩

theorem mono (more : ∀ scope, here scope → wider scope) : Grows wider s s' :=
  { h with fresh := fun id sym found absent => (h.fresh id sym found absent).imp_left (more _) }

theorem callResult? (known : s.callResult? callee = some ty) : s'.callResult? callee = some ty := by
  cases callee with
  | function id =>
    obtain ⟨sig, found, result⟩ := bind_eq_some_iff.mp known
    obtain ⟨sig', found', becomes⟩ := h.signatures id sig found
    exact bind_eq_some_iff.mpr ⟨sig', found', becomes.result ty result⟩
  | command index =>
    unfold CheckState.callResult? at known ⊢
    rw [h.commands]
    exact known

end

section

variable (declared : Declared fs s) (h : Grows here s s')
include declared h

theorem callParams? (known : s.callParams? callee = some ps) : s'.callParams? callee = some ps := by
  cases callee with
  | function id =>
    obtain ⟨sig, found, rfl⟩ := map_eq_some_iff.mp known
    obtain ⟨sig', found', becomes⟩ := h.signatures id sig found
    refine map_eq_some_iff.mpr ⟨sig', found', ?_⟩
    rw [becomes.params]
    exact h.symbols.paramList (declared.params_asVariable? found)
  | command index =>
    unfold CheckState.callParams? at known ⊢
    rw [h.commands]
    exact known

theorem view_le (more : ∀ id ∈ own, id ∈ own') (known : ∀ ty, returns? = some ty → returns?' = some ty) :
    s.view own labels returns? ≤ s'.view own' labels returns?' where
  types := h.types
  sees id v found := by
    unfold CheckState.view at found ⊢
    dsimp only at found ⊢
    split at found
    · next mem =>
      rw [if_pos, h.symbols.asVariable? found]
      rw [h.globals, List.mem_append]
      exact (List.mem_append.mp mem).imp_left (more id)
    · cases found
  params callee ps found := h.callParams? declared found
  result callee ty found := h.callResult? found
  labels id mem := mem
  returns := known
  target ty impossible := by cases impossible

theorem knows (known : s.Knows o) : s'.Knows o :=
  ⟨h.callParams? declared known.1, fun index isCommand => h.callResult? (known.2 index isCommand)⟩

end

theorem solidCommands (h : Grows here s s') (solid : s'.SolidCommands) : s.SolidCommands := by
  unfold CheckState.SolidCommands at solid
  rw [h.commands] at solid
  exact solid

end Grows

theorem Signature.Linked.grow {id : FunctionId} {sig sig' : Signature} (h : sig.Linked fs s id)
    (symbols : s.scopes.Extends s'.scopes) (becomes : sig.Becomes sig') : sig'.Linked fs s' id := by
  obtain ⟨decl, isDecl, linkName, called⟩ := h
  refine ⟨decl, isDecl, ?_, ?_⟩
  · rw [becomes.linkName, becomes.overload]
    exact linkName
  · rw [becomes.symbol]
    exact symbols.calledAtRoot called

theorem Signature.Stands.grow {id : FunctionId} {sig sig' : Signature} (h : sig.Stands fs s id)
    (grows : Grows here s s') (becomes : sig.Becomes sig') (fits : sig'.Fits s' id) :
    sig'.Stands fs s' id where
  names := by
    obtain ⟨decl, isDecl, names⟩ := h.names
    refine ⟨decl, isDecl, ?_⟩
    rw [becomes.params]
    refine names.imp fun i p named => ?_
    obtain ⟨sym, found, same⟩ := named
    obtain ⟨kind, found', -⟩ := grows.symbols i sym found
    exact ⟨_, found', same⟩
  scope := by
    rw [becomes.scope, grows.length_scopes]
    exact h.scope
  params i mem := by
    rw [becomes.params] at mem
    rw [becomes.scope]
    exact grows.symbols.declares SymbolKind.IsParam.becomes (h.params i mem)
  nodup := by
    rw [becomes.params]
    exact h.nodup
  fits := fits
  linked := h.linked.grow grows.symbols becomes

/-- A new symbol disturbs nothing: nor does it lie in a function that has not been looked
at. -/
structure CheckState.Welcomes (s : CheckState) (sym : Symbol SymbolKind) : Prop extends
    s.Admits sym where
  unawaited : ¬ s.Awaits sym.scope

theorem Declared.grow (h : Declared fs s) (grows : Grows here s s') (unique : s'.scopes.IsUnique)
    (fresh : ∀ id sym, s'.scopes.get? id = some sym → s.scopes.get? id = none → s.Welcomes sym)
    (overloads : ∀ id sym os, s'.scopes.get? id = some sym → sym.kind = .function os →
      ∀ o ∈ os, s.Knows o)
    (fits : ∀ (id : FunctionId) (sig : Signature), s'.signatures[id]? = some sig → sig.Fits s' id) :
    Declared fs s' where
  toScoped := by
    have count := grows.length_scopes
    refine h.toScoped.grow grows.symbols (Nat.le_of_eq count.symm) (h.flat.of_parents grows.scopes) unique
      grows.globals grows.predeclared fun id sym found absent => ?_
    have welcome := fresh id sym found absent
    exact ⟨count ▸ welcome.inside, welcome.rootless, welcome.solid⟩
  overloads id sym os found isFunction o mem := grows.knows h (overloads id sym os found isFunction o mem)
  signatures id sig' found' := by
    obtain ⟨sig, found, becomes⟩ := grows.signature_of found'
    exact (h.signatures id sig found).grow grows becomes (fits id sig' found')
  apart i j sig sig' foundI foundJ same := by
    obtain ⟨sigI, foundI, becomesI⟩ := grows.signature_of foundI
    obtain ⟨sigJ, foundJ, becomesJ⟩ := grows.signature_of foundJ
    rw [becomesI.scope, becomesJ.scope] at same
    exact h.apart i j sigI sigJ foundI foundJ same
  pending id sig' found' isPending i declared := by
    obtain ⟨sig, found, becomes⟩ := grows.signature_of found'
    have before := becomes.analysis
    rw [isPending] at before
    rw [becomes.scope] at declared
    rw [becomes.params]
    obtain ⟨sym', atI, inScope, -⟩ := declared
    rcases grows.symbols.new_or_old atI with isNew | ⟨sym, kind, atBefore, rfl, -⟩
    · exact absurd ⟨id, sig, found, before.pending, inScope.symm⟩ (fresh i sym' atI isNew).unawaited
    · exact h.pending id sig found before.pending i ⟨sym, atBefore, inScope, trivial⟩
  members id m mem := by
    rw [grows.types] at mem
    exact h.members id m mem
  nested := by
    rw [grows.types]
    exact h.nested

end Typed

end BasicCompiler
