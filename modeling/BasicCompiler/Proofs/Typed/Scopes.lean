/-
# Symbols and where they are found

A tree of scopes only grows: a symbol keeps its name and its scope, and what it stands for, except that a function may
get overloads and results.
-/
import BasicCompiler.Proofs.Typed.Checking
import BasicCompiler.Proofs.Typed.WellTyped

namespace BasicCompiler

open Option

/-! ## Kinds of symbols -/

namespace SymbolKind

def IsGlobal (k : SymbolKind) : Prop := ∃ type, k = .variable ⟨type, .global⟩

def IsLocal (k : SymbolKind) : Prop := ∃ type, k = .variable ⟨type, .localVar⟩

def IsParam (k : SymbolKind) : Prop := ∃ type index byRef, k = .variable ⟨type, .param index byRef⟩

def IsLabel (k : SymbolKind) : Prop := ∃ index, k = .label index

/-- Nothing but the overloads of a function changes. -/
def Becomes (k k' : SymbolKind) : Prop := k' = k ∨ ∃ os os', k = .function os ∧ k' = .function os'

variable {k : SymbolKind}

theorem Becomes.trans (h : k.Becomes k') (h' : k'.Becomes k'') : k.Becomes k'' := by
  rcases h with rfl | ⟨os, os', rfl, rfl⟩
  · exact h'
  · rcases h' with rfl | ⟨_, os'', _, rfl⟩ <;> exact .inr ⟨_, _, rfl, rfl⟩

theorem Becomes.variable_iff (h : k.Becomes k') (v : Variable) : k' = .variable v ↔ k = .variable v := by
  rcases h with rfl | ⟨os, os', rfl, rfl⟩ <;> simp

theorem Becomes.label_iff (h : k.Becomes k') (index : Nat) : k' = .label index ↔ k = .label index := by
  rcases h with rfl | ⟨os, os', rfl, rfl⟩ <;> simp

theorem asVariable?_eq_some : k.asVariable? = some v ↔ k = .variable v := by
  cases k <;> simp [asVariable?]

end SymbolKind

namespace ScopeTree

section Names

variable {t : ScopeTree κ} {scope : ScopeId} {id : SymbolId}

/-- A symbol of the scope stands for something with the property. -/
def Declares (t : ScopeTree κ) (scope : ScopeId) (P : κ → Prop) (id : SymbolId) : Prop :=
  ∃ sym, t.get? id = some sym ∧ sym.scope = scope ∧ P sym.kind

theorem Declares.unique (h : t.Declares scope P id) (h' : t.Declares scope' Q id) :
    scope = scope' ∧ ∃ k, P k ∧ Q k := by
  obtain ⟨sym, found, rfl, holds⟩ := h
  obtain ⟨sym', found', rfl, holds'⟩ := h'
  obtain rfl := some.inj (found.symm.trans found')
  exact ⟨rfl, sym.kind, holds, holds'⟩

/-- How the scopes lie in each other. -/
def parents (t : ScopeTree κ) : List (Option ScopeId) := t.scopes.map (·.parent)

theorem length_of_parents {t' : ScopeTree κ} (same : t'.parents = t.parents) : t'.scopes.length = t.scopes.length := by
  simpa [parents] using congrArg List.length same

theorem parent_of_parents {t' : ScopeTree κ} (same : t'.parents = t.parents) (i : ScopeId) :
    (t'.scope i).parent = (t.scope i).parent := by
  have each (t : ScopeTree κ) : (t.scope i).parent = (t.parents[i]?).join := by
    simp only [ScopeTree.scope, scopeAt, parents, List.getD_eq_getElem?_getD, List.getElem?_map]
    cases t.scopes[i]? <;> rfl
  rw [each, each, same]

/-- Every scope lies right in the root. -/
def IsFlat (t : ScopeTree κ) : Prop := ∀ scope parent, (t.scope scope).parent = some parent → parent = root

theorem IsFlat.of_parents {t' : ScopeTree κ} (h : t.IsFlat) (same : t'.parents = t.parents) : t'.IsFlat :=
  fun scope parent isParent => h scope parent (parent_of_parents same scope ▸ isParent)

/-- In no scope are there two symbols of one name. -/
def IsUnique (t : ScopeTree κ) : Prop :=
  ∀ i j a b, t.get? i = some a → t.get? j = some b → a.scope = b.scope → sameName a.name b.name = true → i = j

theorem lookup_entries (key : ScopeId × String) (symbols : List (Symbol κ)) (first : SymbolId) :
    ((symbols.zipIdx first).map fun (s, i) => ((s.scope, fold s.name), i)).lookup key =
      (symbols.findIdx? fun s => s.scope = key.1 && fold s.name == key.2).map (· + first) := by
  induction symbols generalizing first with
  | nil => rfl
  | cons s rest ih =>
    have same : (key == (s.scope, fold s.name)) = (s.scope = key.1 && fold s.name == key.2 : Bool) := by
      obtain ⟨scope, name⟩ := key
      rw [Bool.eq_iff_iff]
      simp only [beq_iff_eq, Prod.mk.injEq, Bool.and_eq_true, decide_eq_true_eq]
      exact and_congr eq_comm eq_comm
    simp only [List.zipIdx_cons, List.map_cons, List.lookup_cons, List.findIdx?_cons, same, ih]
    cases (s.scope = key.1 && fold s.name == key.2 : Bool) with
    | true => simp
    | false => simp [Nat.add_comm, Nat.add_left_comm, Function.comp_def]

/-- The dictionary finds the first symbol of the name in the scope. -/
theorem findHere_eq (t : ScopeTree κ) (scope : ScopeId) (name : String) :
    t.findHere scope name = t.symbols.findIdx? fun s => s.scope = scope && sameName s.name name := by
  rw [findHere, t.keyed, entries, lookup_entries]
  simp [sameName]

theorem add_ok (added : t.add scope name span kind = .ok (id, t')) :
    t.findHere scope name = none ∧ id = t.symbols.length ∧ t' = t.insert ⟨name, span, scope, kind⟩ := by
  unfold add at added
  split at added
  · cases added
  · next absent =>
    cases added
    exact ⟨absent, rfl, rfl⟩

theorem parents_insert (sym : Symbol κ) : (t.insert sym).parents = t.parents := by
  refine List.ext_getElem? fun i => ?_
  simp only [parents, insert, List.getElem?_map, List.getElem?_modify]
  cases t.scopes[i]? with
  | none => rfl
  | some s => by_cases same : sym.scope = i <;> simp [same, Scope.withSymbol]

theorem scopeAt_append (scopes : List Scope) (s : Scope) (i : ScopeId) :
    scopeAt (scopes ++ [s]) i = if i = scopes.length then s else scopeAt scopes i := by
  unfold scopeAt
  split
  · next same => simp [same]
  · next ne =>
    rw [List.getD_eq_getElem?_getD, List.getD_eq_getElem?_getD]
    rcases Nat.lt_or_gt_of_ne ne with below | above
    · rw [List.getElem?_append_left below]
    · rw [List.getElem?_eq_none (by simpa using Nat.succ_le_of_lt above), List.getElem?_eq_none (Nat.le_of_lt above)]

theorem scope_push (parent : ScopeId) (owner : Option SymbolId) (i : ScopeId) :
    (t.push parent owner).2.scope i = if i = t.scopes.length
      then .bare (if parent < t.scopes.length then some parent else none) owner
      else scopeAt (t.scopes.modify parent (·.withChild t.scopes.length)) i := by
  simp only [push, ScopeTree.scope, scopeAt_append, List.length_modify]

theorem parent_push (parent : ScopeId) (owner : Option SymbolId) (i : ScopeId) :
    ((t.push parent owner).2.scope i).parent =
      if i = t.scopes.length then if parent < t.scopes.length then some parent else none else (t.scope i).parent := by
  rw [scope_push]
  by_cases isNew : i = t.scopes.length
  · rw [if_pos isNew, if_pos isNew]
    rfl
  · rw [if_neg isNew, if_neg isNew]
    exact scopeAt_modify (·.parent) fun _ => rfl

theorem get?_insert (sym : Symbol κ) (i : SymbolId) :
    (t.insert sym).get? i = if i = t.symbols.length then some sym else t.get? i := by
  unfold get? insert
  split
  · next same => simp [same]
  · next ne =>
    rcases Nat.lt_or_gt_of_ne ne with below | above
    · exact List.getElem?_append_left below
    · rw [List.getElem?_eq_none (by simp; omega), List.getElem?_eq_none (by omega)]

theorem get?_modifyKind (symbol : SymbolId) (change : κ → κ) (i : SymbolId) :
    (t.modifyKind symbol change).get? i =
      (t.get? i).map fun sym => if symbol = i then { sym with kind := change sym.kind } else sym := by
  unfold modifyKind get?
  rw [List.getElem?_modify]
  rfl

theorem lt_of_get? (found : t.get? id = some sym) : id < t.symbols.length := (List.getElem?_eq_some_iff.mp found).1

theorem get?_of_add (added : t.add scope name span kind = .ok (id, t')) (found : t.get? i = some sym) :
    t'.get? i = some sym := by
  obtain ⟨-, -, rfl⟩ := add_ok added
  rw [get?_insert, if_neg (Nat.ne_of_lt (lt_of_get? found)), found]

theorem findHere_get? (found : t.findHere scope name = some id) :
    ∃ sym, t.get? id = some sym ∧ sym.scope = scope ∧ sameName sym.name name = true := by
  rw [findHere_eq] at found
  obtain ⟨below, holds, -⟩ := List.findIdx?_eq_some_iff_getElem.mp found
  refine ⟨t.symbols[id], List.getElem?_eq_getElem below, ?_⟩
  simpa using holds

theorem sameName_of_findHere_none (absent : t.findHere scope name = none) (found : t.get? id = some sym)
    (here : sym.scope = scope) : sameName sym.name name = false := by
  rw [findHere_eq] at absent
  have none := List.findIdx?_eq_none_iff.mp absent sym (List.mem_of_getElem? found)
  simpa [here] using none

theorem IsUnique.add (unique : t.IsUnique) (added : t.add scope name span kind = .ok (id, t')) : t'.IsUnique := by
  obtain ⟨absent, -, rfl⟩ := add_ok added
  have other {i : SymbolId} {a : Symbol κ} (found : t.get? i = some a) (here : a.scope = scope)
      (same : sameName a.name name = true) : False := by
    rw [sameName_of_findHere_none absent found here] at same
    cases same
  intro i j a b atI atJ scopes names
  rw [get?_insert] at atI atJ
  split at atI <;> split at atJ
  · next hi hj => rw [hi, hj]
  · cases atI
    refine (other atJ scopes.symm ?_).elim
    exact decide_eq_true (of_decide_eq_true names).symm
  · cases atJ
    exact (other atI scopes names).elim
  · exact unique i j a b atI atJ scopes names

theorem IsUnique.modifyKind (unique : t.IsUnique) (symbol : SymbolId) (change : κ → κ) :
    (t.modifyKind symbol change).IsUnique := by
  intro i j a b atI atJ scopes names
  rw [get?_modifyKind] at atI atJ
  obtain ⟨a', foundI, rfl⟩ := map_eq_some_iff.mp atI
  obtain ⟨b', foundJ, rfl⟩ := map_eq_some_iff.mp atJ
  refine unique i j a' b' foundI foundJ ?_ ?_
  · split at scopes <;> split at scopes <;> exact scopes
  · split at names <;> split at names <;> exact names

/-- A name that is found is declared in the scope it is asked for in, or in the root. -/
theorem find_get? (flat : t.IsFlat) (found : t.find scope name .ancestors = some id) :
    ∃ sym, t.get? id = some sym ∧ (sym.scope = scope ∨ sym.scope = root) := by
  have step {i : ScopeId} (found : t.nearest (t.findHere · name) i = some id) :
      (∃ sym, t.get? id = some sym ∧ sym.scope = i) ∨
        ∃ parent, (t.scope i).parent = some parent ∧ t.nearest (t.findHere · name) parent = some id := by
    rw [nearest] at found
    split at found
    · next here =>
      cases found
      obtain ⟨sym, atId, inScope, -⟩ := findHere_get? here
      exact .inl ⟨sym, atId, inScope⟩
    · split at found
      · next parent isParent => exact .inr ⟨parent, isParent, found⟩
      · cases found
  obtain ⟨sym, atId, here⟩ | ⟨parent, isParent, found⟩ := step found
  · exact ⟨sym, atId, .inl here⟩
  · obtain rfl := flat _ _ isParent
    obtain ⟨sym, atId, here⟩ | ⟨parent, isParent, -⟩ := step found
    · exact ⟨sym, atId, .inr here⟩
    · exact absurd (flat _ _ isParent ▸ t.older _ _ isParent) (Nat.lt_irrefl _)

end Names

section Growth

variable {t : ScopeTree SymbolKind} {scope : ScopeId} {id : SymbolId}

/-- The second tree has the symbols of the first one. -/
def Extends (t t' : ScopeTree SymbolKind) : Prop :=
  ∀ id sym, t.get? id = some sym → ∃ kind, t'.get? id = some { sym with kind } ∧ sym.kind.Becomes kind

/-- The symbol is one of the root, and is called by the name. -/
def CalledAtRoot (t : ScopeTree SymbolKind) (id : SymbolId) (name : String) : Prop :=
  ∃ sym, t.get? id = some sym ∧ sym.scope = root ∧ sameName sym.name name = true

namespace Extends

theorem refl (t : ScopeTree SymbolKind) : t.Extends t := fun _ sym found => ⟨sym.kind, found, .inl rfl⟩

theorem trans (h : t.Extends t') (h' : t'.Extends t'') : t.Extends t'' := by
  intro id sym found
  obtain ⟨kind, found', becomes⟩ := h id sym found
  obtain ⟨kind', found'', becomes'⟩ := h' id _ found'
  exact ⟨kind', found'', becomes.trans becomes'⟩

theorem insert (t : ScopeTree SymbolKind) (sym : Symbol SymbolKind) : t.Extends (t.insert sym) := by
  intro id sym' found
  refine ⟨sym'.kind, ?_, .inl rfl⟩
  rw [get?_insert, if_neg (Nat.ne_of_lt (lt_of_get? found)), found]

theorem modifyKind (t : ScopeTree SymbolKind) (symbol : SymbolId)
    (becomes : ∀ sym, t.get? symbol = some sym → sym.kind.Becomes (change sym.kind)) :
    t.Extends (t.modifyKind symbol change) := by
  intro id sym found
  rw [get?_modifyKind, found, map_some]
  by_cases same : symbol = id
  · subst same
    rw [if_pos rfl]
    exact ⟨_, rfl, becomes sym found⟩
  · rw [if_neg same]
    exact ⟨sym.kind, rfl, .inl rfl⟩

/-- A symbol of the second tree is new, or the first one has it. -/
theorem new_or_old (h : t.Extends t') (found : t'.get? id = some sym') :
    t.get? id = none ∨ ∃ sym kind, t.get? id = some sym ∧ sym' = { sym with kind } ∧ sym.kind.Becomes kind := by
  cases before : t.get? id with
  | none => exact .inl rfl
  | some sym =>
    obtain ⟨kind, found', becomes⟩ := h id sym before
    exact .inr ⟨sym, kind, rfl, some.inj (found.symm.trans found'), becomes⟩

theorem asVariable? (h : t.Extends t') (found : t.asVariable? id = some v) : t'.asVariable? id = some v := by
  obtain ⟨sym, atId, isVariable⟩ := bind_eq_some_iff.mp found
  obtain ⟨kind, atId', becomes⟩ := h id sym atId
  refine bind_eq_some_iff.mpr ⟨_, atId', ?_⟩
  rw [SymbolKind.asVariable?_eq_some] at isVariable ⊢
  exact (becomes.variable_iff v).mpr isVariable

theorem declares (h : t.Extends t') (stable : ∀ k k', k.Becomes k' → P k → P k') (declared : t.Declares scope P id) :
    t'.Declares scope P id := by
  obtain ⟨sym, atId, inScope, holds⟩ := declared
  obtain ⟨kind, atId', becomes⟩ := h id sym atId
  exact ⟨_, atId', inScope, stable _ _ becomes holds⟩

theorem calledAtRoot (h : t.Extends t') (called : t.CalledAtRoot id name) : t'.CalledAtRoot id name := by
  obtain ⟨sym, found, atRoot, same⟩ := called
  obtain ⟨kind, found', -⟩ := h id sym found
  exact ⟨_, found', atRoot, same⟩

theorem paramList (h : t.Extends t') (each : ∀ id ∈ ids, ∃ v, t.asVariable? id = some v) :
    t'.paramList ids = t.paramList ids := by
  induction ids with
  | nil => rfl
  | cons id rest ih =>
    obtain ⟨v, found⟩ := each id (by simp)
    have others := ih fun id mem => each id (by simp [mem])
    unfold ScopeTree.paramList at others ⊢
    simp [found, h.asVariable? found, others]

end Extends

theorem Declares.asVariable? (declared : t.Declares scope P id) (isVariable : ∀ k, P k → ∃ v, k = .variable v) :
    ∃ v, t.asVariable? id = some v ∧ P (.variable v) := by
  obtain ⟨sym, atId, -, holds⟩ := declared
  obtain ⟨v, same⟩ := isVariable _ holds
  refine ⟨v, bind_eq_some_iff.mpr ⟨sym, atId, ?_⟩, same ▸ holds⟩
  rw [SymbolKind.asVariable?_eq_some, same]

end Growth

end ScopeTree

namespace SymbolKind

variable (k k' : SymbolKind) (turns : k.Becomes k')
include turns

theorem IsGlobal.becomes (h : k.IsGlobal) : k'.IsGlobal := by
  obtain ⟨type, same⟩ := h
  exact ⟨type, (turns.variable_iff _).mpr same⟩

theorem IsLocal.becomes (h : k.IsLocal) : k'.IsLocal := by
  obtain ⟨type, same⟩ := h
  exact ⟨type, (turns.variable_iff _).mpr same⟩

theorem IsParam.becomes (h : k.IsParam) : k'.IsParam := by
  obtain ⟨type, index, byRef, same⟩ := h
  exact ⟨type, index, byRef, (turns.variable_iff _).mpr same⟩

theorem IsLabel.becomes (h : k.IsLabel) : k'.IsLabel := by
  obtain ⟨index, same⟩ := h
  exact ⟨index, (turns.label_iff _).mpr same⟩

end SymbolKind

end BasicCompiler
