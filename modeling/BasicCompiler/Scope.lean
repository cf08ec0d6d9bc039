/-
# Nested scopes of names

A `ScopeTree` holds scopes in the order of their creation, the root first, and symbols in the order of theirs. Every
other scope has an older scope as its parent. Each scope lists the scopes and the symbols right inside it, and one
dictionary for all scopes gives the symbol of a name.

The tree carries what its look-ups rest on: that the dictionary has exactly the symbols under their scopes and folded
names, and that parents are older than their children, so that the way from a scope towards the root ends.
-/
import BasicCompiler.Text.CaseFold
import BasicCompiler.Text.Span

namespace BasicCompiler

abbrev ScopeId := Nat

abbrev SymbolId := Nat

/-- How far a look-up reaches: the scope itself, or its ancestors too. -/
inductive Reach where
  | here
  | ancestors
deriving DecidableEq

/-- A declared name with what it stands for. -/
structure Symbol (κ : Type) where
  name : String
  span : Span
  scope : ScopeId
  kind : κ

/-- One scope: the scope it lies in, the symbol that owns it, and what is right inside it, in the
order of creation. -/
structure Scope where
  parent : Option ScopeId
  owner : Option SymbolId
  children : List ScopeId
  symbols : List SymbolId

namespace Scope

def bare (parent : Option ScopeId) (owner : Option SymbolId) : Scope := ⟨parent, owner, [], []⟩

def withChild (s : Scope) (id : ScopeId) : Scope := { s with children := s.children ++ [id] }

def withSymbol (s : Scope) (id : SymbolId) : Scope := { s with symbols := s.symbols ++ [id] }

end Scope

def scopeAt (scopes : List Scope) (id : ScopeId) : Scope := scopes.getD id (.bare none none)

/-- A part of the scopes that a change of one of them leaves alone. -/
theorem scopeAt_modify {α : Type} {scopes : List Scope} {index id : ScopeId} {change : Scope → Scope}
    (part : Scope → α) (same : ∀ s, part (change s) = part s) :
    part (scopeAt (scopes.modify index change) id) = part (scopeAt scopes id) := by
  unfold scopeAt
  rw [List.getD_eq_getElem?_getD, List.getElem?_modify, List.getD_eq_getElem?_getD]
  cases scopes[id]? with
  | none => rfl
  | some s =>
    simp only [Option.map_eq_map, Option.map_some, Option.getD_some]
    split
    · exact same s
    · rfl

/-- Parents are older than their children. -/
def IsOlder (scopes : List Scope) : Prop := ∀ id parent, (scopeAt scopes id).parent = some parent → parent < id

theorem IsOlder.modify {scopes : List Scope} {index : ScopeId} {change : Scope → Scope} (h : IsOlder scopes)
    (same : ∀ s, (change s).parent = s.parent) : IsOlder (scopes.modify index change) := by
  intro id parent isParent
  rw [scopeAt_modify (·.parent) same] at isParent
  exact h id parent isParent

theorem IsOlder.append {scopes : List Scope} {s : Scope} (h : IsOlder scopes)
    (new : ∀ parent, s.parent = some parent → parent < scopes.length) : IsOlder (scopes ++ [s]) := by
  intro id parent isParent
  unfold scopeAt at isParent
  rw [List.getD_eq_getElem?_getD, List.getElem?_append] at isParent
  split at isParent
  · exact h id parent (by rwa [scopeAt, List.getD_eq_getElem?_getD])
  · next above =>
    rw [List.getElem?_singleton] at isParent
    split at isParent
    · exact Nat.lt_of_lt_of_le (new parent isParent) (Nat.not_lt.mp above)
    · cases isParent

/-- The entries of a dictionary for all scopes: scopes and folded names with the symbols. -/
def entries {κ : Type} (symbols : List (Symbol κ)) : List ((ScopeId × String) × SymbolId) :=
  symbols.zipIdx.map fun (s, i) => ((s.scope, fold s.name), i)

structure ScopeTree (κ : Type) where
  scopes : List Scope
  symbols : List (Symbol κ)
  dict : List ((ScopeId × String) × SymbolId)
  keyed : dict = entries symbols
  older : IsOlder scopes

namespace ScopeTree

variable {κ : Type}

def empty : ScopeTree κ where
  scopes := [.bare none none]
  symbols := []
  dict := []
  keyed := rfl
  older id parent isParent := by cases id <;> cases isParent

def root : ScopeId := 0

def scope (t : ScopeTree κ) (id : ScopeId) : Scope := scopeAt t.scopes id

def get? (t : ScopeTree κ) (id : SymbolId) : Option (Symbol κ) := t.symbols[id]?

/-- The scopes right inside a scope, in the order of their creation. -/
def children (t : ScopeTree κ) (id : ScopeId) : List ScopeId := (t.scope id).children

/-- The symbols of a scope, in the order of their declaration. -/
def symbolsIn (t : ScopeTree κ) (id : ScopeId) : List SymbolId := (t.scope id).symbols

/-- Opens a scope inside another one, if that is there. -/
def push (t : ScopeTree κ) (parent : ScopeId) (owner : Option SymbolId) :
    ScopeId × ScopeTree κ :=
  let id := t.scopes.length
  let outer := if parent < id then some parent else none
  (id,
    { t with
      scopes := t.scopes.modify parent (·.withChild id) ++ [.bare outer owner]
      older := .append (.modify t.older fun _ => rfl) fun _ isOuter => by
        obtain ⟨below, same⟩ := Option.ite_none_right_eq_some.mp isOuter
        rwa [List.length_modify, ← Option.some.inj same] })

def setOwner (t : ScopeTree κ) (id : ScopeId) (owner : SymbolId) : ScopeTree κ :=
  { t with
    scopes := t.scopes.modify id fun s => { s with owner := some owner }
    older := t.older.modify fun _ => rfl }

/-- The symbol that `name` is declared as in this very scope. -/
def findHere (t : ScopeTree κ) (id : ScopeId) (name : String) : Option SymbolId :=
  t.dict.lookup (id, fold name)

/-- Walks from a scope towards the root and gives the first answer found. -/
def nearest {β : Type} (t : ScopeTree κ) (ask : ScopeId → Option β) (id : ScopeId) : Option β :=
  match ask id with
  | some answer => some answer
  | none =>
      match _isParent : (t.scope id).parent with
      | some parent => nearest t ask parent
      | none => none
termination_by id
decreasing_by exact t.older id parent _isParent

def find (t : ScopeTree κ) (id : ScopeId) (name : String) : Reach → Option SymbolId
  | .here => t.findHere id name
  | .ancestors => t.nearest (fun s => t.findHere s name) id

/-- The owner of the nearest enclosing scope that has one. -/
def owner (t : ScopeTree κ) (id : ScopeId) : Option SymbolId :=
  t.nearest (fun s => (t.scope s).owner) id

/-- Enters a symbol: behind the others, in the dictionary and in the list of its scope. -/
def insert (t : ScopeTree κ) (s : Symbol κ) : ScopeTree κ where
  scopes := t.scopes.modify s.scope (·.withSymbol t.symbols.length)
  symbols := t.symbols ++ [s]
  dict := t.dict ++ [((s.scope, fold s.name), t.symbols.length)]
  keyed := by simp [t.keyed, entries, List.zipIdx_append]
  older := t.older.modify fun _ => rfl

/-- Declares a name in a scope. A name already declared there is refused with the
symbol it stands for. -/
def add (t : ScopeTree κ) (id : ScopeId) (name : String) (span : Span) (kind : κ) :
    Except SymbolId (SymbolId × ScopeTree κ) :=
  match t.findHere id name with
  | some existing => .error existing
  | none => .ok (t.symbols.length, t.insert ⟨name, span, id, kind⟩)

def modifyKind (t : ScopeTree κ) (id : SymbolId) (change : κ → κ) : ScopeTree κ :=
  { t with
    symbols := t.symbols.modify id fun s => { s with kind := change s.kind }
    keyed := by
      rw [t.keyed]
      refine List.ext_getElem? fun i => ?_
      simp only [entries, List.getElem?_map, List.getElem?_zipIdx, List.getElem?_modify]
      cases t.symbols[i]? with
      | none => rfl
      | some s => by_cases same : id = i <;> simp [same] }

end ScopeTree

end BasicCompiler
