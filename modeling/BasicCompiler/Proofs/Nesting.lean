/-
# Scopes are nested dictionaries

A tree of scopes is made by edits: scopes are opened, names are added and owners are set.
-/
import BasicCompiler.Proofs.Typed.Scopes

namespace BasicCompiler.ScopeTree

open List

variable {κ : Type}

/-! ## Edits and events -/

/-- A change of a tree. -/
inductive Edit (κ : Type) where
  | push (parent : ScopeId) (owner : Option SymbolId)
  | add (scope : ScopeId) (name : String) (span : Span) (kind : κ)
  | setOwner (scope : ScopeId) (owner : SymbolId)

/-- What an edit did, with the number that it answered. -/
inductive Event where
  | opened (id parent : ScopeId) (owner : Option SymbolId)
  | added (id : SymbolId) (scope : ScopeId) (name : String)
  | refused (existing : SymbolId)
  | owned (scope : ScopeId) (owner : SymbolId)

def edit (t : ScopeTree κ) : Edit κ → Event × ScopeTree κ
  | .push parent owner => (.opened (t.push parent owner).1 parent owner, (t.push parent owner).2)
  | .add scope name span kind =>
      match t.add scope name span kind with
      | .ok (id, t') => (.added id scope name, t')
      | .error existing => (.refused existing, t)
  | .setOwner scope owner => (.owned scope owner, t.setOwner scope owner)

/-- Edits one after the other, with what each of them did. -/
def edits (t : ScopeTree κ) : List (Edit κ) → List Event × ScopeTree κ
  | [] => ([], t)
  | e :: rest => ((t.edit e).1 :: ((t.edit e).2.edits rest).1, ((t.edit e).2.edits rest).2)

def Edit.scope : Edit κ → ScopeId
  | .push parent _ => parent
  | .add scope _ _ _ | .setOwner scope _ => scope

/-- Every edit names a scope that is there when its turn comes. -/
def Legal (t : ScopeTree κ) : List (Edit κ) → Prop
  | [] => True
  | e :: rest => e.scope < t.scopes.length ∧ (t.edit e).2.Legal rest

instance Legal.decidable : (t : ScopeTree κ) → (es : List (Edit κ)) → Decidable (t.Legal es)
  | _, [] => .isTrue trivial
  | t, e :: rest =>
      have := Legal.decidable (t.edit e).2 rest
      inferInstanceAs (Decidable (e.scope < t.scopes.length ∧ (t.edit e).2.Legal rest))

/-- The scope that an edit changes. To open a scope changes none that is there. -/
def Edit.changed? : Edit κ → Option ScopeId
  | .push _ _ => none
  | .add scope _ _ _ | .setOwner scope _ => some scope

def subject (t : ScopeTree κ) (e : Edit κ) : ScopeId := e.changed?.getD t.scopes.length

/-! ## What events say -/

namespace Event

def addedTo? (scope : ScopeId) : Event → Option SymbolId
  | .added id scope' _ => if scope' = scope then some id else none
  | _ => none

def openedIn? (scope : ScopeId) : Event → Option ScopeId
  | .opened id parent _ => if parent = scope then some id else none
  | _ => none

def parentOf? (scope : ScopeId) : Event → Option ScopeId
  | .opened id parent _ => if id = scope then some parent else none
  | _ => none

def ownerOf (scope : ScopeId) (before : Option SymbolId) : Event → Option SymbolId
  | .opened id _ owner => if id = scope then owner else before
  | .owned scope' owner => if scope' = scope then some owner else before
  | _ => before

end Event

def addedTo (events : List Event) (scope : ScopeId) : List SymbolId := events.filterMap (Event.addedTo? scope)

def openedIn (events : List Event) (scope : ScopeId) : List ScopeId := events.filterMap (Event.openedIn? scope)

def parentIn (events : List Event) (scope : ScopeId) : Option ScopeId := events.findSome? (Event.parentOf? scope)

def ownerIn (events : List Event) (scope : ScopeId) : Option SymbolId := events.foldl (Event.ownerOf scope) none

/-- A symbol was added to the scope under this name, whatever the case of its letters. -/
def AddedAs (events : List Event) (scope : ScopeId) (name : String) (id : SymbolId) : Prop :=
  ∃ name', .added id scope name' ∈ events ∧ sameName name' name = true

/-- The scopes from `scope` outwards, up to one without a parent. -/
inductive Chain (parent : ScopeId → Option ScopeId) : ScopeId → List ScopeId → Prop where
  | last {scope : ScopeId} : parent scope = none → Chain parent scope [scope]
  | step {scope outer : ScopeId} {rest : List ScopeId} :
      parent scope = some outer → Chain parent outer rest → Chain parent scope (scope :: rest)

/-- The tree answers what the events say. -/
structure Nests (events : List Event) (t : ScopeTree κ) : Prop where
  /-- A name is refused exactly if it was added to the same scope before, with the symbol it
  stands for, and the tree stays as it is. -/
  refuses : ∀ scope name span kind id,
    (t.add scope name span kind = .error id ↔ AddedAs events scope name id) ∧
      (t.add scope name span kind = .error id → (t.edit (.add scope name span kind)).2 = t)
  /-- Any other name gets a symbol that no name has got, and it is one of the scope ever
  after. -/
  accepts : ∀ scope name span kind id t', scope < t.scopes.length → t.add scope name span kind = .ok (id, t') →
    (∀ scope' name', .added id scope' name' ∉ events) ∧ ∀ later : List (Edit κ),
      id ∈ (t'.edits later).2.symbolsIn scope ∧
        ∃ sym, (t'.edits later).2.get? id = some sym ∧ sym.scope = scope ∧ sym.name = name
  lists : ∀ scope, t.symbolsIn scope = addedTo events scope ∧ t.children scope = openedIn events scope
  findsHere : ∀ scope name id, t.find scope name .here = some id ↔ AddedAs events scope name id
  /-- The scopes around a scope are finitely many, the root is the last of them, and a
  look-up gives the answer of the first that has one. -/
  findsAround : ∀ scope, scope < t.scopes.length → ∃ chain, Chain (parentIn events) scope chain ∧
    chain.Nodup ∧ chain.getLast? = some root ∧
      (∀ name, t.find scope name .ancestors = chain.findSome? fun s => t.find s name .here) ∧
      t.owner scope = chain.findSome? (ownerIn events)
  /-- An edit changes no look-up from a scope that lies outside of the one it changes. -/
  frame : ∀ e, e.scope < t.scopes.length → ∀ scope, scope < t.scopes.length →
    ∀ chain, Chain (parentIn events) scope chain → (∀ s ∈ e.changed?, s ∉ chain) →
      (∀ name reach, (t.edit e).2.find scope name reach = t.find scope name reach) ∧
        (t.edit e).2.owner scope = t.owner scope

/-! ## Single edits -/

section Edits

variable {t : ScopeTree κ} {scope : ScopeId}

theorem scopeAt_modify_eq {scopes : List Scope} {index : ScopeId} (inside : index < scopes.length)
    (change : Scope → Scope) (id : ScopeId) :
    scopeAt (scopes.modify index change) id = if index = id then change (scopeAt scopes id) else scopeAt scopes id := by
  simp only [scopeAt, getD_eq_getElem?_getD, getElem?_modify]
  by_cases same : index = id
  · subst same
    simp [getElem?_eq_getElem inside]
  · simp [same]

section

variable (t : ScopeTree κ)

theorem edit_add (scope : ScopeId) (name : String) (span : Span) (kind : κ) :
    (∃ id, t.findHere scope name = some id ∧ t.edit (.add scope name span kind) = (.refused id, t)) ∨
      t.findHere scope name = none ∧ t.edit (.add scope name span kind) =
        (.added t.symbols.length scope name, t.insert ⟨name, span, scope, kind⟩) := by
  cases found : t.findHere scope name with
  | some id => exact .inl ⟨id, rfl, by simp [edit, add, found]⟩
  | none => exact .inr ⟨rfl, by simp [edit, add, found]⟩

theorem length_scopes_edit (e : Edit κ) : t.scopes.length ≤ (t.edit e).2.scopes.length := by
  cases e with
  | push parent owner => simp [edit, push]
  | add scope name span kind =>
    refine Nat.le_of_eq ?_
    obtain ⟨id, -, did⟩ | ⟨-, did⟩ := edit_add t scope name span kind
    · rw [did]
    · rw [did]
      exact (length_of_parents (parents_insert _)).symm
  | setOwner scope owner => simp [edit, setOwner]

theorem parent_edit (e : Edit κ) (inside : scope < t.scopes.length) :
    ((t.edit e).2.scope scope).parent = (t.scope scope).parent := by
  cases e with
  | push parent owner =>
    simp only [edit, parent_push]
    exact if_neg (Nat.ne_of_lt inside)
  | add scope' name span kind =>
    obtain ⟨id, -, did⟩ | ⟨-, did⟩ := edit_add t scope' name span kind <;> rw [did]
    exact parent_of_parents (parents_insert _) scope
  | setOwner scope' owner => exact scopeAt_modify (·.parent) fun _ => rfl

theorem owner_edit (e : Edit κ) (named : e.scope < t.scopes.length) (other : scope ≠ t.subject e) :
    ((t.edit e).2.scope scope).owner = (t.scope scope).owner := by
  cases e with
  | push parent owner =>
    simp only [edit, scope_push]
    rw [if_neg (show scope ≠ t.scopes.length from other)]
    exact scopeAt_modify (·.owner) fun _ => rfl
  | add scope' name span kind =>
    obtain ⟨id, -, did⟩ | ⟨-, did⟩ := edit_add t scope' name span kind <;> rw [did]
    exact scopeAt_modify (·.owner) fun _ => rfl
  | setOwner scope' owner =>
    have named : scope' < t.scopes.length := named
    change (scopeAt (t.scopes.modify scope' _) scope).owner = _
    rw [scopeAt_modify_eq named, if_neg (show scope' ≠ scope from Ne.symm other)]
    rfl

theorem findHere_edit (e : Edit κ) (other : scope ≠ t.subject e) (name : String) :
    (t.edit e).2.findHere scope name = t.findHere scope name := by
  cases e with
  | push _ _ | setOwner _ _ => rfl
  | add scope' name' span kind =>
    obtain ⟨id, -, did⟩ | ⟨-, did⟩ := edit_add t scope' name' span kind
    · rw [did]
    · rw [did]
      have elsewhere : ((scope, fold name) == (scope', fold name')) = false :=
        beq_false_of_ne fun same => other (Prod.mk.inj same).1
      simp only [findHere, insert, lookup_append, lookup_cons, elsewhere, lookup_nil, Option.or_none]

end

theorem get?_edit {id : SymbolId} (e : Edit κ) (found : t.get? id = some sym) : (t.edit e).2.get? id = some sym := by
  cases e with
  | push _ _ | setOwner _ _ => exact found
  | add scope' name span kind =>
    obtain ⟨existing, -, did⟩ | ⟨-, did⟩ := edit_add t scope' name span kind
    · rw [did]
      exact found
    · rw [did]
      simp only [get?_insert]
      rw [if_neg (Nat.ne_of_lt (lt_of_get? found)), found]

/-- A scope never loses a symbol. -/
theorem symbolsIn_edit (t : ScopeTree κ) (e : Edit κ) (inside : scope < t.scopes.length) :
    t.symbolsIn scope <+: (t.edit e).2.symbolsIn scope := by
  unfold symbolsIn
  have keeps {as bs : List SymbolId} (same : bs = as) : as <+: bs := same ▸ prefix_refl _
  cases e with
  | push parent owner =>
    refine keeps ?_
    simp only [edit, scope_push]
    rw [if_neg (Nat.ne_of_lt inside)]
    exact scopeAt_modify (·.symbols) fun _ => rfl
  | setOwner scope' owner => exact keeps (scopeAt_modify (·.symbols) fun _ => rfl)
  | add scope' name span kind =>
    obtain ⟨existing, -, did⟩ | ⟨-, did⟩ := edit_add t scope' name span kind
    · exact keeps (by rw [did])
    · rw [did]
      change _ <+: (scopeAt (t.scopes.modify scope' _) scope).symbols
      by_cases named : scope' < t.scopes.length
      · rw [scopeAt_modify_eq named]
        split
        · exact prefix_append _ _
        · exact prefix_refl _
      · rw [modify_eq_self (Nat.not_lt.mp named)]
        exact prefix_refl _

/-- What was entered stays, whatever is done later. -/
theorem edits_keep {id : SymbolId} (inside : scope < t.scopes.length) (found : t.get? id = some sym)
    (listed : id ∈ t.symbolsIn scope) (es : List (Edit κ)) :
    (t.edits es).2.get? id = some sym ∧ id ∈ (t.edits es).2.symbolsIn scope := by
  induction es generalizing t with
  | nil => exact ⟨found, listed⟩
  | cons e rest ih =>
    exact ih (Nat.lt_of_lt_of_le inside (length_scopes_edit t e)) (get?_edit e found)
      ((symbolsIn_edit t e inside).subset listed)

end Edits

/-! ## The chain of a scope -/

section Chains

variable {t : ScopeTree κ} {scope : ScopeId} {chain : List ScopeId}

/-- Only the root lies in no other scope. -/
def IsGrown (t : ScopeTree κ) : Prop := ∀ scope < t.scopes.length, (t.scope scope).parent = none → scope = root

theorem Chain.congr (h : Chain parent scope chain) (same : ∀ s ∈ chain, parent' s = parent s) :
    Chain parent' scope chain := by
  induction h with
  | last isLast => exact .last ((same _ (by simp)).trans isLast)
  | step isOuter _ ih =>
    refine .step ((same _ (by simp)).trans isOuter) (ih ?_)
    intro s mem
    exact same s (by simp [mem])

section

variable (h : Chain (fun s => (t.scope s).parent) scope chain)
include h

theorem Chain.le : ∀ s ∈ chain, s ≤ scope := by
  induction h with
  | last _ => simp
  | @step scope outer rest isOuter _ ih =>
    have older := t.older scope outer isOuter
    exact forall_mem_cons.mpr ⟨Nat.le_refl _, fun s mem => Nat.le_trans (ih s mem) (Nat.le_of_lt older)⟩

theorem Chain.nodup : chain.Nodup := by
  induction h with
  | last _ => simp
  | @step scope outer rest isOuter inner ih =>
    refine nodup_cons.mpr ⟨fun mem => ?_, ih⟩
    exact Nat.not_le_of_gt (t.older scope outer isOuter) (inner.le scope mem)

theorem nearest_eq (ask : ScopeId → Option β) : t.nearest ask scope = chain.findSome? ask := by
  induction h with
  | @last scope isLast =>
    rw [nearest, findSome?_cons]
    cases ask scope with
    | some b => rfl
    | none =>
      dsimp only
      split
      · next outer isOuter => cases isLast.symm.trans isOuter
      · rfl
  | @step scope outer rest isOuter _ ih =>
    rw [nearest, findSome?_cons]
    cases ask scope with
    | some b => rfl
    | none =>
      dsimp only
      split
      · next outer' isOuter' =>
        cases isOuter.symm.trans isOuter'
        exact ih
      · next isLast => cases isOuter.symm.trans isLast

end

theorem IsGrown.exists_chain (grown : t.IsGrown) (scope : ScopeId) (inside : scope < t.scopes.length) :
    ∃ chain, Chain (fun s => (t.scope s).parent) scope chain ∧ chain.getLast? = some root := by
  induction scope using Nat.strongRecOn with
  | _ scope ih =>
    cases isOuter : (t.scope scope).parent with
    | none =>
      obtain rfl := grown scope inside isOuter
      exact ⟨[root], .last isOuter, rfl⟩
    | some outer =>
      have older := t.older scope outer isOuter
      obtain ⟨rest, chain, ends⟩ := ih outer older (Nat.lt_trans older inside)
      refine ⟨scope :: rest, .step isOuter chain, ?_⟩
      rw [getLast?_cons, ends]
      rfl

theorem findSome?_congr {α β : Type} {f g : α → Option β} {as : List α} (same : ∀ a ∈ as, f a = g a) :
    as.findSome? f = as.findSome? g := by
  induction as with
  | nil => rfl
  | cons a rest ih =>
    rw [findSome?_cons, findSome?_cons, same a (by simp), ih fun b mem => same b (by simp [mem])]

theorem IsGrown.edit (grown : t.IsGrown) (e : Edit κ) (named : e.scope < t.scopes.length) : (t.edit e).2.IsGrown := by
  intro scope below isLast
  by_cases inside : scope < t.scopes.length
  · rw [parent_edit t e inside] at isLast
    exact grown scope inside isLast
  · -- only the scope that is opened can be new
    cases e with
    | add scope' name span kind =>
      obtain ⟨id, -, did⟩ | ⟨-, did⟩ := edit_add t scope' name span kind <;> rw [did] at below
      · exact absurd below inside
      · exact absurd (length_of_parents (parents_insert _) ▸ below) inside
    | setOwner scope' owner => exact absurd (by simpa [ScopeTree.edit, setOwner] using below) inside
    | push parent owner =>
      have isNew : scope = t.scopes.length := by
        have below : scope < t.scopes.length + 1 := by simpa [ScopeTree.edit, push] using below
        exact Nat.le_antisymm (Nat.le_of_lt_succ below) (Nat.not_lt.mp inside)
      simp only [ScopeTree.edit, parent_push] at isLast
      rw [if_pos isNew, if_pos (show parent < t.scopes.length from named)] at isLast
      cases isLast

end Chains

/-! ## Runs -/

/-- What ties a tree to the events that led to it. -/
structure Records (events : List Event) (t : ScopeTree κ) : Prop where
  grown : t.IsGrown
  unique : t.IsUnique
  parents : ∀ scope, (t.scope scope).parent = parentIn events scope
  owners : ∀ scope, (t.scope scope).owner = ownerIn events scope
  symbols : ∀ id scope name, .added id scope name ∈ events ↔
    ∃ sym, t.get? id = some sym ∧ sym.scope = scope ∧ sym.name = name
  lists : ∀ scope, t.symbolsIn scope = addedTo events scope ∧ t.children scope = openedIn events scope

section Runs

variable {t : ScopeTree κ}

theorem Records.empty : Records [] (empty : ScopeTree κ) where
  grown scope below _ := Nat.lt_one_iff.mp below
  unique i j a b atI := by cases atI
  parents scope := by cases scope <;> rfl
  owners scope := by cases scope <;> rfl
  symbols id scope name := by simp [ScopeTree.empty, get?]
  lists scope := by cases scope <;> exact ⟨rfl, rfl⟩

section

variable (events : List Event) (event : Event) (scope : ScopeId)
include event

theorem parentIn_snoc : parentIn (events ++ [event]) scope = (parentIn events scope).or (event.parentOf? scope) := by
  simp [parentIn, findSome?_append]

theorem ownerIn_snoc : ownerIn (events ++ [event]) scope = event.ownerOf scope (ownerIn events scope) := by
  simp [ownerIn]

theorem lists_snoc : addedTo (events ++ [event]) scope = addedTo events scope ++ (event.addedTo? scope).toList ∧
    openedIn (events ++ [event]) scope = openedIn events scope ++ (event.openedIn? scope).toList := by
  simp only [addedTo, openedIn, filterMap_append, filterMap_cons, filterMap_nil]
  cases event.addedTo? scope <;> cases event.openedIn? scope <;> exact ⟨rfl, rfl⟩

end

section

variable (h : Records events t)
include h

theorem Records.push {parent : ScopeId} (named : parent < t.scopes.length) (owner : Option SymbolId) :
    Records (events ++ [.opened t.scopes.length parent owner]) (t.push parent owner).2 := by
  have unopened : t.scope t.scopes.length = .bare none none := by simp [ScopeTree.scope, scopeAt]
  refine ⟨h.grown.edit (.push parent owner) named, h.unique, fun scope => ?_, fun scope => ?_, fun id scope name => ?_,
    fun scope => ?_⟩
  · rw [parentIn_snoc, parent_push, if_pos named, ← h.parents]
    by_cases isNew : scope = t.scopes.length
    · simp [isNew, unopened, Event.parentOf?, Scope.bare]
    · simp [isNew, Ne.symm isNew, Event.parentOf?]
  · rw [ownerIn_snoc, scope_push, ← h.owners]
    by_cases isNew : scope = t.scopes.length
    · simp [isNew, Event.ownerOf, Scope.bare]
    · rw [if_neg isNew]
      simp only [Event.ownerOf, Ne.symm isNew, if_false]
      exact scopeAt_modify (·.owner) fun _ => rfl
  · simpa [get?, ScopeTree.push] using h.symbols id scope name
  · obtain ⟨added, opened⟩ := lists_snoc events (.opened t.scopes.length parent owner) scope
    rw [added, opened, symbolsIn, children, scope_push, ← (h.lists scope).1, ← (h.lists scope).2, symbolsIn, children]
    by_cases isNew : scope = t.scopes.length
    · simp [isNew, unopened, Event.addedTo?, Event.openedIn?, Scope.bare, Nat.ne_of_lt named]
    · rw [if_neg isNew, scopeAt_modify_eq named]
      by_cases same : parent = scope <;>
        simp [same, Event.addedTo?, Event.openedIn?, Scope.withChild, ScopeTree.scope]

theorem Records.setOwner {named : ScopeId} (there : named < t.scopes.length) (owner : SymbolId) :
    Records (events ++ [.owned named owner]) (t.setOwner named owner) := by
  have scopes (scope : ScopeId) : (t.setOwner named owner).scope scope = _ := scopeAt_modify_eq there _ scope
  refine ⟨h.grown.edit (.setOwner named owner) there, h.unique, fun scope => ?_, fun scope => ?_,
    fun id scope name => ?_, fun scope => ?_⟩
  · rw [parentIn_snoc, ← h.parents, scopes]
    split <;> simp [Event.parentOf?, ScopeTree.scope]
  · rw [ownerIn_snoc, ← h.owners, scopes]
    by_cases same : named = scope <;> simp [same, Event.ownerOf, ScopeTree.scope]
  · simpa [get?, ScopeTree.setOwner] using h.symbols id scope name
  · obtain ⟨added, opened⟩ := lists_snoc events (.owned named owner) scope
    rw [added, opened, symbolsIn, children, scopes, ← (h.lists scope).1, ← (h.lists scope).2, symbolsIn, children]
    split <;> simp [Event.addedTo?, Event.openedIn?, ScopeTree.scope]

theorem Records.insert {scope' : ScopeId} (named : scope' < t.scopes.length) {name' : String}
    (absent : t.findHere scope' name' = none) (span : Span) (kind : κ) :
    Records (events ++ [.added t.symbols.length scope' name']) (t.insert ⟨name', span, scope', kind⟩) := by
  have scopes (scope : ScopeId) : (t.insert ⟨name', span, scope', kind⟩).scope scope = _ :=
    scopeAt_modify_eq named _ scope
  have did : t.edit (.add scope' name' span kind) =
      (.added t.symbols.length scope' name', t.insert ⟨name', span, scope', kind⟩) := by
    simp [ScopeTree.edit, add, absent]
  have grown := h.grown.edit (.add scope' name' span kind) named
  rw [did] at grown
  have added : t.add scope' name' span kind = .ok (t.symbols.length, t.insert ⟨name', span, scope', kind⟩) := by
    simp [add, absent]
  refine ⟨grown, h.unique.add added, fun scope => ?_, fun scope => ?_, fun id scope name => ?_, fun scope => ?_⟩
  · rw [parentIn_snoc, ← h.parents, scopes]
    split <;> simp [Event.parentOf?, Scope.withSymbol, ScopeTree.scope]
  · rw [ownerIn_snoc, ← h.owners, scopes]
    split <;> simp [Event.ownerOf, Scope.withSymbol, ScopeTree.scope]
  · rw [get?_insert, mem_append, h.symbols]
    by_cases isNew : id = t.symbols.length
    · have unused : t.get? t.symbols.length = none := by simp [get?]
      simp [isNew, unused, eq_comm]
    · simp [isNew]
  · obtain ⟨isAdded, opened⟩ := lists_snoc events (.added t.symbols.length scope' name') scope
    rw [isAdded, opened, symbolsIn, children, scopes, ← (h.lists scope).1, ← (h.lists scope).2, symbolsIn, children]
    by_cases same : scope' = scope <;> simp [same, Event.addedTo?, Event.openedIn?, Scope.withSymbol, ScopeTree.scope]

theorem Records.edit (e : Edit κ) (named : e.scope < t.scopes.length) :
    Records (events ++ [(t.edit e).1]) (t.edit e).2 := by
  cases e with
  | push parent owner => exact h.push named owner
  | setOwner scope owner => exact h.setOwner named owner
  | add scope' name' span kind =>
    obtain ⟨existing, found, did⟩ | ⟨absent, did⟩ := edit_add t scope' name' span kind <;> rw [did]
    · refine ⟨h.grown, h.unique, fun scope => ?_, fun scope => ?_, fun id scope name => ?_, fun scope => ?_⟩
      · simp [parentIn_snoc, h.parents, Event.parentOf?]
      · simp [ownerIn_snoc, h.owners, Event.ownerOf]
      · simpa using h.symbols id scope name
      · simp [lists_snoc, h.lists, Event.addedTo?, Event.openedIn?]
    · exact h.insert named absent span kind

theorem Records.edits (es : List (Edit κ)) (legal : t.Legal es) :
    Records (events ++ (t.edits es).1) (t.edits es).2 := by
  induction es generalizing events t with
  | nil => simpa [ScopeTree.edits] using h
  | cons e rest ih =>
    have first := h.edit e legal.1
    have all := ih first legal.2
    simpa [ScopeTree.edits] using all

theorem Records.findHere_iff (scope : ScopeId) (name : String) (id : SymbolId) :
    t.findHere scope name = some id ↔ AddedAs events scope name id := by
  constructor
  · intro found
    obtain ⟨sym, atId, here, same⟩ := findHere_get? found
    exact ⟨sym.name, (h.symbols id scope sym.name).mpr ⟨sym, atId, here, rfl⟩, same⟩
  · rintro ⟨name', mem, same⟩
    obtain ⟨sym, atId, here, rfl⟩ := (h.symbols id scope name').mp mem
    cases found : t.findHere scope name with
    | none =>
      rw [sameName_of_findHere_none found atId here] at same
      cases same
    | some id' =>
      obtain ⟨sym', atId', here', same'⟩ := findHere_get? found
      have both : sameName sym'.name sym.name = true := by
        simp only [sameName, beq_iff_eq] at same same' ⊢
        exact same'.trans same.symm
      rw [h.unique id' id sym' sym atId' atId (here'.trans here.symm) both]

theorem Records.chain_iff (scope : ScopeId) (chain : List ScopeId) :
    Chain (parentIn events) scope chain ↔ Chain (fun s => (t.scope s).parent) scope chain := by
  have same : (fun s => (t.scope s).parent) = parentIn events := funext h.parents
  rw [same]

theorem Records.refuses (scope : ScopeId) (name : String) (span : Span) (kind : κ) (id : SymbolId) :
    (t.add scope name span kind = .error id ↔ AddedAs events scope name id) ∧
      (t.add scope name span kind = .error id → (t.edit (.add scope name span kind)).2 = t) := by
  rw [← h.findHere_iff]
  cases found : t.findHere scope name with
  | some existing => simp [ScopeTree.edit, add, found]
  | none => simp [add, found]

theorem Records.accepts {scope : ScopeId} {span : Span} {id : SymbolId} (inside : scope < t.scopes.length)
    (added : t.add scope name span kind = .ok (id, t')) :
    (∀ scope' name', .added id scope' name' ∉ events) ∧ ∀ later : List (Edit κ),
      id ∈ (t'.edits later).2.symbolsIn scope ∧
        ∃ sym, (t'.edits later).2.get? id = some sym ∧ sym.scope = scope ∧ sym.name = name := by
  obtain ⟨-, rfl, rfl⟩ := add_ok added
  constructor
  · intro scope' name' mem
    obtain ⟨sym, found, -⟩ := (h.symbols _ scope' name').mp mem
    exact Nat.lt_irrefl _ (lt_of_get? found)
  · intro later
    have found : (t.insert ⟨name, span, scope, kind⟩).get? t.symbols.length = some ⟨name, span, scope, kind⟩ := by
      rw [get?_insert, if_pos rfl]
    have listed : t.symbols.length ∈ (t.insert ⟨name, span, scope, kind⟩).symbolsIn scope := by
      simp [symbolsIn, ScopeTree.insert, ScopeTree.scope, scopeAt_modify_eq inside, Scope.withSymbol]
    have there : scope < (t.insert ⟨name, span, scope, kind⟩).scopes.length := by
      rwa [length_of_parents (parents_insert _)]
    obtain ⟨lasting, stays⟩ := edits_keep there found listed later
    exact ⟨stays, _, lasting, rfl, rfl⟩

theorem Records.findsAround (scope : ScopeId) (inside : scope < t.scopes.length) :
    ∃ chain, Chain (parentIn events) scope chain ∧ chain.Nodup ∧ chain.getLast? = some root ∧
      (∀ name, t.find scope name .ancestors = chain.findSome? fun s => t.find s name .here) ∧
      t.owner scope = chain.findSome? (ownerIn events) := by
  obtain ⟨chain, isChain, ends⟩ := h.grown.exists_chain scope inside
  refine ⟨chain, (h.chain_iff scope chain).mpr isChain, isChain.nodup, ends, fun name => ?_, ?_⟩
  · exact nearest_eq isChain _
  · have own : (fun s => (t.scope s).owner) = ownerIn events := funext h.owners
    rw [owner, nearest_eq isChain, own]

theorem Records.frame (e : Edit κ) (named : e.scope < t.scopes.length)
    {scope : ScopeId} (inside : scope < t.scopes.length) {chain : List ScopeId}
    (isChain : Chain (parentIn events) scope chain) (apart : ∀ s ∈ e.changed?, s ∉ chain) :
    (∀ name reach, (t.edit e).2.find scope name reach = t.find scope name reach) ∧
      (t.edit e).2.owner scope = t.owner scope := by
  have before := (h.chain_iff scope chain).mp isChain
  have there : ∀ s ∈ chain, s < t.scopes.length := fun s mem => Nat.lt_of_le_of_lt (before.le s mem) inside
  have other : ∀ s ∈ chain, s ≠ t.subject e := by
    rintro s mem rfl
    cases changed : e.changed? with
    | some named' => exact apart named' changed (by simpa [subject, changed] using mem)
    | none =>
      -- the scope that is opened is younger than all of the chain
      have older := there _ mem
      simp only [subject, changed, Option.getD_none] at older
      exact Nat.lt_irrefl _ older
  have after : Chain (fun s => ((t.edit e).2.scope s).parent) scope chain :=
    before.congr fun s mem => parent_edit t e (there s mem)
  have itself : scope ∈ chain := by
    cases isChain <;> simp
  constructor
  · intro name reach
    cases reach with
    | here => exact findHere_edit t e (other scope itself) name
    | ancestors =>
      simp only [find]
      rw [nearest_eq after, nearest_eq before]
      exact findSome?_congr fun s mem => findHere_edit t e (other s mem) name
  · rw [owner, owner, nearest_eq after, nearest_eq before]
    exact findSome?_congr fun s mem => owner_edit t e named (other s mem)

end

end Runs

/-- After any legal edits of the empty tree it answers as nested dictionaries do. -/
theorem edits_nests (es : List (Edit κ)) (legal : (empty : ScopeTree κ).Legal es) :
    Nests (empty.edits es).1 (empty.edits es).2 := by
  have h : Records (empty.edits es).1 (empty.edits es).2 := by
    simpa using Records.empty.edits es legal
  refine ⟨h.refuses, ?_, h.lists, h.findHere_iff, h.findsAround, ?_⟩
  · intro scope name span kind id t' inside added
    exact h.accepts inside added
  · intro e named scope inside chain isChain apart
    exact h.frame e named inside isChain apart

/-- A name in a scope, in one inside of it, and refused in another case. -/
def shadowing : List (Edit Unit) := [
  .add root "x" Span.none (), .push root none, .setOwner 1 0, .push 1 none, .push root (some 0),
  .add 2 "X" Span.none (), .add 2 "x" Span.none (), .add 1 "y" Span.none ()]

theorem shadowing_nests : (empty : ScopeTree Unit).Legal shadowing ∧
    Nests (empty.edits shadowing).1 (empty.edits shadowing).2 := by
  have legal : (empty : ScopeTree Unit).Legal shadowing := by decide +kernel
  exact ⟨legal, edits_nests shadowing legal⟩

end BasicCompiler.ScopeTree
