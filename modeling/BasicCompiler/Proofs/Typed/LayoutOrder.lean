/-
# Declared types are laid out, or one contains itself

The types of a program are laid out by walking from each type to those that it embeds. The types on the way are
remembered: to come back to one of them is a cycle, and it is reported.
-/
import Mathlib.Data.List.Perm.Subperm
import BasicCompiler.Proofs.Typed.Embedding

namespace BasicCompiler

open List TypeTable Typed.Check ScopeTree Option

def ScopeTree.rootKind? {κ : Type} (t : ScopeTree κ) (name : String) : Option κ :=
  ((t.findHere root name).bind t.get?).map (·.kind)

namespace ScopeTree

variable {t : ScopeTree κ} {scope : ScopeId}

def withSymbols (t : ScopeTree κ) (new : List (Symbol κ)) : ScopeTree κ := new.foldl insert t

theorem symbols_withSymbols (new : List (Symbol κ)) : (t.withSymbols new).symbols = t.symbols ++ new := by
  induction new generalizing t with
  | nil => simp [withSymbols]
  | cons sym rest ih => exact (@ih (t.insert sym)).trans (append_assoc ..)

theorem findHere_append {new : List (Symbol κ)}
    (elsewhere : ∀ sym ∈ new, sym.scope = scope → sameName sym.name name = false) :
    (t.withSymbols new).findHere scope name = t.findHere scope name := by
  have none : new.findIdx? (fun sym => sym.scope = scope && sameName sym.name name) = none := by
    rw [findIdx?_eq_none_iff]
    intro sym mem
    by_cases here : sym.scope = scope
    · simp [here, elsewhere sym mem here]
    · simp [here]
  simp [findHere_eq, symbols_withSymbols, findIdx?_append, none]

theorem rootKind?_append {new : List (Symbol κ)} (elsewhere : ∀ sym ∈ new, sym.scope ≠ root) :
    (t.withSymbols new).rootKind? name = t.rootKind? name := by
  have same := @findHere_append κ t root name new fun sym mem here => absurd here (elsewhere sym mem)
  unfold rootKind?
  rw [same]
  cases found : t.findHere root name with
  | none => rfl
  | some id =>
    obtain ⟨sym, atId, -⟩ := findHere_get? found
    have below := lt_of_get? atId
    simp [get?, symbols_withSymbols, getElem?_append_left below]

end ScopeTree

namespace Typed

variable {decls : List Source.TypeDecl} {s s' : CheckState}

/-! ## Single checks that succeed -/

theorem Check.bind_run {f : α → Check β} :
    (m >>= f) s = match m s with
      | .ok p => f p.1 p.2
      | .error e => .error e := by
  change (m s >>= fun p => f p.1 p.2) = _
  cases m s <;> rfl

def CheckState.withSymbols (s : CheckState) (new : List (Symbol SymbolKind)) : CheckState :=
  { s with scopes := s.scopes.withSymbols new }

theorem CheckState.withSymbols_append (s : CheckState) (new more : List (Symbol SymbolKind)) :
    (s.withSymbols new).withSymbols more = s.withSymbols (new ++ more) := by
  simp [withSymbols, ScopeTree.withSymbols, foldl_append]

theorem addSymbol_run {scope : ScopeId} {id : Ident} (kind : SymbolKind)
    (unused : s.scopes.findHere scope id.node = none) :
    addSymbol scope id kind s = .ok (s.scopes.symbols.length, s.withSymbols [⟨id.node, id.span, scope, kind⟩]) := by
  simp [addSymbol, add, unused, CheckState.withSymbols, withSymbols]

def memberSymbol (scope : ScopeId) (index : Nat) (m : Source.Field × Member) : Symbol SymbolKind :=
  ⟨m.1.name.node, m.1.name.span, scope, .variable ⟨m.2.type, .member index⟩⟩

theorem memberSymbols_run {scope : ScopeId} {index : Nat} {ms : List (Source.Field × Member)}
    (distinct : ms.Pairwise fun a b => sameName a.1.name.node b.1.name.node = false)
    (unused : ∀ a ∈ ms, s.scopes.findHere scope a.1.name.node = none) :
    ∃ new : List (Symbol SymbolKind), (∀ sym ∈ new, sym.scope = scope) ∧
      memberSymbols scope index ms s = .ok ((), s.withSymbols new) := by
  induction ms generalizing s index with
  | nil =>
    refine ⟨[], by simp, ?_⟩
    rfl
  | cons m rest ih =>
    obtain ⟨others, distinct⟩ := pairwise_cons.mp distinct
    have first := addSymbol_run (.variable ⟨m.2.type, .member index⟩) (unused m mem_cons_self)
    have unusedRest : ∀ a ∈ rest,
        (s.withSymbols [memberSymbol scope index m]).scopes.findHere scope a.1.name.node = none := by
      intro a mem
      refine (findHere_append fun sym isNew _ => ?_).trans (unused a (mem_cons_of_mem _ mem))
      rw [mem_singleton.mp isNew]
      exact others a mem
    obtain ⟨new, inScope, run⟩ := @ih _ (index + 1) distinct unusedRest
    refine ⟨memberSymbol scope index m :: new, forall_mem_cons.mpr ⟨rfl, inScope⟩, ?_⟩
    rw [CheckState.withSymbols_append] at run
    rw [memberSymbols, bind_run, first]
    exact run

/-! ## Names of types -/

def declaredType? (decls : List Source.TypeDecl) (name : Source.TypeName) : Option Ty :=
  let base : Option Ty :=
    match BuiltinType.ofName? name.name.node with
    | some .void | some .any | some .array => none
    | some t => some (.builtin t)
    | none => (decls.findIdx? fun d => sameName d.name.node name.name.node).map .user
  base.map fun ty => if name.isArray then .arrayOf ty else ty

/-- The names and types of the fields of a declared type. -/
def declaredFields (decls : List Source.TypeDecl) (id : UserTypeId) : List (String × Ty) :=
  match decls[id]? with
  | some d => d.fields.map fun f => (f.name.node, (declaredType? decls f.type).getD .void)
  | none => []

def KnowsTypes (decls : List Source.TypeDecl) (s : CheckState) : Prop :=
  ∀ name i, decls.findIdx? (fun d => sameName d.name.node name) = some i →
    s.scopes.rootKind? name = some (.userType i)

theorem resolveTypeName_run (knows : KnowsTypes decls s) {ty : Ty} (known : declaredType? decls name = some ty) :
    resolveTypeName name s = .ok (ty, s) := by
  unfold declaredType? at known
  unfold resolveTypeName
  cases builtin : BuiltinType.ofName? name.name.node with
  | some t =>
    rw [builtin] at known
    cases t <;> cases known <;> rfl
  | none =>
    rw [builtin] at known
    cases found : decls.findIdx? fun d => sameName d.name.node name.name.node with
    | none =>
      rw [found] at known
      cases known
    | some i =>
      rw [found] at known
      cases known
      have isType := knows name.name.node i found
      unfold rootKind? at isType
      dsimp only
      rw [bind_run, rootKind, isType]
      rfl

def typeSymbols (first : UserTypeId) : List Source.TypeDecl → List (Symbol SymbolKind)
  | [] => []
  | d :: rest => ⟨d.name.node, d.name.span, root, .userType first⟩ :: typeSymbols (first + 1) rest

theorem scope_typeSymbols : ∀ sym ∈ typeSymbols first decls, sym.scope = root := by
  induction decls generalizing first with
  | nil => simp [typeSymbols]
  | cons d rest ih => exact forall_mem_cons.mpr ⟨rfl, ih⟩

section

variable (first : UserTypeId) (decls : List Source.TypeDecl)

theorem findIdx?_typeSymbols (name : String) :
    (typeSymbols first decls).findIdx? (fun sym => sym.scope = root && sameName sym.name name) =
      decls.findIdx? fun d => sameName d.name.node name := by
  induction decls generalizing first with
  | nil => rfl
  | cons d rest ih => simp [typeSymbols, findIdx?_cons, ih]

theorem getElem?_typeSymbols (i : Nat) :
    (typeSymbols first decls)[i]?.map (·.kind) = decls[i]?.map fun _ => .userType (first + i) := by
  induction decls generalizing first i with
  | nil => rfl
  | cons d rest ih =>
    cases i with
    | zero => rfl
    | succ i =>
      rw [typeSymbols, getElem?_cons_succ, getElem?_cons_succ, ih, Nat.add_right_comm]
      rfl

end

theorem findHere_of_symbols {t t' : ScopeTree SymbolKind} (same : t'.symbols = t.symbols) (scope : ScopeId)
    (name : String) : t'.findHere scope name = t.findHere scope name := by
  rw [findHere_eq, same, findHere_eq]

theorem typeName_run {d : Source.TypeDecl} (free : BuiltinType.ofName? d.name.node = none)
    (unused : s.scopes.findHere root d.name.node = none) :
    ∃ s', typeName d s = .ok (s.scopes.scopes.length, s') ∧
      s'.types = { s.types with user := s.types.user ++ [.declared d.name.node] } ∧
      s'.scopes.symbols = s.scopes.symbols ++ typeSymbols s.types.user.length [d] ∧
      s'.scopes.scopes.length = s.scopes.scopes.length + 1 := by
  unfold typeName
  rw [free]
  refine ⟨_, bind_ok.mpr ⟨_, _, rfl, bind_ok.mpr ⟨_, _, rfl, bind_ok.mpr ⟨_, _, rfl,
    bind_ok.mpr ⟨_, _, addSymbol_run _ ?_, bind_ok.mpr ⟨_, _, rfl, rfl⟩⟩⟩⟩⟩, rfl, rfl, ?_⟩
  · exact unused
  · simp [setOwner, CheckState.withSymbols, withSymbols, ScopeTree.insert]

theorem typeNames_run (free : ∀ d ∈ decls, BuiltinType.ofName? d.name.node = none)
    (distinct : decls.Pairwise fun d d' => sameName d.name.node d'.name.node = false)
    (unused : ∀ d ∈ decls, s.scopes.findHere root d.name.node = none) :
    ∃ s', typeNames decls s = .ok (range' s.scopes.scopes.length decls.length, s') ∧
      s'.types = { s.types with user := s.types.user ++ decls.map fun d => .declared d.name.node } ∧
      s'.scopes.symbols = s.scopes.symbols ++ typeSymbols s.types.user.length decls := by
  induction decls generalizing s with
  | nil =>
    refine ⟨s, rfl, ?_, ?_⟩
    · simp
    · simp [typeSymbols]
  | cons d rest ih =>
    obtain ⟨others, distinct⟩ := pairwise_cons.mp distinct
    obtain ⟨s1, first, types1, symbols1, count1⟩ := typeName_run (free d (by simp)) (unused d (by simp))
    have unusedRest : ∀ d' ∈ rest, s1.scopes.findHere root d'.name.node = none := by
      intro d' mem
      rw [findHere_of_symbols (t := s.scopes.withSymbols (typeSymbols s.types.user.length [d]))
          (symbols1.trans (symbols_withSymbols _).symm),
        findHere_append fun sym isNew _ => ?_]
      · exact unused d' (by simp [mem])
      · rw [mem_singleton.mp isNew]
        exact others d' mem
    obtain ⟨s', run, types', symbols'⟩ := ih (fun d' mem => free d' (by simp [mem])) distinct unusedRest
    refine ⟨s', bind_ok.mpr ⟨_, _, first, bind_ok.mpr ⟨_, _, run, ?_⟩⟩, ?_, ?_⟩
    · rw [count1]
      rfl
    · rw [types', types1]
      simp
    · rw [symbols', symbols1, types1]
      simp [typeSymbols]

theorem knowsTypes_of_symbols (unused : ∀ d ∈ decls, s.scopes.findHere root d.name.node = none)
    (symbols : s'.scopes.symbols = s.scopes.symbols ++ typeSymbols 0 decls) : KnowsTypes decls s' := by
  intro name i found
  obtain ⟨below, isName, -⟩ := findIdx?_eq_some_iff_getElem.mp found
  have absent : s.scopes.findHere root name = none := by
    cases here : s.scopes.findHere root name with
    | none => rfl
    | some id =>
      obtain ⟨sym, atId, inRoot, same⟩ := findHere_get? here
      have clash := sameName_of_findHere_none (unused decls[i] (getElem_mem below)) atId inRoot
      simp only [sameName, beq_iff_eq, beq_eq_false_iff_ne] at isName same clash
      exact absurd (same.trans isName.symm) clash
  have placed : s'.scopes.findHere root name = some (i + s.scopes.symbols.length) := by
    rw [findHere_eq] at absent ⊢
    rw [symbols, findIdx?_append, absent, findIdx?_typeSymbols, found]
    rfl
  have atPlace := getElem?_typeSymbols 0 decls i
  rw [getElem?_eq_getElem below] at atPlace
  unfold rootKind?
  rw [placed, bind_some, get?, symbols, getElem?_append_right (Nat.le_add_left _ _), Nat.add_sub_cancel, atPlace]
  simp

/-! ## The walk -/

/-- What a walk over the types starts from, with `first` the scope of the first type. -/
structure Outset (decls : List Source.TypeDecl) (first : ScopeId) (start : TypeTable) : Prop where
  count : start.user.length = decls.length
  bare : ∀ i, (start.get i).isLaidOut = false
  rooted : root < first
  fields : ∀ d ∈ decls, d.fields.Pairwise fun f f' => sameName f.name.node f'.name.node = false
  resolves : ∀ d ∈ decls, ∀ f ∈ d.fields, (declaredType? decls f.type).isSome = true

/-- The types in `order` have been laid out, one after the other, and no others. -/
structure Stage (decls : List Source.TypeDecl) (first : ScopeId) (start : TypeTable) (order : List UserTypeId)
    (s : CheckState) : Prop where
  types : s.types = start.layoutAll (declaredFields decls) order
  knows : KnowsTypes decls s
  homes : ∀ sym ∈ s.scopes.symbols, sym.scope < first ∨ ∃ i ∈ order, sym.scope = first + i
  inOrder : IsLayoutOrder (declaredFields decls) order
  inside : ∀ i ∈ order, i < decls.length

/-- The types of `path` are being laid out, and each of them embeds `id` on some way. -/
structure OnWay (decls : List Source.TypeDecl) (order path : List UserTypeId) (id : UserTypeId) : Prop where
  leads : ∀ p ∈ path, Relation.TransGen (Embeds (declaredFields decls)) p id
  nodup : path.Nodup
  inside : ∀ p ∈ path, p < decls.length
  waits : ∀ p ∈ path, p ∉ order

/-- The fault names a type that embeds itself. -/
def FoundCycle (decls : List Source.TypeDecl) (e : CheckError) : Prop :=
  ∃ i d, decls[i]? = some d ∧ Relation.TransGen (Embeds (declaredFields decls)) i i ∧
    e = ⟨.containsItself d.name.node, d.name.span, []⟩

def Ends (decls : List Source.TypeDecl) (Q : α → CheckState → Prop) : Except (List CheckError) (α × CheckState) → Prop
  | .ok (a, s') => Q a s'
  | .error es => ∃ e told, es = told ++ [e] ∧ FoundCycle decls e

theorem Ends.bind {m : Check α} (first : Ends decls Q (m s)) (second : ∀ a s1, Q a s1 → Ends decls R (f a s1)) :
    Ends decls R ((m >>= f) s) := by
  rw [bind_run]
  cases run : m s with
  | error e =>
    rw [run] at first
    exact first
  | ok p =>
    rw [run] at first
    exact second p.1 p.2 first

theorem Ends.mono (h : Ends decls Q result) (weaker : ∀ a s', Q a s' → R a s') : Ends decls R result := by
  cases result with
  | error e => exact h
  | ok p => exact weaker p.1 p.2 h

/-- The type and perhaps others have been laid out, none of them on the way there. -/
def Walked (decls : List Source.TypeDecl) (first : ScopeId) (start : TypeTable) (order path : List UserTypeId)
    (id : UserTypeId) (_ : Unit) (s' : CheckState) : Prop :=
  ∃ new, Stage decls first start (order ++ new) s' ∧ id ∈ order ++ new ∧ ∀ p ∈ path, p ∉ new

/-- The fields have been resolved, and all that they embed has been laid out on the way. -/
def Resolved (decls : List Source.TypeDecl) (first : ScopeId) (start : TypeTable) (order path : List UserTypeId)
    (fs : List Source.Field) (types : List (String × Ty)) (s' : CheckState) : Prop :=
  types = fs.map (fun f => (f.name.node, (declaredType? decls f.type).getD .void)) ∧
    ∃ new, Stage decls first start (order ++ new) s' ∧ (∀ p ∈ path, p ∉ new) ∧
      ∀ f ∈ fs, ∀ j, declaredType? decls f.type = some (.user j) → j ∈ order ++ new

section Walk

variable {start : TypeTable} {order : List UserTypeId} {id j : UserTypeId} {d : Source.TypeDecl}

theorem declaredFields_of (atId : decls[id]? = some d) :
    declaredFields decls id = d.fields.map fun f => (f.name.node, (declaredType? decls f.type).getD .void) := by
  simp [declaredFields, atId]

theorem lt_of_declaredType? (known : declaredType? decls name = some (.user j)) : j < decls.length := by
  obtain ⟨base, isBase, isUser⟩ := map_eq_some_iff.mp known
  split at isUser
  · cases isUser
  · subst isUser
    split at isBase
    · cases isBase
    · cases isBase
    · cases isBase
    · cases isBase
    · obtain ⟨i, found, same⟩ := map_eq_some_iff.mp isBase
      cases same
      exact (findIdx?_eq_some_iff_getElem.mp found).1

theorem Stage.isLaidOut_iff (outset : Outset decls first start) (stage : Stage decls first start order s)
    (i : UserTypeId) : (s.types.get i).isLaidOut = true ↔ i ∈ order := by
  rw [stage.types]
  constructor
  · intro laid
    by_contra absent
    rw [get_layoutAll_of_not_mem start absent, outset.bare] at laid
    cases laid
  · intro mem
    rw [get_layoutAll stage.inOrder (fun i isMem => outset.count ▸ stage.inside i isMem) mem]
    rfl

section

variable (h : OnWay decls order path id)
include h

theorem OnWay.step (apart : id ∉ path) (waits : id ∉ order)
    (inside : id < decls.length) (embeds : Embeds (declaredFields decls) id j) :
    OnWay decls order (id :: path) j := by
  refine ⟨forall_mem_cons.mpr ⟨.single embeds, fun p mem => ?_⟩, nodup_cons.mpr ⟨apart, h.nodup⟩,
    forall_mem_cons.mpr ⟨inside, h.inside⟩, forall_mem_cons.mpr ⟨waits, h.waits⟩⟩
  exact .tail (h.leads p mem) embeds

theorem OnWay.append (apart : ∀ p ∈ path, p ∉ new) : OnWay decls (order ++ new) path id := by
  refine ⟨h.leads, h.nodup, h.inside, fun p mem isLaid => ?_⟩
  rcases mem_append.mp isLaid with old | isNew
  · exact h.waits p mem old
  · exact apart p mem isNew

theorem OnWay.length_le : path.length ≤ decls.length := by
  have sub : path ⊆ range decls.length := fun p mem => mem_range.mpr (h.inside p mem)
  have le := (subperm_of_subset h.nodup sub).length_le
  rwa [length_range] at le

end

theorem fieldTypes_walks (outset : Outset decls first start) (atId : decls[id]? = some d)
    (walks : ∀ j s order, Stage decls first start order s → OnWay decls order path j → j < decls.length → Ends decls (Walked decls first start order path j) (layOut j s))
    {fs : List Source.Field} (declared : ∀ f ∈ fs, f ∈ d.fields) (stage : Stage decls first start order s)
    (way : ∀ j, Embeds (declaredFields decls) id j → OnWay decls order path j) :
    Ends decls (Resolved decls first start order path fs) (fieldTypes layOut fs s) := by
  induction fs generalizing s order with
  | nil => exact ⟨rfl, [], by simpa using stage, by simp, by simp⟩
  | cons f rest ih =>
    have isDecl := mem_of_getElem? atId
    obtain ⟨ty, known⟩ := isSome_iff_exists.mp (outset.resolves d isDecl f (declared f (by simp)))
    have declaredRest : ∀ f' ∈ rest, f' ∈ d.fields := fun f' mem => declared f' (by simp [mem])
    rw [fieldTypes, bind_run, resolveTypeName_run stage.knows known]
    dsimp only
    -- the rest of the fields, behind the type that this one embeds
    have others (s1 : CheckState) (new1 : List UserTypeId) (stage1 : Stage decls first start (order ++ new1) s1)
        (apart1 : ∀ p ∈ path, p ∉ new1) (inner : ∀ j, ty = .user j → j ∈ order ++ new1) :
        Ends decls (Resolved decls first start order path (f :: rest))
          ((fieldTypes layOut rest >>= fun rest => pure ((f.name.node, ty) :: rest)) s1) := by
      refine (ih declaredRest stage1 fun j embeds => (way j embeds).append apart1).bind ?_
      rintro types s2 ⟨rfl, new2, stage2, apart2, embedded⟩
      refine ⟨by simp [known], new1 ++ new2, by rwa [← append_assoc], fun p mem isNew => ?_, fun f' mem j isUser => ?_⟩
      · rcases mem_append.mp isNew with isNew | isNew
        · exact apart1 p mem isNew
        · exact apart2 p mem isNew
      · rw [← append_assoc]
        rcases mem_cons.mp mem with rfl | mem
        · obtain rfl := some.inj (known.symm.trans isUser)
          exact mem_append_left _ (inner j rfl)
        · exact embedded f' mem j isUser
    cases user : ty.user? with
    | none =>
      refine others s [] (by simpa using stage) (by simp) ?_
      rintro j rfl
      cases user
    | some j =>
      have isUser : ty = .user j := by
        cases ty <;> simp_all [Ty.user?]
      subst isUser
      have embeds : Embeds (declaredFields decls) id j := by
        refine ⟨(f.name.node, .user j), ?_, rfl⟩
        rw [declaredFields_of atId]
        exact mem_map.mpr ⟨f, declared f (by simp), by simp [known]⟩
      refine (walks j s order stage (way j embeds) (lt_of_declaredType? known)).bind ?_
      rintro _ s1 ⟨new1, stage1, isLaid, apart1⟩
      refine others s1 new1 stage1 apart1 ?_
      rintro _ ⟨⟩
      exact isLaid

theorem Stage.layOut (outset : Outset decls first start) (stage : Stage decls first start order s)
    (atId : decls[id]? = some d) (waits : id ∉ order)
    (embedded : ∀ f ∈ d.fields, ∀ j, declaredType? decls f.type = some (.user j) → j ∈ order) :
    ∃ s', memberSymbols (first + id) 0 (d.fields.zip ((s.types.layout id (declaredFields decls id)).get id).members)
        { s with types := s.types.layout id (declaredFields decls id) } = .ok ((), s') ∧
      Stage decls first start (order ++ [id]) s' := by
  have isDecl := mem_of_getElem? atId
  have inside : id < decls.length := (List.getElem?_eq_some_iff.mp atId).1
  have behind : ∀ j, Embeds (declaredFields decls) id j → j ∈ order := by
    rintro j ⟨field, isField, isUser⟩
    rw [declaredFields_of atId] at isField
    obtain ⟨f, mem, rfl⟩ := mem_map.mp isField
    obtain ⟨ty, known⟩ := isSome_iff_exists.mp (outset.resolves d isDecl f mem)
    refine embedded f mem j ?_
    rw [known] at isUser ⊢
    exact congrArg some isUser
  -- the scope of the type is still empty
  have unused : ∀ name, s.scopes.findHere (first + id) name = none := by
    intro name
    cases here : s.scopes.findHere (first + id) name with
    | none => rfl
    | some found =>
      obtain ⟨sym, atFound, inScope, -⟩ := findHere_get? here
      rcases stage.homes sym (mem_of_getElem? atFound) with before | ⟨i, isLaid, same⟩
      · rw [inScope] at before
        exact absurd before (Nat.not_lt.mpr (Nat.le_add_right _ _))
      · rw [inScope] at same
        exact absurd (Nat.add_left_cancel same ▸ isLaid) waits
  have distinct : (d.fields.zip ((s.types.layout id (declaredFields decls id)).get id).members).Pairwise
      fun a b => sameName a.1.name.node b.1.name.node = false := by
    have below : id < s.types.user.length := by
      rw [stage.types, (layoutAll_keeps _ start order).2.2, outset.count]
      exact inside
    have count : d.fields.length ≤ ((s.types.layout id (declaredFields decls id)).get id).members.length := by
      have names := congrArg length (members_placeAll s.types (declaredFields decls id)).1
      rw [length_map] at names
      apply Nat.le_of_eq
      rw [(get_layout_self below _).1, names, declaredFields_of atId, length_map]
    have fields := outset.fields d isDecl
    rwa [← map_fst_zip count, pairwise_map] at fields
  obtain ⟨new, inScope, run⟩ := @memberSymbols_run { s with types := s.types.layout id (declaredFields decls id) } _ 0
    _ distinct fun a _ => unused a.1.name.node
  refine ⟨_, run, ?_, ?_, ?_, .snoc stage.inOrder waits behind, ?_⟩
  · rw [layoutAll_snoc, ← stage.types]
    rfl
  · intro name i found
    refine (rootKind?_append fun sym mem => ?_).trans (stage.knows name i found)
    rw [inScope sym mem]
    exact Nat.ne_of_gt (Nat.lt_of_lt_of_le outset.rooted (Nat.le_add_right _ _))
  · rw [CheckState.withSymbols, symbols_withSymbols]
    refine forall_mem_append.mpr ⟨fun sym old => ?_, fun sym isNew => .inr ⟨id, by simp, inScope sym isNew⟩⟩
    rcases stage.homes sym old with before | ⟨i, isLaid, same⟩
    · exact .inl before
    · exact .inr ⟨i, mem_append_left _ isLaid, same⟩
  · exact forall_mem_append.mpr ⟨stage.inside, forall_mem_singleton.mpr inside⟩

def housed (decls : List Source.TypeDecl) (first : ScopeId) : List (Source.TypeDecl × ScopeId) :=
  decls.zip (List.range' first decls.length)

theorem getElem?_housed (atId : decls[id]? = some d) : (housed decls first)[id]? = some (d, first + id) := by
  have inside : id < decls.length := (List.getElem?_eq_some_iff.mp atId).1
  rw [housed, getElem?_zip_eq_some]
  refine ⟨atId, ?_⟩
  rw [getElem?_range' inside]
  simp

theorem layOutType_walks (outset : Outset decls first start) (stage : Stage decls first start order s)
    (way : OnWay decls order path id) (inside : id < decls.length) (enough : path.length + depth = decls.length + 1) :
    Ends decls (Walked decls first start order path id) (layOutType (housed decls first) depth path id s) := by
  induction depth generalizing s order path id with
  | zero =>
    have := way.length_le
    omega
  | succ depth ih =>
    obtain ⟨d, atId⟩ : ∃ d, decls[id]? = some d := ⟨decls[id], getElem?_eq_getElem inside⟩
    unfold layOutType
    rw [getElem?_housed atId]
    dsimp only
    change Ends decls _ ((if (s.types.get id).isLaidOut = true then pure ()
      else if path.contains id = true then fail (.containsItself d.name.node) d.name.span else _ : Check Unit) s)
    by_cases isLaid : id ∈ order
    · rw [if_pos ((stage.isLaidOut_iff outset id).mpr isLaid)]
      exact ⟨[], by simpa using stage, by simpa using isLaid, by simp⟩
    · rw [if_neg (mt (stage.isLaidOut_iff outset id).mp isLaid)]
      by_cases onPath : id ∈ path
      · rw [if_pos (by simpa using onPath)]
        exact ⟨_, s.reports, rfl, id, d, atId, way.leads id onPath, rfl⟩
      · rw [if_neg (by simpa using onPath)]
        refine (fieldTypes_walks outset atId
          (fun j s order stage way inside => ih stage way inside (by rw [length_cons]; omega))
          (fun f mem => mem) stage fun j embeds => way.step onPath isLaid inside embeds).bind ?_
        rintro types s1 ⟨isTypes, new, stage1, apart, embedded⟩
        have waits : id ∉ order ++ new := by
          intro mem
          rcases mem_append.mp mem with old | isNew
          · exact isLaid old
          · exact apart id mem_cons_self isNew
        obtain ⟨s', declared, stage'⟩ := stage1.layOut outset atId waits embedded
        rw [isTypes, ← declaredFields_of atId]
        change Ends decls _ (memberSymbols (first + id) 0 _ _)
        rw [declared]
        refine ⟨new ++ [id], by rwa [← append_assoc], by simp, fun p mem isNew => ?_⟩
        rcases mem_append.mp isNew with isNew | isLast
        · exact apart p (mem_cons_of_mem _ mem) isNew
        · exact onPath (mem_singleton.mp isLast ▸ mem)

theorem layOutTypes_walks (outset : Outset decls first start) (inside : ∀ i ∈ ids, i < decls.length)
    (stage : Stage decls first start order s) :
    Ends decls (fun _ s' => ∃ new, Stage decls first start (order ++ new) s' ∧ ∀ i ∈ ids, i ∈ order ++ new)
      (layOutTypes (housed decls first) ids s) := by
  induction ids generalizing s order with
  | nil => exact ⟨[], by simpa using stage, by simp⟩
  | cons id rest ih =>
    have way : OnWay decls order [] id := ⟨by simp, nodup_nil, by simp, by simp⟩
    have enough : ([] : List UserTypeId).length + ((housed decls first).length + 1) = decls.length + 1 := by
      simp [housed]
    refine (layOutType_walks outset stage way (inside id (by simp)) enough).bind ?_
    rintro _ s1 ⟨new, stage1, isLaid, -⟩
    refine (ih (fun i mem => inside i (by simp [mem])) stage1).mono ?_
    rintro _ s2 ⟨more, stage2, areLaid⟩
    rw [append_assoc] at stage2 areLaid
    refine ⟨new ++ more, stage2, forall_mem_cons.mpr ⟨?_, areLaid⟩⟩
    rw [← append_assoc]
    exact mem_append_left _ isLaid

end Walk

/-! ## Commands come first -/

/-- Only commands have been declared. -/
structure DeclaresCommands (commands : List CommandDecl) (s : CheckState) : Prop where
  scopes : s.scopes.scopes.length = 1
  named : ∀ sym ∈ s.scopes.symbols, sym.scope = root ∧ ∃ c ∈ commands, sym.name = c.name

theorem DeclaresCommands.modifyKind (h : DeclaresCommands commands s) (symbol : SymbolId)
    (change : SymbolKind → SymbolKind) :
    DeclaresCommands commands { s with scopes := s.scopes.modifyKind symbol change } := by
  refine ⟨h.scopes, fun sym mem => ?_⟩
  obtain ⟨i, atI⟩ := mem_iff_getElem?.mp mem
  have found := get?_modifyKind (t := s.scopes) symbol change i
  rw [get?, atI] at found
  obtain ⟨before, atBefore, same⟩ := map_eq_some_iff.mp found.symm
  have named := h.named before (mem_of_getElem? atBefore)
  split at same
  · rw [← same]
    exact named
  · rw [← same]
    exact named

theorem DeclaresCommands.overload {commands : List CommandDecl} (h : DeclaresCommands commands s) {c : CommandDecl}
    (isCommand : c ∈ commands) {span : Span} (run : addOverload ⟨c.name, span⟩ o s = .ok (answer, s')) :
    DeclaresCommands commands s' ∧ s'.types = s.types := by
  obtain ⟨_, s0, got, looked⟩ := bind_ok.mp run
  obtain ⟨rfl, rfl⟩ := get_ok.mp got
  cases found : s0.scopes.findHere root c.name with
  | none =>
    rw [found] at looked
    have added := @addSymbol_run s0 root ⟨c.name, span⟩ (.function [o]) found
    obtain ⟨symbol, s1, added', made⟩ := bind_ok.mp looked
    obtain ⟨-, rfl⟩ := pure_ok.mp made
    rw [added] at added'
    cases added'
    exact ⟨⟨(length_of_parents (parents_insert _)).trans h.scopes, forall_mem_append.mpr ⟨h.named, forall_mem_singleton.mpr ⟨rfl, c, isCommand, rfl⟩⟩⟩, rfl⟩
  | some symbol =>
    rw [found] at looked
    obtain ⟨-, os, -, -, -, -, rfl⟩ := extendOverloads_ok looked
    exact ⟨h.modifyKind symbol _, rfl⟩

theorem DeclaresCommands.commandsFrom {commands decls : List CommandDecl} (h : DeclaresCommands commands s)
    (areCommands : ∀ c ∈ decls, c ∈ commands) (run : commandsFrom index decls s = .ok (u, s')) :
    DeclaresCommands commands s' ∧ s'.types = s.types := by
  induction decls generalizing s index with
  | nil =>
    cases run
    exact ⟨h, rfl⟩
  | cons c rest ih =>
    obtain ⟨_, s1, first, others⟩ := bind_ok.mp run
    unfold command at first
    cases parsed : parsePattern c.pattern with
    | error e =>
      rw [parsed] at first
      cases first
    | ok ms =>
      rw [parsed] at first
      obtain ⟨_, s2, appended, run1⟩ := bind_ok.mp first
      cases appended
      obtain ⟨_, s3, overloaded, made⟩ := bind_ok.mp run1
      cases made
      obtain ⟨h1, types1⟩ := DeclaresCommands.overload (by exact ⟨h.scopes, h.named⟩)
        (areCommands c (by simp)) overloaded
      obtain ⟨h', types'⟩ := ih h1 (fun c mem => areCommands c (by simp [mem])) others
      exact ⟨h', types'.trans types1⟩

/-! ## All types -/

/-- Types that may be declared beside commands: their names are free and different, so are
the names of the fields of each, and the types of the fields are known. -/
structure Declarable (commands : List CommandDecl) (decls : List Source.TypeDecl) : Prop where
  free : ∀ d ∈ decls, BuiltinType.ofName? d.name.node = none ∧ ∀ c ∈ commands, sameName c.name d.name.node = false
  distinct : decls.Pairwise fun d d' => sameName d.name.node d'.name.node = false
  fields : ∀ d ∈ decls, d.fields.Pairwise fun f f' => sameName f.name.node f'.name.node = false
  resolves : ∀ d ∈ decls, ∀ f ∈ d.fields, (declaredType? decls f.type).isSome = true

def namedTypes (ctx : Context) (decls : List Source.TypeDecl) : TypeTable :=
  { empty ctx.pointer ctx.memberAlign with user := decls.map fun d => .declared d.name.node }

theorem get_namedTypes (atI : decls[i]? = some d) : (namedTypes ctx decls).get i = .declared d.name.node := by
  simp [namedTypes, TypeTable.get, atI]

theorem outset_namedTypes (declarable : Declarable ctx.commands decls) : Outset decls 1 (namedTypes ctx decls) where
  count := by simp [namedTypes]
  bare i := by
    cases atI : decls[i]? with
    | some d => simp [get_namedTypes atI, UserType.declared]
    | none => simp [namedTypes, TypeTable.get, atI, UserType.declared]
  rooted := Nat.zero_lt_one
  fields := declarable.fields
  resolves := declarable.resolves

theorem reached_declared {t : TypeTable} {pointer : PointerWidth} {memberAlign : Nat}
    (h : Reached pointer memberAlign t) (decls : List Source.TypeDecl) :
    Reached pointer memberAlign { t with user := t.user ++ decls.map fun d => .declared d.name.node } := by
  induction decls generalizing t with
  | nil => simpa using h
  | cons d rest ih => simpa [declare] using ih (.declare d.name.node h)

theorem types_walks (declared : Check.commandsFrom 0 ctx.commands (.start ctx.pointer ctx.memberAlign) = .ok ((), s))
    (declarable : Declarable ctx.commands decls) :
    Ends decls (fun _ s' => ∃ order, Stage decls 1 (namedTypes ctx decls) order s' ∧ ∀ i < decls.length, i ∈ order)
      (Check.types decls s) := by
  have bare : DeclaresCommands ctx.commands (.start ctx.pointer ctx.memberAlign) :=
    ⟨rfl, by simp [CheckState.start, ScopeTree.empty]⟩
  obtain ⟨h, types⟩ := bare.commandsFrom (fun _ mem => mem) declared
  have unused : ∀ d ∈ decls, s.scopes.findHere ScopeTree.root d.name.node = none := by
    intro d mem
    cases here : s.scopes.findHere ScopeTree.root d.name.node with
    | none => rfl
    | some id =>
      obtain ⟨sym, atId, -, same⟩ := ScopeTree.findHere_get? here
      obtain ⟨-, c, isCommand, isName⟩ := h.named sym (mem_of_getElem? atId)
      rw [isName, (declarable.free d mem).2 c isCommand] at same
      cases same
  obtain ⟨s1, named, types1, symbols1⟩ :=
    typeNames_run (fun d mem => (declarable.free d mem).1) declarable.distinct unused
  have noTypes : s.types.user = [] := by
    rw [types]
    rfl
  rw [noTypes] at symbols1
  have stage : Stage decls 1 (namedTypes ctx decls) [] s1 := by
    refine ⟨?_, knowsTypes_of_symbols unused symbols1, fun sym mem => .inl ?_, .nil, by simp⟩
    · rw [types1, types]
      rfl
    · have atRoot : ∀ sym ∈ s1.scopes.symbols, sym.scope = root := by
        rw [symbols1]
        exact forall_mem_append.mpr ⟨fun sym isCommand => (h.named sym isCommand).1, scope_typeSymbols⟩
      rw [atRoot sym mem]
      exact Nat.zero_lt_one
  have inside : ∀ i ∈ range decls.length, i < decls.length := fun i mem => mem_range.mp mem
  rw [Check.types, Check.bind_run, named, h.scopes]
  refine Ends.mono (layOutTypes_walks (outset_namedTypes declarable) inside stage) ?_
  rintro _ s' ⟨order, stage', all⟩
  exact ⟨order, stage', fun i below => all i (mem_range.mpr below)⟩

/-- The types are laid out, each once and behind those that it embeds, and the table is up
to date: no layout changes if it is computed again, and a type lacks the flags of what needs
no care exactly if it owns something. Where a type has room in a word its members lie as close
as they can. -/
structure LaidOut (ctx : Context) (decls : List Source.TypeDecl) (t : TypeTable) : Prop where
  once : ∃ order, order.Perm (List.range decls.length) ∧ IsLayoutOrder (declaredFields decls) order ∧
    t = (namedTypes ctx decls).layoutAll (declaredFields decls) order
  members : ∀ i d, decls[i]? = some d → (t.get i).name = d.name.node ∧ (t.get i).isLaidOut = true ∧
    (t.get i).members.map (fun m => (m.name, m.type)) = declaredFields decls i ∧
      ∀ m ∈ (t.get i).members, m.size = t.sizeOf m.type
  again : ∀ i < decls.length, t.layout i (declaredFields decls i) = t
  owners : ∀ i < decls.length, ((t.get i).trivial.fini = false ↔ Owns (declaredFields decls) i) ∧
    ((t.get i).trivial.copy = false ↔ Owns (declaredFields decls) i)
  tight : ∀ i < decls.length, t.HasRoom (declaredFields decls i) →
    Tight t (t.get i).members ∧ IsRoundedUp (endOf (t.get i).members) (t.get i).align (t.get i).size

theorem Stage.laidOut (declarable : Declarable ctx.commands decls)
    (stage : Stage decls 1 (namedTypes ctx decls) order s) (all : ∀ i < decls.length, i ∈ order) :
    LaidOut ctx decls s.types := by
  have inside : ∀ i ∈ order, i < (namedTypes ctx decls).user.length := by
    intro i mem
    rw [(outset_namedTypes declarable).count]
    exact stage.inside i mem
  rw [stage.types]
  refine ⟨⟨order, ?_, stage.inOrder, rfl⟩, fun i d atI => ?_, fun i below => ?_, fun i below => ?_,
    fun i below room => ?_⟩
  · refine (perm_ext_iff_of_nodup stage.inOrder.nodup nodup_range).mpr fun i => ?_
    rw [mem_range]
    exact ⟨stage.inside i, all i⟩
  · have mem := all i (List.getElem?_eq_some_iff.mp atI).1
    obtain ⟨names, sizes⟩ := members_placeAll
      ((namedTypes ctx decls).layoutAll (declaredFields decls) order) (declaredFields decls i)
    rw [get_layoutAll stage.inOrder inside mem, get_namedTypes atI]
    exact ⟨rfl, rfl, names, sizes⟩
  · exact layout_layoutAll stage.inOrder inside (all i below)
  · exact ⟨flag_layoutAll isOwnerFlag_fini stage.inOrder inside (all i below),
      flag_layoutAll isOwnerFlag_copy stage.inOrder inside (all i below)⟩
  · rw [get_layoutAll stage.inOrder inside (all i below)]
    exact placed_tight ((reached_declared .empty decls).layoutAll _ order).isAligned room _

theorem lt_of_embeds (embeds : Embeds (declaredFields decls) i j) : i < decls.length := by
  obtain ⟨field, isField, -⟩ := embeds
  by_contra above
  simp [declaredFields, getElem?_eq_none (Nat.not_lt.mp above)] at isField

/-- Types can be declared exactly if none of them embeds itself on any way. If one does, it
is such a type that is reported; if none does, all of them are laid out. -/
theorem types_laidOut {ctx : Context}
    (declared : Check.commandsFrom 0 ctx.commands (.start ctx.pointer ctx.memberAlign) = .ok ((), s))
    (declarable : Declarable ctx.commands decls) :
    ((∃ s', Check.types decls s = .ok ((), s')) ↔ ∀ i, ¬ Relation.TransGen (Embeds (declaredFields decls)) i i) ∧
      (∀ es, Check.types decls s = .error es → ∃ e told, es = told ++ [e] ∧ FoundCycle decls e) ∧
      ∀ s', Check.types decls s = .ok ((), s') → LaidOut ctx decls s'.types := by
  have walks := types_walks declared declarable
  cases run : Check.types decls s with
  | error e =>
    rw [run] at walks
    refine ⟨⟨by simp, fun acyclic => ?_⟩, by rintro _ ⟨⟩; exact walks, by simp⟩
    obtain ⟨_, _, -, i, d, -, cycle, -⟩ := walks
    exact absurd cycle (acyclic i)
  | ok p =>
    obtain ⟨u, s'⟩ := p
    rw [run] at walks
    obtain ⟨order, stage, all⟩ := walks
    refine ⟨⟨fun _ i cycle => ?_, fun _ => ⟨s', rfl⟩⟩, by simp, by rintro _ ⟨⟩; exact stage.laidOut declarable all⟩
    obtain ⟨j, embeds, -⟩ := Relation.TransGen.head'_iff.mp cycle
    exact stage.inOrder.acyclic (all i (lt_of_embeds embeds)) cycle

def plainType (name : String) (fields : List (String × String)) : Source.TypeDecl :=
  ⟨⟨name, .none⟩, fields.map fun f => ⟨⟨f.1, .none⟩, ⟨⟨f.2, .none⟩, false, .none⟩⟩, .none⟩

/-- Two types share a third that is declared behind them, and one of them owns a string. -/
def sharingTypes : List Source.TypeDecl := [
  plainType "shape" [("edge", "line"), ("at", "point")],
  plainType "line" [("from", "point"), ("to", "POINT"), ("label", "string")],
  plainType "point" [("x", "float"), ("y", "byte")]]

theorem sharingTypes_laidOut : ∃ s s',
    Check.commandsFrom 0 (Context.standard .bits64).commands
      (.start (Context.standard .bits64).pointer (Context.standard .bits64).memberAlign) = .ok ((), s) ∧
    Check.types sharingTypes s = .ok ((), s') ∧ LaidOut (.standard .bits64) sharingTypes s'.types := by
  have declarable : Declarable (Context.standard .bits64).commands sharingTypes :=
    ⟨by decide +kernel, by decide +kernel, by decide +kernel, by decide +kernel⟩
  have runs : ((do Check.commandsFrom 0 (Context.standard .bits64).commands; Check.types sharingTypes : Check Unit)
      (.start (Context.standard .bits64).pointer (Context.standard .bits64).memberAlign)).isOk = true := by
    decide +kernel
  cases both : (do Check.commandsFrom 0 (Context.standard .bits64).commands; Check.types sharingTypes : Check Unit)
      (.start (Context.standard .bits64).pointer (Context.standard .bits64).memberAlign) with
  | error e => simp [both, Except.isOk, Except.toBool] at runs
  | ok p =>
    obtain ⟨_, s, declared, laid⟩ := Check.bind_ok.mp both
    exact ⟨s, p.2, declared, laid, (types_laidOut declared declarable).2.2 p.2 laid⟩

end Typed

end BasicCompiler
