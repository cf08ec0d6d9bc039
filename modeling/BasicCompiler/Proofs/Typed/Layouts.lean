/-
# Declared types are laid out one after the other

The names of all types are declared first. Then each type is laid out once every type it embeds is, and a type that is
being laid out is not laid out again inside.
-/
import BasicCompiler.Proofs.Typed.Declaring
import BasicCompiler.Proofs.Types.Layout

namespace BasicCompiler

open List Typed.Check TypeTable

/-! ## Tables of types -/

namespace TypeTable

variable {t : TypeTable}

theorem declare_keeps (t : TypeTable) (name : String) (id : UserTypeId) :
    ((t.declare name).2.get id).members = (t.get id).members ∧
      ((t.declare name).2.get id).isLaidOut = (t.get id).isLaidOut := by
  rcases get_declare t name id with same | ⟨new, old⟩
  · exact same ▸ ⟨rfl, rfl⟩
  · exact new ▸ old ▸ ⟨rfl, rfl⟩

theorem IsNested.declare (h : t.IsNested) (bare : ∀ id, (t.get id).members = []) (name : String) :
    (t.declare name).2.IsNested := by
  obtain ⟨order, nodup, all, -, owned⟩ := h
  refine ⟨order, nodup, fun id => ?_, fun id m mem => ?_, fun id => ?_⟩
  · rw [(declare_keeps t name id).2]
    exact all id
  · rw [(declare_keeps t name id).1, bare id] at mem
    cases mem
  · have nothing : t.needsFini (.user id) = false := by rw [owned id, bare id, any_nil]
    rw [(declare_keeps t name id).1, bare id, any_nil, needsFini, trivialOf]
    rcases get_declare t name id with same | ⟨new, -⟩
    · rw [same]
      exact nothing
    · rw [new]
      rfl

theorem get_layout_self {id : UserTypeId} (below : id < t.user.length) (fields : List (String × Ty)) :
    ((t.layout id fields).get id).members = (t.placeAll fields).members ∧
      ((t.layout id fields).get id).isLaidOut = true := by
  rw [get_layout below]
  exact ⟨rfl, rfl⟩

theorem IsNested.layout (h : t.IsNested) {id : UserTypeId} (below : id < t.user.length)
    (waits : (t.get id).isLaidOut = false) {fields : List (String × Ty)}
    (embedded : ∀ field ∈ fields, ∀ j, field.2 = .user j → j < t.user.length →
      (t.get j).isLaidOut = true) : (t.layout id fields).IsNested := by
  obtain ⟨order, nodup, all, behind, owned⟩ := h
  have absent : id ∉ order := by
    intro mem
    rw [(all id).mp mem] at waits
    cases waits
  refine ⟨order ++ [id], ?_, fun j => ?_, fun j m mem k isUser inRange => ?_, fun j => ?_⟩
  · refine nodup_append.mpr ⟨nodup, by simp, fun j mem k isLast same => absent ?_⟩
    rw [← mem_singleton.mp isLast, ← same]
    exact mem
  · rw [mem_append, mem_singleton]
    by_cases same : id = j
    · subst same
      simp [(get_layout_self below fields).2]
    · rw [get_layout_of_ne same, all j]
      exact ⟨fun h => h.resolve_right fun eq => same eq.symm, .inl⟩
  · rw [length_layout] at inRange
    by_cases same : id = j
    · subst same
      rw [(get_layout_self below fields).1] at mem
      obtain ⟨field, isField, type⟩ := type_mem_placeAll mem
      exact ⟨order, [], rfl, (all k).mpr (embedded field isField k (type ▸ isUser) inRange)⟩
    · rw [get_layout_of_ne same] at mem
      obtain ⟨before, after, split, isBefore⟩ := behind j m mem k isUser inRange
      exact ⟨before, after ++ [id], by rw [split]; simp, isBefore⟩
  · -- no member is of the type that is laid out, so the flags of members stay
    have kept {ms : List Member} (others : ∀ m ∈ ms, m.type ≠ .user id) :
        (ms.any fun m => t.needsFini m.type) = ms.any fun m => (t.layout id fields).needsFini m.type := by
      rw [Bool.eq_iff_iff, any_eq_true, any_eq_true]
      exact exists_congr fun m => and_congr_right fun mem => by rw [needsFini_layout_of_ne (others m mem)]
    by_cases same : id = j
    · subst same
      rw [needsFini_layout below, (get_layout_self below fields).1]
      refine kept fun m mem isSelf => ?_
      obtain ⟨field, isField, type⟩ := type_mem_placeAll mem
      rw [embedded field isField id (type ▸ isSelf) below] at waits
      cases waits
    · rw [needsFini_layout_of_ne (by simpa using Ne.symm same), get_layout_of_ne same, owned j]
      refine kept fun m mem isSelf => ?_
      obtain ⟨before, after, split, isBefore⟩ := behind j m mem id isSelf below
      exact absent (split ▸ mem_append_left _ isBefore)

end TypeTable

namespace Typed

variable {s : CheckState}

/-! ## What is laid out so far -/

/-- What is known while types are declared and laid out, since `s0`. -/
structure Laid (s₀ s : CheckState) : Prop where
  rest : s = { s₀ with scopes := s.scopes, types := s.types }
  pointer : s.types.pointer = s₀.types.pointer
  expands : Expands s₀ s
  isScoped : Scoped s
  overloads : ∀ P, s₀.scopes.EachOverload P → s.scopes.EachOverload P
  members : ∀ id, ∀ m ∈ (s.types.get id).members, m.type.IsSolid
  nested : s.types.IsNested

theorem Laid.adds (h : Laid s0 s) (adds : Adds here [] s s') : Laid s0 s' where
  rest := by
    have rest := adds.rest
    rw [h.rest] at rest
    rw [rest]
  pointer := by
    rw [adds.rest]
    exact h.pointer
  expands := h.expands.trans adds.expands
  isScoped := adds.isScoped
  overloads P each := adds.overloads P (h.overloads P each) (by simp)
  members := by
    rw [adds.rest]
    exact h.members
  nested := by
    rw [adds.rest]
    exact h.nested

theorem Laid.withTypes (h : Laid s0 s) {types : TypeTable}
    (members : ∀ id, ∀ m ∈ (types.get id).members, m.type.IsSolid) (nested : types.IsNested)
    (pointer : types.pointer = s.types.pointer) : Laid s0 { s with types } where
  rest := by
    conv_lhs => rw [h.rest]
  pointer := pointer.trans h.pointer
  expands := { h.expands with }
  isScoped := { h.isScoped with }
  overloads := h.overloads
  members := members
  nested := nested

theorem Laid.memberSymbols (inner : scope ≠ ScopeTree.root)
    (h : Laid s0 s)
    (inside : scope < s.scopes.scopes.length) (solid : ∀ m ∈ ms, m.2.type.IsSolid)
    (run : memberSymbols scope index ms s = .ok (u, s')) :
    Laid s0 s' ∧ s'.types = s.types ∧ s'.scopes.scopes.length = s.scopes.scopes.length := by
  induction ms generalizing s index with
  | nil =>
    cases run
    exact ⟨h, rfl, rfl⟩
  | cons m rest ih =>
    obtain ⟨symbol, s1, added, run1⟩ := bind_ok.mp run
    have admits : s.Admits ⟨m.1.name.node, m.1.name.span, scope, .variable ⟨m.2.type, .member index⟩⟩ := by
      refine ⟨inside, fun atRoot => absurd atRoot inner, fun v same => ?_⟩
      cases same
      exact solid m (by simp)
    obtain ⟨adds, -, -, scopes, -⟩ := Adds.symbol [] h.isScoped admits (by simp) added
    obtain ⟨h', types', scopes'⟩ :=
      ih (h.adds adds) (by rw [scopes]; exact inside) (fun q mem => solid q (by simp [mem])) run1
    refine ⟨h', types'.trans ?_, scopes'.trans scopes⟩
    rw [adds.rest]

/-! ## Names of types -/

def Bare (s : CheckState) : Prop := ∀ id, (s.types.get id).members = []

theorem Laid.typeName (h : Laid s0 s) (bare : Bare s) {scope : ScopeId} (run : Check.typeName decl s = .ok (scope, s')) :
    Laid s0 s' ∧ Bare s' ∧ s'.types.user.length = s.types.user.length + 1 ∧
      scope ≠ ScopeTree.root ∧ scope < s'.scopes.scopes.length ∧
      s.scopes.scopes.length ≤ s'.scopes.scopes.length := by
  unfold Check.typeName at run
  cases builtin : (BuiltinType.ofName? decl.name.node).isSome with
  | true =>
    rw [builtin] at run
    cases run
  | false =>
    rw [builtin] at run
    obtain ⟨scope', s1, pushed, run1⟩ := Check.bind_ok.mp run
    obtain ⟨_, s2, got, run2⟩ := Check.bind_ok.mp run1
    obtain ⟨rfl, rfl⟩ := Check.get_ok.mp got
    obtain ⟨_, s3, set, run3⟩ := Check.bind_ok.mp run2
    cases set
    obtain ⟨symbol, s4, added, run4⟩ := Check.bind_ok.mp run3
    obtain ⟨_, s5, owned, made⟩ := Check.bind_ok.mp run4
    cases owned
    cases made
    obtain ⟨adds1, isNew, scopes1⟩ := Adds.push h.isScoped pushed
    have types1 : s2.types = s.types := by rw [adds1.rest]
    have h1 := h.adds adds1
    have bare3 : Bare { s2 with types := (s2.types.declare decl.name.node).2 } := by
      intro id
      rw [(declare_keeps _ _ id).1, types1]
      exact bare id
    have h3 : Laid s0 { s2 with types := (s2.types.declare decl.name.node).2 } := by
      refine h1.withTypes (fun id m mem => ?_) (h1.nested.declare (types1 ▸ bare) _) rfl
      cases bare3 id ▸ mem
    obtain ⟨adds4, -, -, scopes4, -⟩ := Adds.symbol [] h3.isScoped
      ⟨h3.isScoped.rooted, by simp, by simp⟩ (by simp) added
    have types4 : s4.types = (s2.types.declare decl.name.node).2 := by rw [adds4.rest]
    have h4 := h3.adds adds4
    have scopes5 : (s4.scopes.setOwner scope symbol).scopes.length = s.scopes.scopes.length + 1 := by
      unfold ScopeTree.setOwner
      rw [length_modify, scopes4]
      exact scopes1
    refine ⟨h4.adds (.setOwner h4.isScoped scope symbol), ?_, ?_, ?_, ?_, ?_⟩
    · intro id
      rw [types4]
      exact bare3 id
    · rw [types4, ← types1]
      simp [declare]
    · rw [isNew]
      exact Nat.ne_of_gt h.isScoped.rooted
    · rw [scopes5, isNew]
      exact Nat.lt_succ_self _
    · rw [scopes5]
      exact Nat.le_succ _

theorem Laid.typeNames (h : Laid s0 s)
    (bare : Bare s) (run : typeNames decls s = .ok (scopes, s')) :
    Laid s0 s' ∧ s'.types.user.length = s.types.user.length + decls.length ∧
      scopes.length = decls.length ∧ s.scopes.scopes.length ≤ s'.scopes.scopes.length ∧
      ∀ scope ∈ scopes, scope ≠ ScopeTree.root ∧ scope < s'.scopes.scopes.length := by
  induction decls generalizing s scopes with
  | nil =>
    cases run
    exact ⟨h, rfl, rfl, Nat.le_refl _, by simp⟩
  | cons decl rest ih =>
    obtain ⟨scope, s1, named, run1⟩ := bind_ok.mp run
    obtain ⟨others, s2, more, made⟩ := bind_ok.mp run1
    cases made
    obtain ⟨h1, bare1, count1, inner, inside, grown1⟩ := h.typeName bare named
    obtain ⟨h', count', lengths, grown', each⟩ := ih h1 bare1 more
    refine ⟨h', ?_, by simp [lengths], Nat.le_trans grown1 grown', forall_mem_cons.mpr ⟨?_, each⟩⟩
    · rw [count', count1, length_cons]
      omega
    · exact ⟨inner, Nat.lt_of_lt_of_le inside grown'⟩

/-! ## Layouts -/

/-- Types are laid out, but none of those on the path. -/
structure LaysOut (path : List UserTypeId) (s s' : CheckState) : Prop where
  count : s'.types.user.length = s.types.user.length
  scopes : s'.scopes.scopes.length = s.scopes.scopes.length
  keeps : ∀ id, (s.types.get id).isLaidOut = true → (s'.types.get id).isLaidOut = true
  waits : ∀ id ∈ path, (s.types.get id).isLaidOut = false → (s'.types.get id).isLaidOut = false

theorem LaysOut.refl (path : List UserTypeId) (s : CheckState) : LaysOut path s s :=
  ⟨rfl, rfl, fun _ h => h, fun _ _ h => h⟩

theorem LaysOut.trans (h : LaysOut path s s') (h' : LaysOut path s' s'') : LaysOut path s s'' where
  count := h'.count.trans h.count
  scopes := h'.scopes.trans h.scopes
  keeps id laid := h'.keeps id (h.keeps id laid)
  waits id mem waits := h'.waits id mem (h.waits id mem waits)

/-- The types and the scopes of their members. -/
structure Housed (decls : List (Source.TypeDecl × ScopeId)) (s : CheckState) : Prop where
  count : s.types.user.length = decls.length
  scopes : ∀ d ∈ decls, d.2 ≠ ScopeTree.root ∧ d.2 < s.scopes.scopes.length

theorem Housed.lays (h : Housed decls s) (lays : LaysOut path s s') : Housed decls s' :=
  ⟨lays.count.trans h.count, lays.scopes ▸ h.scopes⟩

def LaysOutType (s₀ : CheckState) (decls : List (Source.TypeDecl × ScopeId)) (path : List UserTypeId)
    (layOut : UserTypeId → Check Unit) : Prop :=
  ∀ id s u s', Laid s₀ s → Housed decls s → layOut id s = .ok (u, s') →
    Laid s₀ s' ∧ LaysOut path s s' ∧ (id < decls.length → (s'.types.get id).isLaidOut = true)

theorem LaysOutType.fieldTypes {layOut : UserTypeId → Check Unit} (lays : LaysOutType s0 decls path layOut)
    {fields : List Source.Field} {types : List (String × Ty)} (h : Laid s0 s) (housed : Housed decls s)
    (run : fieldTypes layOut fields s = .ok (types, s')) :
    Laid s0 s' ∧ LaysOut path s s' ∧ ∀ field ∈ types, field.2.IsSolid ∧
      ∀ j, field.2 = .user j → j < decls.length → (s'.types.get j).isLaidOut = true := by
  induction fields generalizing s types with
  | nil =>
    cases run
    exact ⟨h, .refl path _, by simp⟩
  | cons field rest ih =>
    obtain ⟨type, s1, resolved, run1⟩ := bind_ok.mp run
    obtain ⟨rfl, solid⟩ := Looks.resolveTypeName field.type type s1 resolved
    -- the type that is embedded, if there is one, is laid out
    obtain ⟨s2, h2, lays2, inner, run2⟩ : ∃ s2, Laid s0 s2 ∧ LaysOut path s1 s2 ∧
        (∀ j, type = .user j → j < decls.length → (s2.types.get j).isLaidOut = true) ∧
        (fieldTypes layOut rest >>= fun rest => pure ((field.name.node, type) :: rest)) s2 =
          .ok (types, s') := by
      cases user : type.user? with
      | none =>
        rw [user] at run1
        refine ⟨s1, h, .refl path _, fun j same => ?_, run1⟩
        rw [same] at user
        cases user
      | some j =>
        rw [user] at run1
        obtain ⟨_, s2, laid, run2⟩ := bind_ok.mp run1
        obtain ⟨h2, lays2, done⟩ := lays j s1 _ s2 h housed laid
        refine ⟨s2, h2, lays2, fun j' same => ?_, run2⟩
        rw [same] at user
        cases user
        exact done
    obtain ⟨others, s3, more, made⟩ := bind_ok.mp run2
    cases made
    obtain ⟨h', lays', each⟩ := ih h2 (housed.lays lays2) more
    refine ⟨h', lays2.trans lays', forall_mem_cons.mpr ⟨⟨solid, fun j same below => ?_⟩, each⟩⟩
    exact lays'.keeps j (inner j same below)

theorem layOutType_lays (depth : Nat)
    (path : List UserTypeId) : LaysOutType s0 decls path (layOutType decls depth path) := by
  induction depth generalizing path with
  | zero =>
    intro id s u s' _ _ run
    cases run
  | succ depth ih =>
    intro id s u s' h housed run
    unfold layOutType at run
    cases found : decls[id]? with
    | none =>
      rw [found] at run
      obtain ⟨-, rfl⟩ := pure_ok.mp run
      refine ⟨h, .refl path _, fun below => ?_⟩
      rw [List.getElem?_eq_getElem below] at found
      cases found
    | some d =>
      obtain ⟨decl, scope⟩ := d
      rw [found] at run
      obtain ⟨_, s1, got, run1⟩ := bind_ok.mp run
      obtain ⟨rfl, rfl⟩ := get_ok.mp got
      cases laid : (s1.types.get id).isLaidOut with
      | true =>
        rw [laid] at run1
        cases run1
        exact ⟨h, .refl path _, fun _ => laid⟩
      | false =>
        rw [laid] at run1
        cases onPath : path.contains id with
        | true =>
          rw [onPath] at run1
          cases run1
        | false =>
          rw [onPath] at run1
          obtain ⟨fields, s2, resolved, run2⟩ := bind_ok.mp run1
          obtain ⟨_, s3, placed, run3⟩ := bind_ok.mp run2
          cases placed
          obtain ⟨_, s4, got', run4⟩ := bind_ok.mp run3
          cases got'
          obtain ⟨h2, lays2, each⟩ := (ih (id :: path)).fieldTypes h housed resolved
          have housed2 := housed.lays lays2
          have below : id < s2.types.user.length := by
            rw [housed2.count]
            exact (List.getElem?_eq_some_iff.mp found).1
          -- the type itself has not been laid out in between
          have waits := lays2.waits id List.mem_cons_self laid
          have solid : ∀ j, ∀ m ∈ ((s2.types.layout id fields).get j).members, m.type.IsSolid := by
            intro j m mem
            by_cases same : id = j
            · subst same
              rw [(get_layout_self below fields).1] at mem
              obtain ⟨field, isField, type⟩ := type_mem_placeAll mem
              rw [type]
              exact (each field isField).1
            · rw [get_layout_of_ne same] at mem
              exact h2.members j m mem
          have nested := h2.nested.layout below waits fun field isField j isUser inRange =>
            (each field isField).2 j isUser (housed2.count ▸ inRange)
          have h3 := h2.withTypes solid nested rfl
          obtain ⟨inner, inside⟩ := housed2.scopes _ (List.mem_of_getElem? found)
          obtain ⟨h', types', scopes'⟩ := h3.memberSymbols inner inside
            (fun m mem => solid id m.2 (List.of_mem_zip mem).2) run4
          have done : (s'.types.get id).isLaidOut = true := by
            rw [types']
            exact (get_layout_self below fields).2
          refine ⟨h', ⟨?_, scopes'.trans lays2.scopes, fun j isLaid => ?_, fun j mem waiting => ?_⟩, fun _ => done⟩
          · rw [types', ← lays2.count]
            exact length_layout _ _ _
          · by_cases same : id = j
            · exact same ▸ done
            · rw [types']
              rw [get_layout_of_ne same]
              exact lays2.keeps j isLaid
          · have ne : id ≠ j := by
              rintro rfl
              simp [mem] at onPath
            rw [types']
            rw [get_layout_of_ne ne]
            exact lays2.waits j (List.mem_cons_of_mem _ mem) waiting

theorem Laid.layOutTypes
    (h : Laid s0 s) (housed : Housed decls s) (run : layOutTypes decls ids s = .ok (u, s')) : Laid s0 s' := by
  induction ids generalizing s with
  | nil =>
    cases run
    exact h
  | cons id rest ih =>
    obtain ⟨_, s1, first, others⟩ := bind_ok.mp run
    obtain ⟨h1, lays, -⟩ := layOutType_lays _ _ id s _ s1 h housed first
    exact ih h1 (housed.lays lays) others

theorem Declared.types (h : Declared fs s) (unsigned : s.signatures = []) (none : s.types.user = [])
    (run : types decls s = .ok (u, s')) :
    Declared fs s' ∧ s'.signatures = [] ∧ s' = { s with scopes := s'.scopes, types := s'.types } ∧
      s'.types.pointer = s.types.pointer := by
  obtain ⟨scopes, s1, named, run1⟩ := bind_ok.mp run
  have start : Laid s s := ⟨rfl, rfl, .refl s, h.toScoped, fun _ each => each, h.members, h.nested⟩
  have bare : Bare s := by
    intro id
    simp [TypeTable.get, none, UserType.declared]
  obtain ⟨h1, count, lengths, -, each⟩ := start.typeNames bare named
  have housed : Housed (decls.zip scopes) s1 := by
    refine ⟨?_, fun d mem => each d.2 (of_mem_zip mem).2⟩
    rw [count, none, length_zip, lengths]
    simp
  have laid := h1.layOutTypes housed run1
  have signatures : s'.signatures = [] := by
    rw [laid.rest]
    exact unsigned
  refine ⟨h.expand laid.expands laid.isScoped ?_ ?_ (by simp [signatures]) (by simp [signatures])
    laid.members laid.nested, signatures, laid.rest, laid.pointer⟩
  · intro i sym _ _ id sig found
    simp [unsigned] at found
  · exact laid.overloads _ fun i sym os found isFunction o mem =>
      laid.expands.knows h (h.overloads i sym os found isFunction o mem)

end Typed

end BasicCompiler
