/-
# What is declared before any body

Commands, functions and globals are declared in the root, and every function gets a scope with its parameters.
-/
import BasicCompiler.Proofs.Typed.Soundness

namespace BasicCompiler

open List Typed.Check ScopeTree Option

def ScopeTree.EachOverload (t : ScopeTree SymbolKind) (P : Overload → Prop) : Prop :=
  ∀ id sym os, t.get? id = some sym → sym.kind = .function os → ∀ o ∈ os, P o

namespace Typed

variable {s' : CheckState}

/-! ## Declaring forgets nothing -/

/-- What is declared stays, and a function gets new overloads behind those it has. -/
structure Expands (s s' : CheckState) : Prop where
  symbols : s.scopes.Extends s'.scopes
  functions : ∀ id sym os, s.scopes.get? id = some sym → sym.kind = .function os →
    ∃ sym' os', s'.scopes.get? id = some sym' ∧ sym'.kind = .function os' ∧ os <+: os'
  scopes : s.scopes.scopes.length ≤ s'.scopes.scopes.length
  commands : s.commands <+: s'.commands
  signatures : s.signatures <+: s'.signatures

theorem getElem?_of_isPrefix {γ : Type} {xs ys : List γ} (h : xs <+: ys) {i : Nat} {x : γ}
    (found : xs[i]? = some x) : ys[i]? = some x := by
  obtain ⟨rest, rfl⟩ := h
  rw [List.getElem?_append_left (List.getElem?_eq_some_iff.mp found).1, found]

namespace Expands

theorem refl (s : CheckState) : Expands s s where
  symbols := .refl _
  functions _ sym os found isFunction := ⟨sym, os, found, isFunction, prefix_refl _⟩
  scopes := Nat.le_refl _
  commands := prefix_refl _
  signatures := prefix_refl _

theorem trans (h : Expands s s') (h' : Expands s' s'') : Expands s s'' where
  symbols := h.symbols.trans h'.symbols
  functions id sym os found isFunction := by
    obtain ⟨sym', os', found', isFunction', more⟩ := h.functions id sym os found isFunction
    obtain ⟨sym'', os'', found'', isFunction'', more'⟩ := h'.functions id sym' os' found' isFunction'
    exact ⟨sym'', os'', found'', isFunction'', more.trans more'⟩
  scopes := Nat.le_trans h.scopes h'.scopes
  commands := h.commands.trans h'.commands
  signatures := h.signatures.trans h'.signatures

theorem of_symbols {scopes : ScopeTree SymbolKind}
    (same : ∀ id sym, s.scopes.get? id = some sym → scopes.get? id = some sym)
    (more : s.scopes.scopes.length ≤ scopes.scopes.length) : Expands s { s with scopes } where
  symbols id sym found := ⟨sym.kind, same id sym found, .inl rfl⟩
  functions id sym os found isFunction := ⟨sym, os, same id sym found, isFunction, prefix_refl _⟩
  scopes := more
  commands := prefix_refl _
  signatures := prefix_refl _

theorem knows (declared : Declared fs s) (h : Expands s s') {o : Overload} (known : s.Knows o) : s'.Knows o := by
  obtain ⟨params, ofCommand⟩ := known
  constructor
  · cases callee : o.callee with
    | function id =>
      rw [callee] at params
      obtain ⟨sig, found, same⟩ := map_eq_some_iff.mp params
      refine map_eq_some_iff.mpr ⟨sig, getElem?_of_isPrefix h.signatures found, ?_⟩
      rw [← same]
      exact h.symbols.paramList (declared.params_asVariable? found)
    | command index =>
      rw [callee] at params
      obtain ⟨c, found, same⟩ := map_eq_some_iff.mp params
      exact map_eq_some_iff.mpr ⟨c, getElem?_of_isPrefix h.commands found, same⟩
  · intro index callee
    have result := ofCommand index callee
    rw [callee] at result ⊢
    obtain ⟨c, found, same⟩ := map_eq_some_iff.mp result
    exact map_eq_some_iff.mpr ⟨c, getElem?_of_isPrefix h.commands found, same⟩

theorem stands (h : Expands s s') {id : FunctionId} {sig : Signature} (stands : sig.Stands fs s id) :
    sig.Stands fs s' id where
  names := by
    obtain ⟨decl, isDecl, names⟩ := stands.names
    refine ⟨decl, isDecl, names.imp fun i p named => ?_⟩
    obtain ⟨sym, found, same⟩ := named
    obtain ⟨kind, found', -⟩ := h.symbols i sym found
    exact ⟨_, found', same⟩
  scope := ⟨stands.scope.1, Nat.lt_of_lt_of_le stands.scope.2 h.scopes⟩
  params i mem := h.symbols.declares SymbolKind.IsParam.becomes (stands.params i mem)
  nodup := stands.nodup
  fits := by
    obtain ⟨sym, os, o, found, isFunction, atOverload, callee⟩ := stands.fits.placed
    obtain ⟨sym', os', found', isFunction', more⟩ := h.functions _ sym os found isFunction
    refine ⟨⟨sym', os', o, found', isFunction', getElem?_of_isPrefix more atOverload, callee⟩, ?_⟩
    exact fun solid => stands.fits.result fun c mem => solid c (h.commands.subset mem)
  linked := stands.linked.grow h.symbols (.refl sig)

end Expands

/-- Agreement lasts through a declaration: at most one signature is new, its scope is new,
and nothing is added to the scopes of the others. -/
theorem Declared.expand (h : Declared fs s) (expands : Expands s s') (isScoped : Scoped s')
    (fresh : ∀ i sym, s'.scopes.get? i = some sym → s.scopes.get? i = none →
      ∀ (id : FunctionId) (sig : Signature), s.signatures[id]? = some sig → sym.scope ≠ sig.scope)
    (overloads : s'.scopes.EachOverload s'.Knows) (count : s'.signatures.length ≤ s.signatures.length + 1)
    (latest : ∀ sig, s'.signatures[s.signatures.length]? = some sig →
      sig.Stands fs s' s.signatures.length ∧ s.scopes.scopes.length ≤ sig.scope ∧
        ∀ i, s'.scopes.Declares sig.scope (fun _ => True) i → i ∈ sig.params)
    (members : ∀ id, ∀ m ∈ (s'.types.get id).members, m.type.IsSolid)
    (nested : s'.types.IsNested) : Declared fs s' := by
  -- a signature is one of before, or the latest one
  have which {id : FunctionId} {sig : Signature} (found : s'.signatures[id]? = some sig) :
      s.signatures[id]? = some sig ∨ id = s.signatures.length := by
    have below := (List.getElem?_eq_some_iff.mp found).1
    rcases Nat.lt_or_ge id s.signatures.length with old | new
    · obtain ⟨rest, same⟩ := expands.signatures
      rw [← same, getElem?_append_left old] at found
      exact .inl found
    · exact .inr (Nat.le_antisymm (Nat.le_of_lt_succ (Nat.lt_of_lt_of_le below count)) new)
  -- the scope of the latest one is that of no other
  have distinct {i j : FunctionId} {sig sig' : Signature} (found : s.signatures[i]? = some sig)
      (found' : s'.signatures[j]? = some sig') (isLatest : j = s.signatures.length)
      (same : sig.scope = sig'.scope) : False := by
    subst isLatest
    have below := (h.signatures i sig found).scope.2
    rw [same] at below
    exact Nat.not_lt.mpr (latest sig' found').2.1 below
  refine
    { toScoped := isScoped
      overloads := overloads
      signatures := fun id sig found => ?_
      apart := fun i j sig sig' foundI foundJ same => ?_
      pending := fun id sig found isPending i declared => ?_
      members := members
      nested := nested }
  · rcases which found with before | rfl
    · exact expands.stands (h.signatures id sig before)
    · exact (latest sig found).1
  · rcases which foundI with beforeI | isLatestI <;> rcases which foundJ with beforeJ | isLatestJ
    · exact h.apart i j sig sig' beforeI beforeJ same
    · exact (distinct beforeI foundJ isLatestJ same).elim
    · exact (distinct beforeJ foundI isLatestI same.symm).elim
    · rw [isLatestI, isLatestJ]
  · rcases which found with before | rfl
    · obtain ⟨sym, atI, inScope, -⟩ := declared
      rcases expands.symbols.new_or_old atI with isNew | ⟨sym', kind, atBefore, rfl, -⟩
      · exact absurd inScope (fresh i sym atI isNew id sig before)
      · exact h.pending id sig before isPending i ⟨sym', atBefore, inScope, trivial⟩
    · exact (latest sig found).2.2 i declared

/-! ## Steps in the scopes -/

theorem extendOverloads_ok {existing symbol : SymbolId} {id : Ident} {o : Overload} {n : Nat}
    (run : extendOverloads existing id o s = .ok ((symbol, n), s')) :
    ∃ sym os, s.scopes.get? existing = some sym ∧ sym.kind = .function os ∧ symbol = existing ∧ n = os.length ∧
      s' = { s with scopes := s.scopes.modifyKind existing fun _ => .function (os ++ [o]) } := by
  obtain ⟨kind, s1, isKind, extended⟩ := bind_ok.mp run
  obtain ⟨rfl, rfl⟩ := Looks.symbolKind existing kind s1 isKind
  cases atSymbol : s1.scopes.get? existing with
  | none =>
    rw [atSymbol] at extended
    cases extended
  | some sym =>
    obtain ⟨name, span, scope, kind⟩ := sym
    rw [atSymbol, map_some] at extended
    cases kind with
    | function os =>
      dsimp only at extended
      cases clash : os.any fun o' => sameParams o'.params o.params with
      | true =>
        rw [clash] at extended
        cases extended
      | false =>
        rw [clash] at extended
        obtain ⟨_, s2, modified, made⟩ := bind_ok.mp extended
        cases modified
        cases made
        exact ⟨_, os, rfl, rfl, rfl, rfl, rfl⟩
    | _ => cases extended

/-- A step that changes the scopes alone: new symbols are declared where `here` says, and
the new overloads are some of `new`. -/
structure Adds (here : ScopeId → Prop) (new : List Overload) (s s' : CheckState) : Prop where
  rest : s' = { s with scopes := s'.scopes }
  expands : Expands s s'
  isScoped : Scoped s'
  fresh : ∀ i sym, s'.scopes.get? i = some sym → s.scopes.get? i = none → here sym.scope
  overloads : ∀ P, s.scopes.EachOverload P → (∀ o ∈ new, P o) → s'.scopes.EachOverload P

variable {scope : ScopeId}

namespace Adds

variable {here : ScopeId → Prop}

theorem refl (h : Scoped s) : Adds here new s s :=
  ⟨rfl, .refl s, h, fun i sym found absent => by simp [absent] at found, fun _ each _ => each⟩

theorem trans (h : Adds here new s s') (h' : Adds here new s' s'') : Adds here new s s'' where
  rest := by
    have rest := h'.rest
    rw [h.rest] at rest
    exact rest
  expands := h.expands.trans h'.expands
  isScoped := h'.isScoped
  fresh i sym found absent := by
    rcases h'.expands.symbols.new_or_old found with isNew | ⟨sym', kind, atMiddle, rfl, -⟩
    · exact h'.fresh i sym found isNew
    · exact h.fresh i sym' atMiddle absent
  overloads P each holds := h'.overloads P (h.overloads P each holds) holds

theorem mono (h : Adds here new s s') (more : ∀ scope, here scope → here' scope)
    (news : ∀ o ∈ new, o ∈ new') : Adds here' new' s s' :=
  { h with
    fresh := fun i sym found absent => more _ (h.fresh i sym found absent)
    overloads := fun P each holds => h.overloads P each fun o mem => holds o (news o mem) }

theorem symbol (new : List Overload) (h : Scoped s) {id : Ident} {kind : SymbolKind} {symbol : SymbolId}
    (admits : s.Admits ⟨id.node, id.span, scope, kind⟩) (news : ∀ os, kind = .function os → ∀ o ∈ os, o ∈ new)
    (run : addSymbol scope id kind s = .ok (symbol, s')) :
    Adds (· = scope) new s s' ∧ s.scopes.get? symbol = none ∧
      s'.scopes.get? symbol = some ⟨id.node, id.span, scope, kind⟩ ∧
      s'.scopes.scopes.length = s.scopes.scopes.length ∧
      ∀ i sym, s'.scopes.get? i = some sym → s.scopes.get? i = none → i = symbol := by
  unfold addSymbol at run
  split at run
  · next symbol' t added =>
    cases run
    have grows := Grows.add added
    obtain ⟨absent, there⟩ := get?_new added
    have scopes : t.scopes.length = s.scopes.scopes.length := grows.length_scopes
    have expands : Expands s { s with scopes := t } :=
      .of_symbols (fun _ _ => ScopeTree.get?_of_add added) (Nat.le_of_eq scopes.symm)
    refine ⟨⟨rfl, expands, ?_, ?_, ?_⟩, absent, there, scopes, fun i sym found before => ?_⟩
    · refine h.grow grows.symbols (Nat.le_of_eq scopes.symm) (h.flat.of_parents grows.scopes) (h.unique.add added) rfl
        rfl fun i sym found before => ?_
      rcases get?_added added found with ⟨-, rfl⟩ | found'
      · exact ⟨scopes ▸ admits.inside, admits.rootless, admits.solid⟩
      · cases before.symm.trans found'
    · intro i sym found before
      rcases get?_added added found with ⟨-, rfl⟩ | found'
      · rfl
      · cases before.symm.trans found'
    · intro P each holds i sym os found isFunction o mem
      rcases get?_added added found with ⟨-, rfl⟩ | found'
      · exact holds o (news os isFunction o mem)
      · exact each i sym os found' isFunction o mem
    · rcases get?_added added found with ⟨same, -⟩ | found'
      · exact same
      · cases before.symm.trans found'
  · cases run

section

variable (h : Scoped s)
include h

theorem of_scopes {t : ScopeTree SymbolKind} (same : t.symbols = s.scopes.symbols)
    (more : s.scopes.scopes.length ≤ t.scopes.length) (flat : t.IsFlat) :
    Adds (fun _ => False) [] s { s with scopes := t } := by
  have get (i : SymbolId) : t.get? i = s.scopes.get? i := congrArg (·[i]?) same
  refine ⟨rfl, .of_symbols (fun i _ found => (get i).trans found) more, ?_, fun i sym found absent => ?_,
    fun _ each _ i sym os found => each i sym os ((get i).symm.trans found)⟩
  · refine h.grow (fun i sym found => ⟨sym.kind, (get i).trans found, .inl rfl⟩) more flat
      (fun i j a b atI atJ => h.unique i j a b ((get i).symm.trans atI) ((get j).symm.trans atJ)) rfl rfl
      fun i sym found absent => ?_
    cases absent.symm.trans ((get i).symm.trans found)
  · cases absent.symm.trans ((get i).symm.trans found)

theorem push {owner : Option SymbolId} (run : pushScope owner s = .ok (scope, s')) :
    Adds (fun _ => False) [] s s' ∧ scope = s.scopes.scopes.length ∧
      s'.scopes.scopes.length = s.scopes.scopes.length + 1 := by
  cases run
  have count : (s.scopes.push root owner).2.scopes.length = s.scopes.scopes.length + 1 := by simp [ScopeTree.push]
  refine ⟨of_scopes h rfl (count ▸ Nat.le_succ _) fun inner parent isParent => ?_, rfl, count⟩
  have isParent := (parent_push root owner inner).symm.trans isParent
  split at isParent
  · exact (Option.ite_none_right_eq_some.mp isParent).2 |> some.inj |>.symm
  · exact h.flat inner parent isParent

theorem setOwner (scope : ScopeId) (owner : SymbolId) :
    Adds (fun _ => False) [] s { s with scopes := s.scopes.setOwner scope owner } := by
  refine of_scopes h rfl (by simp [ScopeTree.setOwner]) fun inner parent isParent => h.flat inner parent ?_
  refine (Eq.symm ?_).trans isParent
  exact scopeAt_modify (·.parent) fun _ => rfl

theorem modifyKind {symbol : SymbolId} {sym : Symbol SymbolKind} {os : List Overload}
    (atSymbol : s.scopes.get? symbol = some sym) (isFunction : sym.kind = .function os) (o : Overload) :
    Adds here [o] s { s with scopes := s.scopes.modifyKind symbol fun _ => .function (os ++ [o]) } := by
  -- a symbol of later is the one that changed, or as it was
  have which {i : SymbolId} {sym' : Symbol SymbolKind}
      (found : (s.scopes.modifyKind symbol fun _ => .function (os ++ [o])).get? i = some sym') :
      symbol = i ∧ sym'.kind = .function (os ++ [o]) ∨ s.scopes.get? i = some sym' := by
    rw [get?_modifyKind] at found
    obtain ⟨before, atI, rfl⟩ := map_eq_some_iff.mp found
    by_cases same : symbol = i
    · rw [if_pos same]
      exact .inl ⟨same, rfl⟩
    · rw [if_neg same]
      exact .inr atI
  have old {i : SymbolId} {sym' : Symbol SymbolKind}
      (found : (s.scopes.modifyKind symbol fun _ => .function (os ++ [o])).get? i = some sym')
      (absent : s.scopes.get? i = none) : False := by
    rcases which found with ⟨rfl, -⟩ | before
    · cases absent.symm.trans atSymbol
    · cases absent.symm.trans before
  have symbols : s.scopes.Extends (s.scopes.modifyKind symbol fun _ => .function (os ++ [o])) := by
    refine .modifyKind _ _ fun sym' found => .inr ⟨os, os ++ [o], ?_, rfl⟩
    obtain rfl := some.inj (atSymbol.symm.trans found)
    exact isFunction
  refine ⟨rfl, ⟨symbols, fun i sym' os' found isFunction' => ?_, Nat.le_refl _, prefix_refl _,
    prefix_refl _⟩, ?_, fun i sym' found absent => (old found absent).elim, ?_⟩
  · by_cases same : symbol = i
    · subst same
      obtain rfl := some.inj (atSymbol.symm.trans found)
      cases isFunction.symm.trans isFunction'
      refine ⟨{ sym with kind := .function (os ++ [o]) }, os ++ [o], ?_, rfl, prefix_append _ _⟩
      rw [get?_modifyKind, atSymbol, map_some, if_pos rfl]
    · refine ⟨sym', os', ?_, isFunction', prefix_refl _⟩
      rw [get?_modifyKind, found, map_some, if_neg same]
  · exact h.grow symbols (Nat.le_refl _) h.flat (h.unique.modifyKind _ _) rfl rfl
      fun i sym' found absent => (old found absent).elim
  · intro P each holds i sym' os' found isFunction' o' mem
    rcases which found with ⟨rfl, changed⟩ | before
    · cases changed.symm.trans isFunction'
      rcases mem_append.mp mem with isOld | isNew
      · exact each _ sym os atSymbol isFunction o' isOld
      · exact holds o' isNew
    · exact each i sym' os' before isFunction' o' mem

theorem extendOverloads {existing symbol : SymbolId} {id : Ident} {o : Overload} {n : Nat}
    (run : extendOverloads existing id o s = .ok ((symbol, n), s')) :
    Adds here [o] s s' ∧ (∃ sym os, s'.scopes.get? symbol = some sym ∧
      sym.kind = .function os ∧ os[n]? = some o) ∧ symbol = existing ∧ s'.scopes.scopes.length = s.scopes.scopes.length := by
  obtain ⟨sym, os, atSymbol, isFunction, rfl, rfl, rfl⟩ := extendOverloads_ok run
  refine ⟨modifyKind h atSymbol isFunction o, ⟨{ sym with kind := .function (os ++ [o]) }, os ++ [o], ?_, rfl, by simp⟩,
    rfl, rfl⟩
  rw [get?_modifyKind, atSymbol, map_some, if_pos rfl]

theorem overload {id : Ident} {o : Overload} {symbol : SymbolId} {n : Nat}
    (run : addOverload id o s = .ok ((symbol, n), s')) :
    Adds (· = root) [o] s s' ∧ (∃ sym os, s'.scopes.get? symbol = some sym ∧
      sym.kind = .function os ∧ os[n]? = some o) ∧ s'.scopes.CalledAtRoot symbol id.node ∧
      s'.scopes.scopes.length = s.scopes.scopes.length := by
  obtain ⟨_, s0, got, looked⟩ := bind_ok.mp run
  obtain ⟨rfl, rfl⟩ := get_ok.mp got
  cases found : s0.scopes.findHere root id.node with
  | some existing =>
    rw [found] at looked
    obtain ⟨adds, placed, rfl, scopes⟩ := @extendOverloads s0 s' (· = root) h existing symbol id o n looked
    obtain ⟨sym, atSymbol, atRoot, same⟩ := findHere_get? found
    exact ⟨adds, placed, adds.expands.symbols.calledAtRoot ⟨sym, atSymbol, atRoot, same⟩, scopes⟩
  | none =>
    rw [found] at looked
    obtain ⟨symbol', s1, added, made⟩ := bind_ok.mp looked
    cases made
    have news : ∀ os, SymbolKind.function [o] = .function os → ∀ o' ∈ os, o' ∈ [o] := by
      rintro _ ⟨⟩ o' mem
      exact mem
    obtain ⟨adds, -, there, scopes, -⟩ := Adds.symbol [o] h ⟨h.rooted, by simp, by simp⟩ news added
    exact ⟨adds, ⟨_, [o], there, rfl, rfl⟩, ⟨_, there, rfl, beq_self_eq_true _⟩, scopes⟩

end

end Adds

/-! ## Commands -/

def Command.IsOf (decl : CommandDecl) (c : Command) : Prop :=
  ∃ members, parsePattern decl.pattern = .ok members ∧
    c = ⟨decl.name, decl.linkName, members.tail.map (·.toParam), (members.head?.map (·.type.toTy)).getD .void⟩

theorem Declared.command (h : Declared fs s) (unsigned : s.signatures = []) {decl : CommandDecl}
    (run : Check.command s.commands.length decl s = .ok (u, s')) :
    Declared fs s' ∧ s' = { s with scopes := s'.scopes, commands := s'.commands } ∧
      ∃ c, Command.IsOf decl c ∧ s'.commands = s.commands ++ [c] := by
  unfold Check.command at run
  cases parsed : parsePattern decl.pattern with
  | error e =>
    rw [parsed] at run
    cases run
  | ok ms =>
    rw [parsed] at run
    obtain ⟨_, s1, appended, run1⟩ := Check.bind_ok.mp run
    cases appended
    obtain ⟨⟨symbol, n⟩, s2, overloaded, made⟩ := Check.bind_ok.mp run1
    cases made
    obtain ⟨adds, -, -⟩ := Adds.overload (by exact { h.toScoped with }) overloaded
    have signatures : s'.signatures = [] := by
      rw [adds.rest]
      exact unsigned
    have types : s'.types = s.types := by rw [adds.rest]
    have commands := congrArg CheckState.commands adds.rest
    have expands : Expands s s' := by
      refine ⟨adds.expands.symbols, adds.expands.functions, adds.expands.scopes, ?_, ?_⟩
      · rw [commands]
        exact prefix_append _ _
      · rw [unsigned]
        exact nil_prefix
    refine ⟨h.expand expands adds.isScoped ?_ ?_ (by simp [signatures]) (by simp [signatures]) ?_ ?_,
      by rw [adds.rest], _, ⟨ms, parsed, rfl⟩, commands⟩
    · intro i sym _ _ id sig found
      simp [unsigned] at found
    · refine adds.overloads _ (fun i sym os found isFunction o mem => ?_) fun o isNew => ?_
      · exact expands.knows h (h.overloads i sym os found isFunction o mem)
      · obtain rfl := mem_singleton.mp isNew
        constructor
        · simp [CheckState.callParams?, commands]
        · simp [CheckState.callResult?, commands]
    · exact types ▸ h.members
    · exact types ▸ h.nested

theorem Declared.commandsFrom (h : Declared fs s) (unsigned : s.signatures = [])
    (run : commandsFrom s.commands.length decls s = .ok (u, s')) :
    Declared fs s' ∧ s' = { s with scopes := s'.scopes, commands := s'.commands } ∧
      ∃ cs, Forall₂ Command.IsOf decls cs ∧ s'.commands = s.commands ++ cs := by
  induction decls generalizing s with
  | nil =>
    cases run
    exact ⟨h, rfl, [], .nil, (append_nil _).symm⟩
  | cons decl rest ih =>
    obtain ⟨_, s1, first, others⟩ := bind_ok.mp run
    obtain ⟨h1, same1, c, isOf, commands1⟩ := h.command unsigned first
    have count : s1.commands.length = s.commands.length + 1 := by simp [commands1]
    rw [← count] at others
    obtain ⟨h', same', cs, areOf, commands'⟩ := ih h1 (by rw [same1]; exact unsigned) others
    refine ⟨h', ?_, c :: cs, .cons isOf areOf, ?_⟩
    · rw [same1] at same'
      exact same'
    · rw [commands', commands1, append_assoc]
      rfl

/-! ## Functions -/

theorem Looks.params (ps : List Source.Param) :
    Looks s (params ps) (Forall₂ (fun p sig => sig.type.IsSolid ∧
      sig = ⟨sig.type, if p.byRef then .inOutRef else .value, .once⟩) ps) := by
  induction ps with
  | nil => exact pure .nil
  | cons p rest ih =>
    refine bind (typeOrSuffix _ _) fun type solid => bind ih fun others each => pure ?_
    exact .cons ⟨solid, rfl⟩ each

def IsParamSymbol (s : CheckState) (scope : ScopeId) (id : SymbolId) (p : Source.Param × Param) : Prop :=
  ∃ index, s.scopes.get? id = some ⟨p.1.name.node, p.1.name.span, scope, .variable ⟨p.2.type, .param index p.1.byRef⟩⟩

theorem IsParamSymbol.expand {id : SymbolId} {p : Source.Param × Param}
    (h : IsParamSymbol s scope id p) (expands : Expands s s') : IsParamSymbol s' scope id p := by
  obtain ⟨index, found⟩ := h
  obtain ⟨kind, found', becomes⟩ := expands.symbols id _ found
  obtain rfl := (becomes.variable_iff _).mpr rfl
  exact ⟨index, found'⟩

theorem paramSymbols_ok (inside : scope < s.scopes.scopes.length)
    (inner : scope ≠ root) {index : Nat} {ps : List (Source.Param × Param)}
    (solid : ∀ p ∈ ps, p.2.type.IsSolid) {symbols : List SymbolId} (h : Scoped s)
    (run : paramSymbols scope index ps s = .ok (symbols, s')) :
    Adds (· = scope) [] s s' ∧ symbols.Nodup ∧ (∀ i ∈ symbols, s.scopes.get? i = none) ∧
      Forall₂ (IsParamSymbol s' scope) symbols ps ∧
        ∀ i sym, s'.scopes.get? i = some sym → s.scopes.get? i = none → i ∈ symbols := by
  induction ps generalizing s index symbols with
  | nil =>
    cases run
    refine ⟨.refl h, nodup_nil, by simp, .nil, fun i sym found absent => ?_⟩
    cases absent.symm.trans found
  | cons p rest ih =>
    obtain ⟨symbol, s1, added, run1⟩ := bind_ok.mp run
    obtain ⟨others, s2, more, made⟩ := bind_ok.mp run1
    cases made
    have admits : s.Admits ⟨p.1.name.node, p.1.name.span, scope, .variable ⟨p.2.type, .param index p.1.byRef⟩⟩ := by
      refine ⟨inside, fun atRoot => absurd atRoot inner, fun v same => ?_⟩
      cases same
      exact solid p (by simp)
    obtain ⟨adds, absent, there, scopes, only⟩ := Adds.symbol [] h admits (by simp) added
    obtain ⟨adds', nodup, fresh, each, all⟩ :=
      ih (by rw [scopes]; exact inside) (fun q mem => solid q (by simp [mem])) adds.isScoped more
    refine ⟨adds.trans adds', nodup_cons.mpr ⟨fun mem => ?_, nodup⟩, fun i mem => ?_, .cons ?_ each,
      fun i sym found before => ?_⟩
    · cases (fresh symbol mem).symm.trans there
    · rcases mem_cons.mp mem with rfl | mem
      · exact absent
      · cases before : s.scopes.get? i with
        | none => rfl
        | some sym =>
          obtain ⟨kind, found, -⟩ := adds.expands.symbols i sym before
          cases (fresh i mem).symm.trans found
    · exact IsParamSymbol.expand ⟨index, there⟩ adds'.expands
    · cases atMiddle : s1.scopes.get? i with
      | none => exact mem_cons_of_mem _ (all i sym found atMiddle)
      | some sym' =>
        rw [only i sym' atMiddle before]
        exact mem_cons_self

theorem paramList_of_symbols {symbols : List SymbolId} {ps : List Source.Param} {sigs : List Param}
    (h : Forall₂ (fun p sig => sig.type.IsSolid ∧
      sig = ⟨sig.type, if p.byRef then .inOutRef else .value, .once⟩) ps sigs)
    (each : Forall₂ (IsParamSymbol s scope) symbols (ps.zip sigs)) :
    s.scopes.paramList symbols = sigs ∧
      Forall₂ (fun i (p : Source.Param) => ∃ sym, s.scopes.get? i = some sym ∧
        sym.name = p.name.node) symbols ps ∧ ∀ i ∈ symbols, s.scopes.Declares scope SymbolKind.IsParam i := by
  induction h generalizing symbols with
  | nil =>
    cases each
    exact ⟨rfl, .nil, by simp⟩
  | @cons p sig ps sigs first _ ih =>
    obtain ⟨solid, same⟩ := first
    cases each with
    | @cons i _ rest _ isSymbol others =>
      obtain ⟨index, found⟩ := isSymbol
      obtain ⟨params, names, declared⟩ := ih others
      have isVariable : s.scopes.asVariable? i = some ⟨sig.type, .param index p.byRef⟩ :=
        bind_eq_some_iff.mpr ⟨_, found, rfl⟩
      refine ⟨?_, .cons ⟨_, found, rfl⟩ names, forall_mem_cons.mpr ⟨⟨_, found, rfl, _, _, _, rfl⟩, declared⟩⟩
      unfold paramList at params ⊢
      rw [filterMap_cons, isVariable, params, same]
      cases p.byRef <;> rfl

theorem functionSignature_ok {f : Source.Function} {id : FunctionId} (run : functionSignature id f s = .ok (u, s')) :
    ∃ ps result symbol n s1 scope s2 symbols s3,
      Forall₂ (fun p sig => sig.type.IsSolid ∧
        sig = ⟨sig.type, if p.byRef then .inOutRef else .value, .once⟩) f.params ps ∧
      (∀ ty, result = some ty → ty.IsSolid) ∧
      addOverload f.name ⟨ps, result.getD .void, .function id, f.name.span⟩ s =
        .ok ((symbol, n), s1) ∧
      pushScope (some symbol) s1 = .ok (scope, s2) ∧
      paramSymbols scope 0 (f.params.zip ps) s2 = .ok (symbols, s3) ∧
      s' = { s3 with signatures := s3.signatures ++
        [⟨symbol, n, result, symbols, scope, linkName f.name.node n, .pending⟩] } := by
  obtain ⟨ps, s0, params, run0⟩ := bind_ok.mp run
  obtain ⟨rfl, typed⟩ := Looks.params f.params ps s0 params
  obtain ⟨result, solid, run1⟩ : ∃ result : Option Ty, (∀ ty, result = some ty → ty.IsSolid) ∧
      (addOverload f.name ⟨ps, result.getD .void, .function id, f.name.span⟩ >>= fun named =>
        pushScope (some named.1) >>= fun scope =>
        paramSymbols scope 0 (f.params.zip ps) >>= fun symbols =>
        modify fun s => { s with signatures := s.signatures ++
          [⟨named.1, named.2, result, symbols, scope, linkName f.name.node named.2, .pending⟩] })
        s0 = .ok (u, s') := by
    cases declared : f.result with
    | none =>
      rw [declared] at run0
      exact ⟨none, by simp, run0⟩
    | some type =>
      rw [declared] at run0
      obtain ⟨ty, s1, resolved, run1⟩ := bind_ok.mp run0
      obtain ⟨rfl, solid⟩ := Looks.resolveTypeName type ty s1 resolved
      exact ⟨some ty, by simpa using solid, run1⟩
  obtain ⟨⟨symbol, n⟩, s1, overloaded, run2⟩ := bind_ok.mp run1
  obtain ⟨scope, s2, pushed, run3⟩ := bind_ok.mp run2
  obtain ⟨symbols, s3, declared, run4⟩ := bind_ok.mp run3
  exact ⟨ps, result, symbol, n, s1, scope, s2, symbols, s3, typed, solid, overloaded, pushed, declared,
    modify_ok.mp run4⟩

theorem Declared.functionSignature (h : Declared fs s) {f : Source.Function}
    (isDecl : fs[s.signatures.length]? = some f) (run : functionSignature s.signatures.length f s = .ok (u, s')) :
    Declared fs s' ∧ s' = { s with scopes := s'.scopes, signatures := s'.signatures } ∧
      ∃ sig : Signature, sig.analysis = .pending ∧ s'.signatures = s.signatures ++ [sig] := by
  obtain ⟨ps, result, symbol, n, s1, scope, s2, symbols, s3, typed, solid, overloaded, pushed, declared,
    rfl⟩ := functionSignature_ok run
  obtain ⟨adds1, ⟨sym, os, atSymbol, isFunction, atOverload⟩, called, scopes1⟩ := Adds.overload h.toScoped overloaded
  obtain ⟨adds2, isNew, scopes2⟩ := Adds.push adds1.isScoped pushed
  rw [scopes1] at isNew scopes2
  have inner : scope ≠ root := isNew ▸ Nat.ne_of_gt h.rooted
  have inside : scope < s2.scopes.scopes.length := by
    rw [isNew, scopes2]
    exact Nat.lt_succ_self _
  have values : ∀ p ∈ f.params.zip ps, p.2.type.IsSolid := by
    intro p mem
    exact ((forall₂_iff_zip.mp typed).2 mem).1
  obtain ⟨adds3, nodup, absent, each, all⟩ := paramSymbols_ok inside inner values adds2.isScoped declared
  obtain ⟨params, names, areParams⟩ := paramList_of_symbols typed each
  -- the three steps as one
  have adds12 := adds1.trans (adds2.mono (fun _ => False.elim) (by simp))
  have adds12' : Adds (fun i => i = root ∨ i = scope) _ s s2 := adds12.mono (fun _ => .inl) fun _ mem => mem
  have adds := adds12'.trans (adds3.mono (fun _ => .inr) (by simp))
  have rest := adds.rest
  have signatures := congrArg CheckState.signatures rest
  have expands : Expands s { s3 with signatures := s3.signatures ++
      [⟨symbol, n, result, symbols, scope, linkName f.name.node n, .pending⟩] } := by
    refine ⟨adds.expands.symbols, adds.expands.functions, adds.expands.scopes, adds.expands.commands, ?_⟩
    rw [signatures]
    exact prefix_append _ _
  refine ⟨h.expand expands { adds.isScoped with } ?_ ?_ (by simp [signatures]) ?_ ?_ ?_,
    (by rw [rest]), ⟨symbol, n, result, symbols, scope, linkName f.name.node n, .pending⟩, rfl, ?_⟩
  · intro i sym' found before id sig foundSig
    have stands := (h.signatures id sig foundSig).scope
    rcases adds.fresh i sym' found before with atRoot | atScope
    · rw [atRoot]
      exact stands.1.symm
    · rw [atScope, isNew]
      exact Nat.ne_of_gt stands.2
  · refine adds.overloads _ (fun i sym' os' found isFunction' o mem => ?_) fun o isNewOne => ?_
    · exact expands.knows h (h.overloads i sym' os' found isFunction' o mem)
    · obtain rfl := mem_singleton.mp isNewOne
      refine ⟨?_, fun index isCommand => ?_⟩
      · simpa [CheckState.callParams?, signatures] using params
      · cases isCommand
  · intro sig found
    simp only [signatures, getElem?_concat_length, Option.some.injEq] at found
    subst found
    refine ⟨⟨⟨f, isDecl, names⟩, ⟨inner, Nat.lt_of_lt_of_le inside adds3.expands.scopes⟩, areParams, nodup,
      ⟨?_, fun _ ty known => .inr (solid ty known)⟩, f, isDecl, rfl,
      (adds2.expands.trans adds3.expands).symbols.calledAtRoot called⟩, Nat.le_of_eq isNew.symm, ?_⟩
    · obtain ⟨sym', os', found', isFunction', more⟩ :=
        (adds2.expands.trans adds3.expands).functions symbol sym os atSymbol isFunction
      exact ⟨sym', os', _, found', isFunction', getElem?_of_isPrefix more atOverload, rfl⟩
    · rintro i ⟨sym', found', inScope, -⟩
      refine all i sym' found' ?_
      -- nothing lay in the scope when it was opened
      rcases adds3.expands.symbols.new_or_old found' with isFresh | ⟨sym'', kind, before, rfl, -⟩
      · exact isFresh
      rcases adds12.expands.symbols.new_or_old before with isFresh | ⟨sym0, kind', older, rfl, -⟩
      · exact absurd ((adds12.fresh i sym'' before isFresh).symm.trans inScope).symm inner
      · exact absurd (inScope.trans isNew) (Nat.ne_of_lt (h.inside i sym0 older))
  · rw [rest]
    exact h.members
  · rw [rest]
    exact h.nested
  · rw [signatures]

theorem Declared.functionsFrom (h : Declared fs s)
    (pending : ∀ sig ∈ s.signatures, sig.analysis = .pending) (rest : fs = fs.take s.signatures.length ++ gs)
    (run : functionsFrom s.signatures.length gs s = .ok (u, s')) :
    Declared fs s' ∧ s' = { s with scopes := s'.scopes, signatures := s'.signatures } ∧
      (∀ sig ∈ s'.signatures, sig.analysis = .pending) ∧ s'.signatures.length = s.signatures.length + gs.length := by
  induction gs generalizing s with
  | nil =>
    cases run
    exact ⟨h, rfl, pending, rfl⟩
  | cons g gs ih =>
    obtain ⟨_, s1, first, others⟩ := bind_ok.mp run
    have drop : fs.drop s.signatures.length = g :: gs := append_cancel_left ((take_append_drop _ fs).trans rest)
    have isDecl : fs[s.signatures.length]? = some g := by
      rw [← head?_drop, drop]
      rfl
    obtain ⟨h1, same1, sig, isPending, signatures⟩ := h.functionSignature isDecl first
    have count : s1.signatures.length = s.signatures.length + 1 := by simp [signatures]
    rw [← count] at others
    have pending1 : ∀ sig ∈ s1.signatures, sig.analysis = .pending := by
      rw [signatures]
      exact forall_mem_append.mpr ⟨pending, forall_mem_singleton.mpr isPending⟩
    have rest1 : fs = fs.take s1.signatures.length ++ gs := by
      have dropped : fs.drop s1.signatures.length = gs := by
        rw [count, ← tail_drop, drop]
        rfl
      rw [← dropped, take_append_drop]
    obtain ⟨h', same', pending', count'⟩ := ih h1 pending1 rest1 others
    refine ⟨h', ?_, pending', ?_⟩
    · rw [same1] at same'
      exact same'
    · rw [count', count, length_cons]
      omega

/-! ## Globals -/

theorem Declared.addGlobal (h : Declared fs s) {name : Ident} {type : Ty} {id : SymbolId}
    {t : ScopeTree SymbolKind} (solid : type.IsSolid)
    (added : s.scopes.add ScopeTree.root name.node name.span (.variable ⟨type, .global⟩) = .ok (id, t)) :
    Declared fs { s with
      scopes := t
      globals := s.globals ++ [id]
      predeclared := s.predeclared ++ [(name.span, id)] } := by
  have grows := Grows.add added
  have scopes : t.scopes.length = s.scopes.scopes.length := grows.length_scopes
  obtain ⟨-, there⟩ := get?_new added
  have expands : Expands s { s with
      scopes := t
      globals := s.globals ++ [id]
      predeclared := s.predeclared ++ [(name.span, id)] } := by
    have expands : Expands s { s with scopes := t } :=
      .of_symbols (fun _ _ => ScopeTree.get?_of_add added) (Nat.le_of_eq scopes.symm)
    exact { expands with }
  have isScoped : Scoped { s with
      scopes := t
      globals := s.globals ++ [id]
      predeclared := s.predeclared ++ [(name.span, id)] } := by
    refine ⟨scopes ▸ h.rooted, h.flat.of_parents grows.scopes, fun i sym found => ?_,
      h.unique.add added, fun i declared => ?_, forall_mem_append.mpr ⟨fun i mem => ?_, forall_mem_singleton.mpr ?_⟩,
      fun entry mem => ?_, fun i v found => ?_⟩
    · rw [scopes]
      rcases get?_added added found with ⟨-, rfl⟩ | before
      · exact h.rooted
      · exact h.inside i sym before
    · rcases declares_added added declared with ⟨rfl, -⟩ | before
      · exact mem_append_right _ (mem_singleton.mpr rfl)
      · exact mem_append_left _ (h.rootVariables i before)
    · exact grows.symbols.declares SymbolKind.IsGlobal.becomes (h.globals i mem)
    · exact ⟨_, there, rfl, type, rfl⟩
    · rcases mem_append.mp mem with old | new
      · exact mem_append_left _ (h.predeclared entry old)
      · rw [mem_singleton.mp new]
        exact mem_append_right _ (mem_singleton.mpr rfl)
    · obtain ⟨sym, atI, isVariable⟩ := bind_eq_some_iff.mp found
      rcases get?_added added atI with ⟨-, rfl⟩ | before
      · cases isVariable
        exact solid
      · exact h.values i v (bind_eq_some_iff.mpr ⟨sym, before, isVariable⟩)
  refine h.expand expands isScoped (fun i sym found absent j sig foundSig => ?_)
    (fun i sym os found isFunction o mem => ?_) (Nat.le_succ _) (fun sig found => ?_) h.members h.nested
  · rcases get?_added added found with ⟨-, rfl⟩ | before
    · exact (h.signatures j sig foundSig).scope.1.symm
    · cases absent.symm.trans before
  · rcases get?_added added found with ⟨-, rfl⟩ | before
    · cases isFunction
    · exact expands.knows h (h.overloads i sym os before isFunction o mem)
  · simp at found

/-- The globals are those of declarations, one for each; and the sizes of arrays are for
arrays. -/
structure Noted (decls : List Source.VarDecl) (s : CheckState) : Prop where
  nodup : s.globals.Nodup
  names : ∀ id ∈ s.globals, ∃ decl ∈ decls, ∃ sym, s.scopes.get? id = some sym ∧ sym.name = decl.name.node
  sized : ∀ entry ∈ s.predeclared, ∃ decl ∈ decls, entry.1 = decl.name.span ∧
    ∃ v, s.scopes.asVariable? entry.2 = some v ∧ (decl.dim.isSome = true → ∃ elem, v.type = .arrayOf elem)

theorem Declared.global (h : Declared fs s) {all : List Source.VarDecl} (noted : Noted all s)
    {decl : Source.VarDecl} (mem : decl ∈ all) (run : global decl s = .ok (u, s')) :
    Declared fs s' ∧ Noted all s' ∧
      s' = { s with scopes := s'.scopes, globals := s'.globals, predeclared := s'.predeclared } := by
  obtain ⟨type, s1, typed, run1⟩ := bind_ok.mp run
  obtain ⟨rfl, solid, sized⟩ := Looks.declType decl type s1 typed
  obtain ⟨id, s2, declared, run2⟩ := bind_ok.mp run1
  cases run2
  unfold addSymbol at declared
  split at declared
  · next id' t added =>
    cases declared
    obtain ⟨absent, there⟩ := get?_new added
    refine ⟨h.addGlobal solid added, ⟨?_, forall_mem_append.mpr ⟨fun i old => ?_, forall_mem_singleton.mpr ?_⟩,
      forall_mem_append.mpr ⟨fun entry old => ?_, forall_mem_singleton.mpr ?_⟩⟩, rfl⟩
    · refine nodup_append.mpr ⟨noted.nodup, by simp, fun i old j isNew same => ?_⟩
      obtain ⟨sym, found, -⟩ := h.globals i old
      rw [same, mem_singleton.mp isNew, absent] at found
      cases found
    · obtain ⟨decl', mem', sym, found, name⟩ := noted.names i old
      obtain ⟨kind, found', -⟩ := (Grows.add added).symbols i sym found
      exact ⟨decl', mem', _, found', name⟩
    · exact ⟨decl, mem, _, there, rfl⟩
    · obtain ⟨decl', mem', span, v, isVariable, sized'⟩ := noted.sized entry old
      exact ⟨decl', mem', span, v, (Grows.add added).symbols.asVariable? isVariable, sized'⟩
    · exact ⟨decl, mem, rfl, _, bind_eq_some_iff.mpr ⟨_, there, rfl⟩, sized⟩
  · cases declared

theorem Declared.globalsOf {all decls : List Source.VarDecl} (h : Declared fs s)
    (noted : Noted all s) (some_of : ∀ decl ∈ decls, decl ∈ all) (run : globals decls s = .ok (u, s')) :
    Declared fs s' ∧ Noted all s' ∧
      s' = { s with scopes := s'.scopes, globals := s'.globals, predeclared := s'.predeclared } := by
  induction decls generalizing s with
  | nil =>
    cases run
    exact ⟨h, noted, rfl⟩
  | cons decl rest ih =>
    obtain ⟨_, s1, first, others⟩ := bind_ok.mp run
    obtain ⟨h1, noted1, same1⟩ := h.global noted (some_of decl (by simp)) first
    obtain ⟨h', noted', same'⟩ := ih h1 noted1 (fun d mem => some_of d (by simp [mem])) others
    refine ⟨h', noted', ?_⟩
    rw [same1] at same'
    exact same'

end Typed

end BasicCompiler
