/-
# The steps of checking a body

Checking a body adds variables and labels to its scope, settles the result of its function, and has other functions
analysed.
-/
import BasicCompiler.Proofs.Typed.Working

namespace BasicCompiler.Typed

open List Check ScopeTree Option

variable {s : CheckState}

/-! ## New symbols -/

section Symbols

variable {scope : ScopeId} {span : Span} {id : SymbolId}

section

variable (added : s.scopes.add scope name span kind = .ok (id, t))
include added

theorem Grows.add : Grows (· = scope) s { s with scopes := t } := by
  obtain ⟨-, -, rfl⟩ := add_ok added
  refine ⟨rfl, rfl, rfl, rfl, parents_insert _, .insert _ _, fun i sym found absent => .inl ?_, rfl,
    fun id sig found => ⟨sig, found, .refl sig⟩⟩
  rw [get?_insert] at found
  split at found
  · cases found
    rfl
  · rw [absent] at found
    cases found

theorem get?_added {sym : Symbol SymbolKind} (found : t.get? i = some sym) : i = id ∧ sym = ⟨name, span, scope, kind⟩ ∨ s.scopes.get? i = some sym := by
  obtain ⟨-, rfl, rfl⟩ := add_ok added
  rw [get?_insert] at found
  split at found
  · next same =>
    cases found
    exact .inl ⟨same, rfl⟩
  · exact .inr found

theorem get?_new : s.scopes.get? id = none ∧ t.get? id = some ⟨name, span, scope, kind⟩ := by
  obtain ⟨-, rfl, rfl⟩ := add_ok added
  rw [get?_insert, if_pos rfl]
  exact ⟨getElem?_eq_none (Nat.le_refl _), rfl⟩

end

theorem Signature.Fits.add {sig : Signature} (h : sig.Fits s i)
    (added : s.scopes.add scope name span kind = .ok (id, t)) : sig.Fits { s with scopes := t } i := by
  obtain ⟨sym, os, o, found, isFunction, atOverload, callee⟩ := h.placed
  exact ⟨⟨sym, os, o, get?_of_add added found, isFunction, atOverload, callee⟩, h.result⟩

theorem Declared.add (h : Declared fs s) (added : s.scopes.add scope name span kind = .ok (id, t))
    (welcome : s.Welcomes ⟨name, span, scope, kind⟩) (knows : ∀ os, kind = .function os → ∀ o ∈ os, s.Knows o) :
    Declared fs { s with scopes := t } := by
  refine h.grow (.add added) (h.unique.add added) (fun i sym found absent => ?_)
    (fun i sym os found isFunction => ?_) fun i sig found => ?_
  · rcases get?_added added found with ⟨-, rfl⟩ | before
    · exact welcome
    · rw [absent] at before
      cases before
  · rcases get?_added added found with ⟨-, rfl⟩ | before
    · exact knows os isFunction
    · exact h.overloads i sym os before isFunction
  · exact (h.signatures i sig found).fits.add added

theorem Sound.add (h : Sound fs s) (added : s.scopes.add scope name span kind = .ok (id, t))
    (welcome : s.Welcomes ⟨name, span, scope, kind⟩) (other : ∀ os, kind ≠ .function os) :
    Sound fs { s with scopes := t } := by
  have declared := h.declared.add added welcome fun os isFunction => absurd isFunction (other os)
  refine h.grow (.add added) declared fun i sig sig' f found found' pending isDone => ?_
  obtain rfl := some.inj (found.symm.trans found')
  rw [pending] at isDone
  cases isDone

end Symbols

theorem Sound.withBody (h : Sound fs s) (body : Body) : Sound fs { s with body } where
  declared :=
    { h.declared with
      toScoped := { h.declared.toScoped with }
      signatures := fun id sig found =>
        have stands := h.declared.signatures id sig found
        { stands with fits := { stands.fits with } } }
  done id sig f found isDone := by
    obtain ⟨decl, isDecl, analysed⟩ := h.done id sig f found isDone
    exact ⟨decl, isDecl, { analysed with }⟩

theorem Grows.withBody (h : Grows here s s') (body : Body) : Grows here s { s' with body } := { h with }

/-! ## Variables and labels of the body at work -/

theorem Ready.welcomes (h : Ready fs s) (name : String) (span : Span) (solid : ∀ v, kind = .variable v → v.type.IsSolid) :
    s.Welcomes ⟨name, span, s.body.scope, kind⟩ :=
  ⟨⟨h.working.inside, fun atRoot => absurd atRoot h.working.scope, solid⟩, h.unawaited⟩

theorem declares_added {scope : ScopeId} {span : Span} {id i : SymbolId}
    (added : s.scopes.add scope name span kind = .ok (id, t)) (declared : t.Declares scope P i) :
    i = id ∧ P kind ∨ s.scopes.Declares scope P i := by
  obtain ⟨sym, found, inScope, holds⟩ := declared
  rcases get?_added added found with ⟨same, rfl⟩ | before
  · exact .inl ⟨same, holds⟩
  · exact .inr ⟨sym, before, inScope, holds⟩

theorem Ready.declareLocal (h : Ready fs s) {id : SymbolId} (solid : type.IsSolid)
    (run : declareLocal name type s = .ok (id, s')) :
    Later s s' ∧ Ready fs s' ∧ s'.scopes.asVariable? id = some ⟨type, .localVar⟩ ∧ id ∈ s'.own := by
  obtain ⟨_, s0, got, looked⟩ := bind_ok.mp run
  cases got
  obtain ⟨id', s1, added, declared⟩ := bind_ok.mp looked
  obtain ⟨_, s2, noted, made⟩ := bind_ok.mp declared
  cases noted
  cases made
  unfold addSymbol at added
  split at added
  · next t isNew =>
    cases added
    obtain ⟨absent, atNew⟩ := get?_new isNew
    have grows := Grows.add isNew
    have sound := h.sound.add isNew (h.welcomes _ _ (by rintro v ⟨⟩; exact solid)) (by simp)
    refine ⟨⟨grows.withBody _, rfl, rfl, rfl, prefix_append _ _⟩, ⟨sound.withBody _, ?_⟩, ?_, ?_⟩
    · refine ⟨h.working.scope, grows.length_scopes ▸ h.working.inside, h.working.function, h.working.main,
        fun i declared => ?_, fun i mem => ?_, ?_, fun i => ⟨fun mem => ?_, fun declared => ?_⟩⟩
      · rcases declares_added isNew declared with ⟨rfl, -⟩ | before
        · exact mem_append_right _ (by simp)
        · refine (mem_append.mp (h.working.own i before)).elim (mem_append_left _) fun mem => ?_
          exact mem_append_right _ (mem_append_left _ mem)
      · rcases mem_append.mp mem with mem | mem
        · exact grows.symbols.declares SymbolKind.IsLocal.becomes (h.working.locals i mem)
        · obtain rfl := mem_singleton.mp mem
          exact ⟨_, atNew, rfl, type, rfl⟩
      · refine nodup_append.mpr ⟨h.working.nodup, by simp, fun i mem j mem' same => ?_⟩
        obtain rfl := mem_singleton.mp mem'
        obtain ⟨sym, found, -⟩ := h.working.locals i mem
        rw [same, absent] at found
        cases found
      · exact grows.symbols.declares SymbolKind.IsLabel.becomes ((h.working.labels i).mp mem)
      · rcases declares_added isNew declared with ⟨-, index, impossible⟩ | before
        · cases impossible
        · exact (h.working.labels i).mpr before
    · exact bind_eq_some_iff.mpr ⟨_, atNew, rfl⟩
    · exact mem_append_right _ (by simp)
  · cases added

/-- Declaring the labels of a body leaves everything else as it is. -/
theorem Ready.labelsFrom (h : Ready fs s) (run : labelsFrom index ids s = .ok ((), s')) :
    Grows (· = s.body.scope) s s' ∧ Ready fs s' ∧ s'.body.scope = s.body.scope ∧
      s'.body.function = s.body.function ∧ (s.body.labels.Nodup → s'.body.labels.Nodup) ∧
        ∃ symbols, s'.body.labels = s.body.labels ++ symbols ∧ s'.Labels ids symbols := by
  induction ids generalizing index s with
  | nil =>
    cases run
    exact ⟨.refl _ _, h, rfl, rfl, fun nodup => nodup, [], by simp, .nil⟩
  | cons name rest ih =>
    obtain ⟨_, s0, got, looked⟩ := bind_ok.mp run
    obtain ⟨rfl, rfl⟩ := get_ok.mp got
    obtain ⟨id, s1, added, declared⟩ := bind_ok.mp looked
    obtain ⟨_, s2, noted, others⟩ := bind_ok.mp declared
    cases noted
    unfold addSymbol at added
    split at added
    · next id t isNew =>
      cases added
      obtain ⟨absent, atNew⟩ := get?_new isNew
      have grows := (Grows.add isNew).withBody { s0.body with labels := s0.body.labels ++ [id] }
      have sound := h.sound.add isNew (h.welcomes _ _ (by simp)) (by simp)
      have ready : Ready fs { s0 with
          scopes := t, body := { s0.body with labels := s0.body.labels ++ [id] } } := by
        refine ⟨sound.withBody _, h.working.scope, grows.length_scopes ▸ h.working.inside,
          h.working.function, h.working.main, fun i declared => ?_, fun i mem => ?_,
          h.working.nodup, fun i => ⟨fun mem => ?_, fun declared => ?_⟩⟩
        · rcases declares_added isNew declared with ⟨-, v, impossible⟩ | before
          · cases impossible
          · exact h.working.own i before
        · exact grows.symbols.declares SymbolKind.IsLocal.becomes (h.working.locals i mem)
        · rcases mem_append.mp mem with mem | mem
          · exact grows.symbols.declares SymbolKind.IsLabel.becomes ((h.working.labels i).mp mem)
          · obtain rfl := mem_singleton.mp mem
            exact ⟨_, atNew, rfl, index, rfl⟩
        · rcases declares_added isNew declared with ⟨rfl, -⟩ | before
          · exact mem_append_right _ (by simp)
          · exact mem_append_left _ ((h.working.labels i).mpr before)
      obtain ⟨grows', ready', scope, function, distinct, symbols, labels, found⟩ := ih ready others
      refine ⟨grows.trans grows', ready', scope, function, fun nodup => distinct ?_, id :: symbols, ?_, .cons ?_ found⟩
      · refine nodup_append.mpr ⟨nodup, by simp, fun i mem j mem' same => ?_⟩
        obtain rfl := mem_singleton.mp mem'
        obtain ⟨sym, atSymbol, -⟩ := (h.working.labels i).mp mem
        rw [same, absent] at atSymbol
        cases atSymbol
      · rw [labels]
        simp
      · obtain ⟨kind, atNew', -⟩ := grows'.symbols id _ atNew
        exact ⟨_, atNew', scope.symm, by simp [sameName]⟩
    · cases added

/-- A body at work stays so while nothing is declared in its scope. -/
theorem Working.grow (h : Working s) (later : Later s s') (locals : s'.body.locals = s.body.locals)
    (fresh : ∀ id sym, s'.scopes.get? id = some sym → s.scopes.get? id = none →
      sym.scope ≠ s.body.scope) : Working s' := by
  have before {P : SymbolKind → Prop} (stable : ∀ k k', k.Becomes k' → P k' → P k) {i : SymbolId}
      (declared : s'.scopes.Declares s'.body.scope P i) : s.scopes.Declares s.body.scope P i := by
    obtain ⟨sym', found', inScope, holds⟩ := declared
    rw [later.scope] at inScope
    rcases later.grows.symbols.new_or_old found' with isNew | ⟨sym, kind, was, rfl, becomes⟩
    · exact absurd inScope (fresh i sym' found' isNew)
    · exact ⟨sym, was, inScope, stable _ _ becomes holds⟩
  refine ⟨?_, ?_, fun id isFunction => ?_, fun isMain id sig' found' => ?_, fun i declared => ?_,
    fun i mem => ?_, ?_, fun i => ⟨fun mem => ?_, fun declared => ?_⟩⟩
  · rw [later.scope]
    exact h.scope
  · rw [later.scope, later.grows.length_scopes]
    exact h.inside
  · rw [later.function] at isFunction
    obtain ⟨sig, found, running, scope⟩ := h.function id isFunction
    obtain ⟨sig', found', becomes⟩ := later.grows.signatures id sig found
    have runs := becomes.analysis
    rw [running] at runs
    exact ⟨sig', found', runs.of_running, by rw [becomes.scope, later.scope, scope]⟩
  · rw [later.function] at isMain
    obtain ⟨sig, found, becomes⟩ := later.grows.signature_of found'
    rw [becomes.scope, later.scope]
    exact h.main isMain id sig found
  · refine later.own (h.own i (before (fun k k' becomes isVariable => ?_) declared))
    obtain ⟨v, same⟩ := isVariable
    exact ⟨v, (becomes.variable_iff v).mp same⟩
  · rw [locals] at mem
    rw [later.scope]
    exact later.grows.symbols.declares SymbolKind.IsLocal.becomes (h.locals i mem)
  · rw [locals]
    exact h.nodup
  · rw [later.labels] at mem
    rw [later.scope]
    exact later.grows.symbols.declares SymbolKind.IsLabel.becomes ((h.labels i).mp mem)
  · rw [later.labels]
    refine (h.labels i).mpr (before (fun k k' becomes isLabel => ?_) declared)
    obtain ⟨index, same⟩ := isLabel
    exact ⟨index, (becomes.label_iff index).mp same⟩

/-! ## Results -/

theorem withResult_becomes (overload : Nat) (result : Ty) (k : SymbolKind) :
    k.Becomes (withResult overload result k) := by
  cases k with
  | function os => exact .inr ⟨os, _, rfl, rfl⟩
  | _ => exact .inl rfl

/-- A symbol after a result was settled is the one of before, but for the result. -/
theorem get?_withResult {t : ScopeTree SymbolKind} {symbol i : SymbolId} {result : Ty}
    (found : (t.modifyKind symbol (withResult overload result)).get? i = some sym') :
    ∃ sym, t.get? i = some sym ∧ (symbol = i ∧ sym'.kind = withResult overload result sym.kind ∨
      sym'.kind = sym.kind) := by
  rw [get?_modifyKind] at found
  obtain ⟨sym, before, same⟩ := map_eq_some_iff.mp found
  refine ⟨sym, before, ?_⟩
  split at same
  · next isSymbol => exact .inl ⟨isSymbol, same ▸ rfl⟩
  · exact .inr (same ▸ rfl)

theorem function_of_withResult (same : withResult overload result k = .function os') :
    ∃ os, k = .function os ∧ os' = os.modify overload fun o => { o with result } := by
  cases k with
  | function os => exact ⟨os, rfl, (SymbolKind.function.inj same).symm⟩
  | _ => cases same

theorem getElem?_withResult {os : List Overload} {n : Nat} (found : os[n]? = some o) (overload : Nat) (result : Ty) :
    ∃ o', (os.modify overload fun o => { o with result })[n]? = some o' ∧ o'.callee = o.callee := by
  rw [getElem?_modify, found]
  refine ⟨_, rfl, ?_⟩
  split <;> rfl

theorem mem_modify {γ : Type} {f : γ → γ} {xs : List γ} {y : γ} (mem : y ∈ xs.modify n f) :
    y ∈ xs ∨ ∃ x, xs[n]? = some x ∧ y = f x := by
  obtain ⟨i, below, rfl⟩ := mem_iff_getElem.mp mem
  rw [getElem_modify]
  have inside : i < xs.length := by simpa using below
  split
  · next same =>
    subst same
    exact .inr ⟨_, getElem?_eq_getElem inside, rfl⟩
  · exact .inl (getElem_mem inside)

section Results

variable {id : FunctionId}

/-- The state with the result of a function settled. -/
def CheckState.settled (s : CheckState) (id : FunctionId) (sig : Signature) (ty : Ty) : CheckState :=
  { s with
    signatures := s.signatures.modify id fun sig => { sig with result := some ty }
    scopes := s.scopes.modifyKind sig.symbol (withResult sig.overload ty) }

theorem setResult_ok (found : s.signatures[id]? = some sig)
    (run : setResult id ty s = .ok ((), s')) : s' = s.settled id sig ty := by
  obtain rfl := modify_ok.mp run
  rw [found]
  rfl

theorem signature_settled (found : (s.settled id sig ty).signatures[i]? = some sig') :
    ∃ before : Signature, s.signatures[i]? = some before ∧
      (id = i ∧ sig' = { before with result := some ty } ∨ sig' = before) := by
  unfold CheckState.settled at found
  rw [getElem?_modify] at found
  obtain ⟨before, found, same⟩ := map_eq_some_iff.mp found
  refine ⟨before, found, ?_⟩
  split at same
  · next isId => exact .inl ⟨isId, same.symm⟩
  · exact .inr same.symm

theorem Grows.settled (found : s.signatures[id]? = some sig) (unknown : sig.result = none) :
    Grows here s (s.settled id sig ty) where
  types := rfl
  commands := rfl
  globals := rfl
  predeclared := rfl
  scopes := rfl
  symbols := .modifyKind _ _ fun sym _ => withResult_becomes _ _ _
  fresh i sym found absent := by
    obtain ⟨before, there, -⟩ := get?_withResult found
    rw [absent] at there
    cases there
  count := by simp [CheckState.settled]
  signatures i before there := by
    unfold CheckState.settled
    rw [getElem?_modify, there]
    refine ⟨_, rfl, ?_⟩
    split
    · next same =>
      subst same
      obtain rfl := some.inj (found.symm.trans there)
      exact ⟨rfl, rfl, rfl, rfl, rfl, fun ty known => by simp [unknown] at known, .same _⟩
    · exact .refl before

theorem Sound.settled (h : Sound fs s) (found : s.signatures[id]? = some sig)
    (unknown : sig.result = none) (solid : s.SolidCommands → ty.IsResult) : Sound fs (s.settled id sig ty) := by
  have grows : Grows (fun _ => False) s (s.settled id sig ty) := .settled found unknown
  obtain ⟨sym, os, o, atSymbol, isFunction, atOverload, callee⟩ := (h.declared.signatures id sig found).fits.placed
  have declared : Declared fs (s.settled id sig ty) := by
    refine h.declared.grow grows (h.declared.unique.modifyKind _ _) (fun i sym' there absent => ?_)
      (fun i sym' os' there isFunction' o' mem => ?_) fun i sig' there => ?_
    · obtain ⟨before, atBefore, -⟩ := get?_withResult there
      rw [absent] at atBefore
      cases atBefore
    · obtain ⟨before, atBefore, ⟨same, changed⟩ | unchanged⟩ := get?_withResult there
      · subst same
        obtain rfl := some.inj (atBefore.symm.trans atSymbol)
        rw [isFunction'] at changed
        obtain ⟨os'', isFunction'', rfl⟩ := function_of_withResult changed.symm
        obtain rfl := SymbolKind.function.inj (isFunction.symm.trans isFunction'')
        rcases mem_modify mem with mem | ⟨x, atX, rfl⟩
        · exact h.declared.overloads _ _ _ atBefore isFunction o' mem
        · obtain rfl := some.inj (atOverload.symm.trans atX)
          have known := h.declared.overloads _ _ _ atBefore isFunction o (mem_of_getElem? atOverload)
          exact ⟨known.1, fun index isCommand => by simp [callee] at isCommand⟩
      · exact h.declared.overloads i before os' atBefore (unchanged ▸ isFunction') o' mem
    · obtain ⟨before, atBefore, becomes⟩ := signature_settled there
      have fits := (h.declared.signatures i before atBefore).fits
      obtain ⟨sym1, os1, o1, atSymbol1, isFunction1, atOverload1, callee1⟩ := fits.placed
      have same : sig'.symbol = before.symbol ∧ sig'.overload = before.overload := by
        rcases becomes with ⟨-, rfl⟩ | rfl <;> exact ⟨rfl, rfl⟩
      refine ⟨?_, fun solidCommands ty' known => ?_⟩
      · unfold CheckState.settled
        rw [same.1, same.2, get?_modifyKind, atSymbol1, map_some]
        split
        · obtain ⟨o2, atOverload2, sameCallee⟩ := getElem?_withResult atOverload1 sig.overload ty
          refine ⟨_, _, o2, rfl, ?_, atOverload2, sameCallee.trans callee1⟩
          rw [isFunction1]
          rfl
        · exact ⟨sym1, os1, o1, rfl, isFunction1, atOverload1, callee1⟩
      · rcases becomes with ⟨-, rfl⟩ | rfl
        · cases known
          exact solid (grows.solidCommands solidCommands)
        · exact fits.result (grows.solidCommands solidCommands) ty' known
  refine h.grow grows declared fun i before after f there there' pending isDone => ?_
  obtain ⟨before', atBefore, becomes⟩ := signature_settled there'
  obtain rfl := some.inj (there.symm.trans atBefore)
  have same : after.analysis = before.analysis := by
    rcases becomes with ⟨-, rfl⟩ | rfl <;> rfl
  rw [same, pending] at isDone
  cases isDone

theorem Ready.setResult (h : Ready fs s) (found : s.signatures[id]? = some sig)
    (unknown : sig.result = none) (solid : s.SolidCommands → ty.IsResult) (run : setResult id ty s = .ok ((), s')) :
    Later s s' ∧ Ready fs s' ∧ ∃ sig' : Signature, s'.signatures[id]? = some sig' ∧ sig'.result = some ty := by
  obtain rfl := setResult_ok found run
  have later : Later s (s.settled id sig ty) := ⟨.settled found unknown, rfl, rfl, rfl, prefix_refl _⟩
  refine ⟨later, ⟨h.sound.settled found unknown solid, ?_⟩, ?_⟩
  · refine h.working.grow later rfl fun i sym there absent => ?_
    obtain ⟨before, atBefore, -⟩ := get?_withResult there
    rw [absent] at atBefore
    cases atBefore
  · refine ⟨{ sig with result := some ty }, ?_, rfl⟩
    unfold CheckState.settled
    rw [getElem?_modify, found]
    simp

end Results

end BasicCompiler.Typed
