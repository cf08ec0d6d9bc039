/-
# The body at work and the bodies that are done

While a body is checked, its variables are exactly its parameters and its locals, all in its own scope. A function
that is done stays well typed in whatever is known later.
-/
import BasicCompiler.Proofs.Typed.Declared
import BasicCompiler.Proofs.Typed.Labels
import BasicCompiler.Proofs.Typed.Placement

namespace BasicCompiler.Typed

open Option List

/-! ## Functions that are done -/

/-- What is known of an analysed function. -/
structure Function.Analysed (s : CheckState) (decl : Source.Function) (sig : Signature)
    (f : Function) : Prop where
  name : f.name = decl.name.node
  span : f.span = decl.span
  params : f.params = sig.params
  result : sig.result = some f.result
  scope : f.scope = sig.scope
  linkName : f.linkName = sig.linkName
  locals : ∀ id ∈ f.locals, s.scopes.Declares f.scope SymbolKind.IsLocal id
  nodup : f.locals.Nodup
  labels : ∀ id ∈ f.labels, s.scopes.Declares f.scope SymbolKind.IsLabel id
  labelled : f.Labelled
  typed : ∀ w, s.view (f.params ++ f.locals) f.labels (some f.result) ≤ w →
    f.body.WellTyped w ∧ ∀ e ∈ f.endValue, e.WellTypedAs w f.result ∧ f.result.isVoid = false
  placed : decl.body.Placed false false → s.Sizes decl.body.decls →
    ∀ w, s.view (f.params ++ f.locals) f.labels (some f.result) ≤ w → f.body.Placed w false false

structure Sound (fs : List Source.Function) (s : CheckState) : Prop where
  declared : Declared fs s
  done : ∀ (id : FunctionId) (sig : Signature) (f : Function), s.signatures[id]? = some sig →
    sig.analysis = .done f → ∃ decl, fs[id]? = some decl ∧ f.Analysed s decl sig

variable {s s' : CheckState}

theorem CheckState.Sizes.before (h : s'.Sizes decls) (declared : Scoped s)
    (predeclared : s'.predeclared = s.predeclared) (symbols : s.scopes.Extends s'.scopes) : s.Sizes decls := by
  intro decl mem sized id found
  obtain ⟨v', elem, isVariable', isArray⟩ := h decl mem sized id (predeclared ▸ found)
  obtain ⟨before, behind, split, -⟩ := lookup_eq_some_iff.mp found
  have isGlobal : id ∈ s.globals := declared.predeclared (decl.name.span, id) (by rw [split]; simp)
  obtain ⟨v, isVariable, -⟩ := (declared.globals id isGlobal).asVariable? fun k isGlobal => by
    obtain ⟨type, same⟩ := isGlobal
    exact ⟨_, same⟩
  obtain rfl := some.inj (isVariable'.symm.trans (symbols.asVariable? isVariable))
  exact ⟨v', elem, isVariable, isArray⟩

theorem Function.Analysed.grow {sig sig' : Signature} {f : Function} (h : f.Analysed s decl sig)
    (declared : Declared fs s) (grows : Grows here s s') (becomes : sig.Becomes sig') :
    f.Analysed s' decl sig' where
  name := h.name
  span := h.span
  params := h.params.trans becomes.params.symm
  result := becomes.result _ h.result
  scope := h.scope.trans becomes.scope.symm
  linkName := h.linkName.trans becomes.linkName.symm
  locals id mem := grows.symbols.declares SymbolKind.IsLocal.becomes (h.locals id mem)
  nodup := h.nodup
  labels id mem := grows.symbols.declares SymbolKind.IsLabel.becomes (h.labels id mem)
  labelled := h.labelled
  typed w le := h.typed w (Outlook.le_trans (grows.view_le declared (fun _ mem => mem) fun _ known => known) le)
  placed isPlaced sizes w le :=
    h.placed isPlaced (sizes.before declared.toScoped grows.predeclared grows.symbols) w
      (Outlook.le_trans (grows.view_le declared (fun _ mem => mem) fun _ known => known) le)

theorem Sound.grow (h : Sound fs s) (grows : Grows here s s') (declared : Declared fs s')
    (news : ∀ (id : FunctionId) (sig sig' : Signature) (f : Function), s.signatures[id]? = some sig →
      s'.signatures[id]? = some sig' → sig.analysis = .pending → sig'.analysis = .done f →
        ∃ decl, fs[id]? = some decl ∧ f.Analysed s' decl sig') : Sound fs s' where
  declared := declared
  done id sig' f found' isDone := by
    obtain ⟨sig, found, becomes⟩ := grows.signature_of found'
    have before := becomes.analysis
    rw [isDone] at before
    generalize was : sig.analysis = a at before
    cases before with
    | same =>
      obtain ⟨decl, isDecl, analysed⟩ := h.done id sig f found was
      exact ⟨decl, isDecl, analysed.grow h.declared grows becomes⟩
    | finished => exact news id sig sig' f found found' was isDone

/-! ## The body at work -/

namespace CheckState

def working? (s : CheckState) : Option Signature := s.body.function.bind (s.signatures[·]?)

def own (s : CheckState) : List SymbolId := (s.working?.map (·.params)).getD [] ++ s.body.locals

def outlook (s : CheckState) : Outlook := s.view s.own s.body.labels (s.working?.bind (·.result))

def Forces (s : CheckState) (P : Outlook → Prop) : Prop := ∀ w, s.outlook ≤ w → P w

def Labels (s : CheckState) (ids : List Ident) (symbols : List SymbolId) : Prop :=
  List.Forall₂ (fun id symbol => ∃ sym, s.scopes.get? symbol = some sym ∧
    sym.scope = s.body.scope ∧ sameName sym.name id.node = true) ids symbols

theorem Labels.unique (h : s.Labels ids symbols) (h' : s.Labels ids symbols') (unique : s.scopes.IsUnique) :
    symbols = symbols' := by
  induction h generalizing symbols' with
  | nil =>
    cases h'
    rfl
  | cons first _ ih =>
    cases h' with
    | cons first' rest' =>
      obtain ⟨a, foundA, inScopeA, namedA⟩ := first
      obtain ⟨b, foundB, inScopeB, namedB⟩ := first'
      have same : sameName a.name b.name = true :=
        decide_eq_true ((of_decide_eq_true namedA).trans (of_decide_eq_true namedB).symm)
      rw [unique _ _ a b foundA foundB (inScopeA.trans inScopeB.symm) same, ih rest']

end CheckState

structure Working (s : CheckState) : Prop where
  scope : s.body.scope ≠ ScopeTree.root
  inside : s.body.scope < s.scopes.scopes.length
  function : ∀ id, s.body.function = some id →
    ∃ sig : Signature, s.signatures[id]? = some sig ∧ sig.analysis = .running ∧ sig.scope = s.body.scope
  main : s.body.function = none →
    ∀ (id : FunctionId) (sig : Signature), s.signatures[id]? = some sig → sig.scope ≠ s.body.scope
  own : ∀ id, s.scopes.Declares s.body.scope (fun k => ∃ v, k = .variable v) id → id ∈ s.own
  locals : ∀ id ∈ s.body.locals, s.scopes.Declares s.body.scope SymbolKind.IsLocal id
  nodup : s.body.locals.Nodup
  labels : ∀ id, id ∈ s.body.labels ↔ s.scopes.Declares s.body.scope SymbolKind.IsLabel id

/-- The body at work is known, and so is everything else. -/
structure Ready (fs : List Source.Function) (s : CheckState) : Prop where
  sound : Sound fs s
  working : Working s

theorem Ready.declared (h : Ready fs s) : Declared fs s := h.sound.declared

theorem Ready.unawaited (h : Ready fs s) : ¬ s.Awaits s.body.scope := by
  rintro ⟨id, sig, found, pending, same⟩
  cases function : s.body.function with
  | none => exact h.working.main function id sig found same
  | some id' =>
    obtain ⟨sig', found', running, same'⟩ := h.working.function id' function
    obtain rfl := h.declared.apart id id' sig sig' found found' (same.trans same'.symm)
    obtain rfl := some.inj (found.symm.trans found')
    rw [pending] at running
    cases running

/-! ## Later states of one body -/

/-- A later state of the body at work. -/
structure Later (s s' : CheckState) : Prop where
  grows : Grows (· = s.body.scope) s s'
  scope : s'.body.scope = s.body.scope
  function : s'.body.function = s.body.function
  labels : s'.body.labels = s.body.labels
  locals : s.body.locals <+: s'.body.locals

namespace Later

theorem refl (s : CheckState) : Later s s := ⟨.refl _ s, rfl, rfl, rfl, prefix_refl _⟩

section

variable (h : Later s s')
include h

theorem trans (h' : Later s' s'') : Later s s'' where
  grows := h.grows.trans (h.scope ▸ h'.grows)
  scope := h'.scope.trans h.scope
  function := h'.function.trans h.function
  labels := h'.labels.trans h.labels
  locals := h.locals.trans h'.locals

theorem working? (found : s.working? = some sig) : ∃ sig', s'.working? = some sig' ∧ sig.Becomes sig' := by
  obtain ⟨id, function, found⟩ := bind_eq_some_iff.mp found
  obtain ⟨sig', found', becomes⟩ := h.grows.signatures id sig found
  refine ⟨sig', bind_eq_some_iff.mpr ⟨id, ?_, found'⟩, becomes⟩
  rw [h.function, function]

theorem own {id : SymbolId} (mem : id ∈ s.own) : id ∈ s'.own := by
  rcases mem_append.mp mem with isParam | isLocal
  · refine mem_append_left _ ?_
    cases found : s.working? with
    | none => simp [found] at isParam
    | some sig =>
      obtain ⟨sig', found', becomes⟩ := h.working? found
      simp only [found, map_some, getD_some] at isParam
      simp only [found', map_some, getD_some, becomes.params]
      exact isParam
  · exact mem_append_right _ (h.locals.subset isLocal)

theorem outlook_le (declared : Declared fs s) : s.outlook ≤ s'.outlook := by
  unfold CheckState.outlook
  rw [h.labels]
  refine h.grows.view_le declared (fun id mem => h.own mem) fun ty known => ?_
  obtain ⟨sig, found, result⟩ := bind_eq_some_iff.mp known
  obtain ⟨sig', found', becomes⟩ := h.working? found
  exact bind_eq_some_iff.mpr ⟨sig', found', becomes.result ty result⟩

theorem forces (declared : Declared fs s) (forced : s.Forces P) : s'.Forces P := fun w le => forced w (Outlook.le_trans (h.outlook_le declared) le)

theorem labelsOf (found : s.Labels ids symbols) : s'.Labels ids symbols := by
  refine Forall₂.imp (fun id symbol named => ?_) found
  obtain ⟨sym, atSymbol, inScope, same⟩ := named
  obtain ⟨kind, atSymbol', -⟩ := h.grows.symbols symbol sym atSymbol
  exact ⟨_, atSymbol', inScope.trans h.scope.symm, same⟩

theorem sizes (declared : Scoped s) (sizes : s'.Sizes decls) : s.Sizes decls :=
  sizes.before declared h.grows.predeclared h.grows.symbols

end

end Later

end BasicCompiler.Typed
