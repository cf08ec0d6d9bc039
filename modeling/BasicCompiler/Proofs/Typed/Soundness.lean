/-
# Bodies that are checked are well typed

Checking leads from a state where all is known to a later one where it is, and the tree it answers is well typed in
whatever knows as much as that state.
-/
import BasicCompiler.Proofs.Typed.Keeping

namespace BasicCompiler.Typed

open Check CheckState Option List

variable {s : CheckState}

def Looks (s : CheckState) (m : Check α) (Q : α → Prop) : Prop := ∀ a s', m s = .ok (a, s') → s' = s ∧ Q a

namespace Looks

theorem pure {a : α} (answer : Q a) : Looks s (Pure.pure a) Q := by
  intro b s' run
  cases run
  exact ⟨rfl, answer⟩

theorem fail (fault : CheckFault) (span : Span) : Looks s (fail fault span) Q := by
  intro a s' run
  cases run

theorem bind (first : Looks s m Q) (second : ∀ a, Q a → Looks s (f a) R) : Looks s (m >>= f) R := by
  intro b s' run
  obtain ⟨a, s1, run1, run2⟩ := bind_ok.mp run
  obtain ⟨rfl, answer⟩ := first a s1 run1
  exact second a answer b s' run2

theorem get (next : Looks s (f s) Q) : Looks s (MonadState.get >>= f) Q := by
  intro a s' run
  obtain ⟨t, s1, got, run⟩ := bind_ok.mp run
  cases got
  exact next a s' run

theorem of_look (look : CheckState → α) : Looks s (fun s => .ok (look s, s)) (· = look s) := by
  intro a s' run
  cases run
  exact ⟨rfl, rfl⟩

theorem rule (r : TypeTable → Result α) : Looks s (rule r) fun a => r s.types = .ok a := by
  intro a s' run
  obtain ⟨typed, rfl⟩ := rule_ok.mp run
  exact ⟨rfl, typed⟩

theorem symbolKind (id : SymbolId) : Looks s (symbolKind id) (· = (s.scopes.get? id).map (·.kind)) := of_look _

theorem signature (id : FunctionId) (span : Span) :
    Looks s (signature id span) fun sig => s.signatures[id]? = some sig := by
  refine get ?_
  cases found : s.signatures[id]? with
  | some sig => exact pure rfl
  | none => exact fail _ _

end Looks

/-- From `s` a check of the body at work leads to a later state, and answers what it
should. -/
def Keeps (fs : List Source.Function) (s : CheckState) (m : Check α) (Q : CheckState → α → Prop) :
    Prop :=
  ∀ a s', m s = .ok (a, s') → Ready fs s → Later s s' ∧ Ready fs s' ∧ Q s' a

namespace Keeps

theorem pure {a : α} (answer : Ready fs s → Q s a) : Keeps fs s (Pure.pure a) Q := by
  intro b s' run ready
  cases run
  exact ⟨.refl _, ready, answer ready⟩

theorem fail (fault : CheckFault) (span : Span) : Keeps fs s (fail fault span) Q := by
  intro a s' run
  cases run

theorem bind (first : Keeps fs s m Q) (second : ∀ a s1, Ready fs s1 → Later s s1 → Q s1 a → Keeps fs s1 (f a) R) :
    Keeps fs s (m >>= f) R := by
  intro b s' run ready
  obtain ⟨a, s1, run1, run2⟩ := bind_ok.mp run
  obtain ⟨later, ready1, answer⟩ := first a s1 run1 ready
  obtain ⟨later', ready', answer'⟩ := second a s1 ready1 later answer b s' run2 ready1
  exact ⟨later.trans later', ready', answer'⟩

theorem assuming (h : Ready fs s → Keeps fs s m Q) : Keeps fs s m Q := fun a s' run ready => h ready a s' run ready

theorem weaken (h : Keeps fs s m Q) (more : ∀ s' a, Ready fs s' → Q s' a → Q' s' a) : Keeps fs s m Q' := by
  intro a s' run ready
  obtain ⟨later, ready', answer⟩ := h a s' run ready
  exact ⟨later, ready', more s' a ready' answer⟩

theorem look (looks : Looks s m Q) (next : ∀ a, Q a → Keeps fs s (f a) R) : Keeps fs s (m >>= f) R := by
  intro b s' run ready
  obtain ⟨a, s1, run1, run2⟩ := bind_ok.mp run
  obtain ⟨rfl, answer⟩ := looks a s1 run1
  exact next a answer b s' run2 ready

theorem get (next : Keeps fs s (f s) Q) : Keeps fs s (MonadState.get >>= f) Q := by
  intro a s' run ready
  obtain ⟨t, s1, got, run⟩ := bind_ok.mp run
  cases got
  exact next a s' run ready

theorem rule {r : TypeTable → Result α} (answers : ∀ a, r s.types = .ok a → Ready fs s → Q s a) :
    Keeps fs s (rule r) Q := by
  intro a s' run ready
  obtain ⟨typed, rfl⟩ := rule_ok.mp run
  exact ⟨.refl _, ready, answers a typed ready⟩

theorem optional {check : α → Check β} {Q : CheckState → β → Prop}
    (each : ∀ a, Keeps fs s (check a) Q) (a : Option α) :
    Keeps fs s (optional check a) fun s' b => b.isSome = a.isSome ∧ ∀ x ∈ b, Q s' x := by
  cases a with
  | none => exact pure fun _ => ⟨rfl, by simp⟩
  | some a =>
    refine bind (each a) fun b s1 _ _ answer => pure fun _ => ⟨rfl, ?_⟩
    simpa using answer

end Keeps

/-! ## Names -/

def CheckState.Sees (s : CheckState) (id : SymbolId) : Prop :=
  ∀ v, s.scopes.asVariable? id = some v → id ∈ s.own ++ s.globals

variable {id : SymbolId}

theorem Ready.sees_of_find (h : Ready fs s) (found : s.scopes.find s.body.scope name .ancestors = some id) :
    s.Sees id := by
  intro v isVariable
  obtain ⟨sym, atId, scope⟩ := ScopeTree.find_get? h.declared.flat found
  obtain ⟨sym', atId', asVariable⟩ := bind_eq_some_iff.mp isVariable
  obtain rfl := some.inj (atId.symm.trans atId')
  have kind := SymbolKind.asVariable?_eq_some.mp asVariable
  rcases scope with inBody | atRoot
  · exact mem_append_left _ (h.working.own id ⟨sym, atId, inBody, v, kind⟩)
  · exact mem_append_right _ (h.declared.rootVariables id ⟨sym, atId, atRoot, v, kind⟩)

theorem CheckState.Sees.outlook (h : s.Sees id) (isVariable : s.scopes.asVariable? id = some v) :
    s.outlook.sees? id = some v := by
  unfold CheckState.outlook CheckState.view
  dsimp only
  rw [if_pos (h v isVariable), isVariable]

theorem Ready.outlook_isSolid (h : Ready fs s) (solid : s.SolidCommands) : s.outlook.IsSolid where
  sees id v found := by
    unfold outlook view at found
    dsimp only at found
    split at found
    · exact h.declared.values id v found
    · cases found
  members := h.declared.members
  result callee ty known := by
    cases callee with
    | function id =>
      obtain ⟨sig, found, result⟩ := bind_eq_some_iff.mp known
      exact (h.declared.signatures id sig found).fits.result solid ty result
    | command index =>
      obtain ⟨c, found, rfl⟩ := map_eq_some_iff.mp known
      exact (solid c (mem_of_getElem? found)).2
  target ty impossible := by cases impossible

variable (name : String)

namespace Keeps

theorem lookUp : Keeps fs s (lookUp name .ancestors) fun s' found => ∀ id ∈ found, s'.Sees id := by
  intro found s' run ready
  cases run
  exact ⟨.refl _, ready, fun id found => ready.sees_of_find found⟩

theorem varExpr (sees : s.Sees id) (span : Span) :
    Keeps fs s (varExpr id span) fun s' e => s'.Forces (e.WellTyped ·) ∧
      ∃ v, s.scopes.asVariable? id = some v ∧ e = .var ⟨v.type, span⟩ id := by
  refine get ?_
  split
  · next v found =>
    have isVariable : s.scopes.asVariable? id = some v := bind_eq_some_iff.mpr ⟨_, found, rfl⟩
    refine pure fun _ => ⟨fun w le => ⟨v, ?_, rfl⟩, v, isVariable, rfl⟩
    exact le.sees id v (sees.outlook isVariable)
  · exact fail _ _
  · exact fail _ _

end Keeps

/-! ## Functions that are analysed on the way -/

/-- Having a function analysed that waits keeps what is known, and then it is done. -/
def Analyses (fs : List Source.Function) (analyse : FunctionId → Check Unit) : Prop :=
  ∀ (id : FunctionId) (sig : Signature) (s s' : CheckState), Sound fs s →
    s.signatures[id]? = some sig → sig.analysis = .pending → analyse id s = .ok ((), s') →
      Grows (fun _ => False) s s' ∧ s'.body = s.body ∧ Sound fs s' ∧
        ∃ (sig' : Signature) (f : Function), s'.signatures[id]? = some sig' ∧ sig'.analysis = .done f

theorem Ready.resume (h : Ready fs s) (grows : Grows (fun _ => False) s s')
    (body : s'.body = s.body) (sound : Sound fs s') : Later s s' ∧ Ready fs s' := by
  have later : Later s s' := by
    have locals : s'.body.locals = s.body.locals := congrArg Body.locals body
    exact ⟨grows.mono fun _ impossible => impossible.elim, congrArg Body.scope body,
      congrArg Body.function body, congrArg Body.labels body, locals ▸ prefix_refl _⟩
  refine ⟨later, sound, h.working.grow later (by rw [body]) fun id sym found absent same => ?_⟩
  rcases grows.fresh id sym found absent with impossible | awaited
  · exact impossible
  · exact h.unawaited (same ▸ awaited)

namespace Keeps

theorem resultOf (analyses : Analyses fs analyse) (id : FunctionId) (span : Span) :
    Keeps fs s (resultOf analyse id span) fun s' ty => s'.callResult? (.function id) = some ty := by
  refine look (Looks.signature id span) fun sig found => ?_
  cases result : sig.result with
  | some ty => exact pure fun _ => bind_eq_some_iff.mpr ⟨sig, found, result⟩
  | none =>
    cases isPending : sig.analysis.isPending with
    | false => exact fail _ _
    | true =>
      have pending : sig.analysis = .pending := by
        generalize sig.analysis = a at isPending
        cases a <;> simp_all [Analysis.isPending]
      intro ty s' run ready
      obtain ⟨_, s1, analysed, run⟩ := bind_ok.mp run
      obtain ⟨grows, body, sound, sig1, f, found1, isDone⟩ := analyses id sig _ s1 ready.sound found pending analysed
      obtain ⟨later, ready1⟩ := ready.resume grows body sound
      obtain ⟨sig2, s2, signed, made⟩ := bind_ok.mp run
      obtain ⟨rfl, found2⟩ := Looks.signature id span sig2 s2 signed
      cases made
      obtain rfl := some.inj (found1.symm.trans found2)
      obtain ⟨decl, -, analysed⟩ := sound.done id sig1 f found1 isDone
      refine ⟨later, ready1, bind_eq_some_iff.mpr ⟨sig1, found1, ?_⟩⟩
      rw [analysed.result]
      rfl

/-! ## Expressions -/

def Callable (s : CheckState) : Check.CalleeKind → Prop
  | .type _ => True
  | .overloads os => ∀ o ∈ os, s.Knows o

theorem Callable.grow (h : Callable s kind) (declared : Declared fs s) (later : Later s s') : Callable s' kind := by
  cases kind with
  | type t => trivial
  | overloads os => exact fun o mem => later.grows.knows declared (h o mem)

theorem calleeKind (callee : Ident) : Keeps fs s (calleeKind callee) fun s' kind => Callable s' kind := by
  refine bind (lookUp callee.node) fun found s1 ready _ _ => ?_
  cases found with
  | none =>
    refine look (Looks.pure rfl) ?_
    rintro _ rfl
    dsimp only
    split
    · next impossible => cases impossible
    · exact pure fun _ => trivial
    · exact fail _ _
    · exact fail _ _
  | some id =>
    refine look (Looks.symbolKind id) fun kind isKind => ?_
    dsimp only
    split
    · refine pure fun _ => ?_
      obtain ⟨sym, found, same⟩ := map_eq_some_iff.mp isKind.symm
      exact ready.declared.overloads id sym _ found same
    · exact pure fun _ => trivial
    · exact fail _ _
    · exact fail _ _

section

variable (analyses : Analyses fs analyse)
include analyses
set_option linter.unusedSectionVars false

theorem call (callable : Callable s kind) (callee : Ident)
    (h : ∀ e ∈ args, s.Forces (e.WellTyped ·)) (span : Span) :
    Keeps fs s (Check.call analyse kind callee args span) fun s' e => s'.Forces (e.WellTyped ·) := by
  cases kind with
  | type t =>
    unfold Check.call
    exact rule fun e typed _ w le => typeConstruct_wellTyped (fun e mem => h e mem w le) typed
  | overloads os =>
    refine assuming fun ready => look (Looks.rule _) fun chosen resolved => ?_
    obtain ⟨o, passed⟩ := chosen
    have typed (w : Outlook) (le : s.outlook ≤ w) := resolveCall_wellTyped (fun e mem => h e mem w le) resolved
    obtain ⟨mem, accepts, -⟩ := typed _ Outlook.le_rfl
    obtain ⟨known, ofCommand⟩ := callable o mem
    have finish {s2 : CheckState} {ty : Ty} (later : Later s s2)
        (result : s2.callResult? o.callee = some ty) :
        Keeps fs s2 (Pure.pure (Expr.call ⟨ty, span⟩ o.callee passed)) fun s' e => s'.Forces (e.WellTyped ·) := by
      refine pure fun _ w le => ⟨o.params, ?_, accepts, ?_, ?_⟩
      · exact le.params _ _ (later.grows.callParams? ready.declared known)
      · exact (typed w (Outlook.le_trans (later.outlook_le ready.declared) le)).2.2
      · exact le.result _ _ result
    dsimp only
    cases isCallee : o.callee with
    | function id =>
      rw [isCallee] at finish
      exact bind (resultOf analyses id _) fun _ _ _ later result => finish later result
    | command index =>
      have result := ofCommand index isCallee
      rw [isCallee] at finish result
      exact finish (.refl s) result

mutual

theorem expr : (e : Source.Expr) → (s : CheckState) →
    Keeps fs s (expr analyse e) fun s' e => s'.Forces (e.WellTyped ·)
  | .literal span value, s => pure fun _ _ _ => typeLiteral_wellTyped span value
  | .name span id, s => by
    refine bind (lookUp id.node) fun found s1 _ _ looked => ?_
    cases found with
    | none => exact fail _ _
    | some symbol =>
      exact (varExpr (looked symbol rfl) span).weaken fun _ _ _ typed => typed.1
  | .member span base name, s =>
    bind (expr base s) fun base s1 _ _ typed =>
      rule fun e made _ w le => typeMember_wellTyped (typed w le) (by rw [le.types]; exact made)
  | .index span base place, s => by
    refine bind (expr base s) fun base s1 ready1 _ typedBase => ?_
    refine look (Looks.rule _) fun elem isElement => ?_
    refine bind (expr place s1) fun place s2 _ later typedPlace => ?_
    refine look (Looks.rule _) fun place' coerced => pure fun _ w le => ?_
    obtain ⟨typed, atPlace⟩ := coerceIndex_wellTyped (typedPlace w le) coerced
    exact ⟨later.forces ready1.declared typedBase w le, typed, elementType_ok isElement, atPlace⟩
  | .call span callee args _, s => by
    refine bind (calleeKind callee) fun kind s1 ready1 _ callable => ?_
    refine bind (exprs args s1) fun args s2 _ later typed => ?_
    exact call analyses (callable.grow ready1.declared later) callee typed span
  | .unary span op operand, s =>
    bind (expr operand s) fun operand s1 _ _ typed =>
      rule fun e made _ w le => typeUnary_wellTyped (typed w le) made
  | .binary span op left right, s =>
    bind (expr left s) fun left s1 ready1 _ typedLeft =>
      bind (expr right s1) fun right s2 _ later typedRight =>
        rule fun e made _ w le =>
          typeBinary_wellTyped (later.forces ready1.declared typedLeft w le) (typedRight w le) made

theorem exprs : (es : List Source.Expr) → (s : CheckState) →
    Keeps fs s (exprs analyse es) fun s' es => ∀ e ∈ es, s'.Forces (e.WellTyped ·)
  | [], s => pure fun _ => by simp
  | e :: rest, s =>
    bind (expr e s) fun e s1 ready1 _ typed =>
      bind (exprs rest s1) fun others s2 _ later typedOthers =>
        pure fun _ => forall_mem_cons.mpr ⟨later.forces ready1.declared typed, typedOthers⟩

end

theorem exprAs (target : Ty) (e : Source.Expr) (s : CheckState) :
    Keeps fs s (exprAs analyse target e) fun s' e => s'.Forces (e.WellTypedAs · target) :=
  bind (expr analyses e s) fun _ _ _ _ typed => rule fun _ coerced _ w le => coerce_wellTyped (typed w le) coerced

theorem exprsAs (target : Ty) (es : List Source.Expr) (s : CheckState) :
    Keeps fs s (exprsAs analyse target es) fun s' es => s'.Forces (Expr.WellTypedAll · target es) := by
  induction es generalizing s with
  | nil => exact pure fun _ _ _ => trivial
  | cons e rest ih =>
    refine bind (exprAs analyses target e s) fun e s1 ready1 _ typed => ?_
    refine bind (ih s1) fun others s2 _ later typedOthers => pure fun _ w le => ?_
    obtain ⟨typedFirst, atFirst⟩ := later.forces ready1.declared typed w le
    exact ⟨typedFirst, atFirst, typedOthers w le⟩

end

end Keeps

/-! ## Types that are written -/

theorem suffixType_isSolid : (suffixType name).IsSolid := by
  unfold suffixType
  split <;> simp [Ty.IsSolid, Ty.string, Ty.int32]

theorem loopVariableType_isSolid : (loopVariableType name).IsSolid := by
  unfold loopVariableType
  split <;> simp [Ty.IsSolid, Ty.string]

namespace Looks

theorem resolveTypeName (name : Source.TypeName) : Looks s (Check.resolveTypeName name) Ty.IsSolid := by
  have finish {base : Ty} (solid : base.IsSolid) :
      Looks s (Pure.pure (if name.isArray then .arrayOf base else base)) Ty.IsSolid := by
    refine pure ?_
    split <;> exact solid
  have failing {fault : CheckFault} {span : Span} {f : Ty → Check Ty} : Looks s (Check.fail fault span >>= f) Ty.IsSolid :=
    bind (fail (Q := fun _ => False) _ _) fun _ impossible => impossible.elim
  unfold Check.resolveTypeName
  dsimp only
  split
  · exact failing
  · exact failing
  · exact failing
  · next t notVoid _ _ _ =>
    refine bind (pure (Q := Ty.IsSolid) fun void => ?_) fun _ solid => finish solid
    exact notVoid (by rw [void])
  · refine bind (of_look _) fun kind _ => ?_
    split
    · exact bind (pure (Q := Ty.IsSolid) trivial) fun _ solid => finish solid
    · exact failing

theorem typeOrSuffix (type : Option Source.TypeName) : Looks s (typeOrSuffix name type) Ty.IsSolid := by
  cases type with
  | none => exact pure (suffixType_isSolid name)
  | some type => exact resolveTypeName type

theorem declType (decl : Source.VarDecl) :
    Looks s (declType decl) fun ty => ty.IsSolid ∧ (decl.dim.isSome = true → ∃ elem, ty = .arrayOf elem) := by
  refine bind (typeOrSuffix _ _) fun base solid => pure ⟨?_, fun sized => ?_⟩
  · split <;> exact solid
  · rw [if_pos sized]
    exact ⟨base, rfl⟩

end Looks

namespace Keeps

/-! ## Statements without statements inside -/

theorem declareLocal {id : Ident} {type : Ty} (solid : type.IsSolid) :
    Keeps fs s (declareLocal id type) fun s' symbol =>
      s'.Sees symbol ∧ s'.scopes.asVariable? symbol = some ⟨type, .localVar⟩ := by
  intro symbol s' run ready
  obtain ⟨later, ready', isVariable, mem⟩ := ready.declareLocal solid run
  exact ⟨later, ready', fun _ _ => mem_append_left _ mem, isVariable⟩

theorem declaredVariable (decl : Source.VarDecl) :
    Keeps fs s (declaredVariable decl) fun s' id =>
      s'.Sees id ∧ (s'.Sizes [decl] → decl.dim.isSome = true → s'.outlook.SeesArray id) := by
  refine get ?_
  split
  · split
    · next id found =>
      refine pure fun ready => ?_
      obtain ⟨before, behind, split, -⟩ := lookup_eq_some_iff.mp found
      have isGlobal : id ∈ s.globals := ready.declared.predeclared (decl.name.span, id) (by rw [split]; simp)
      have sees : s.Sees id := fun _ _ => mem_append_right _ isGlobal
      refine ⟨sees, fun sizes sized => ?_⟩
      obtain ⟨v, elem, isVariable, isArray⟩ := sizes decl (mem_singleton_self _) sized id found
      exact ⟨v, elem, sees.outlook isVariable, isArray⟩
    · exact fail _ _
  · refine look (Looks.declType decl) fun type isType => ?_
    refine (declareLocal isType.1).weaken fun s' id _ declared => ⟨declared.1, fun _ sized => ?_⟩
    obtain ⟨elem, isArray⟩ := isType.2 sized
    exact ⟨_, elem, declared.1.outlook declared.2, isArray⟩

def IsPlace (s : CheckState) (e : Expr) : Prop := s.Forces (e.WellTyped ·) ∧ e.isLvalue = true

theorem placeExpr (analyses : Analyses fs analyse) (target : Source.Expr) :
    Keeps fs s (placeExpr analyse target) IsPlace := by
  refine bind (expr analyses target s) fun target s1 _ _ typed => ?_
  split
  · next isLvalue => exact pure fun _ => ⟨typed, isLvalue⟩
  · exact fail _ _

theorem varExpr_isPlace (sees : s.Sees id) (span : Span) : Keeps fs s (Check.varExpr id span) IsPlace := by
  refine (varExpr sees span).weaken fun s' e _ typed => ⟨typed.1, ?_⟩
  obtain ⟨-, v, -, rfl⟩ := typed
  rfl

theorem assignTarget (analyses : Analyses fs analyse) (target : Source.Expr) (isPlain : Bool) :
    Keeps fs s (Check.assignTarget analyse target isPlain) IsPlace := by
  unfold Check.assignTarget
  split
  · exact placeExpr analyses target
  · next id _ =>
    refine bind (lookUp id.node) fun found s1 _ _ _ => ?_
    cases found with
    | some symbol => exact placeExpr analyses target
    | none =>
      dsimp only
      split
      · exact bind (declareLocal (suffixType_isSolid _)) fun symbol s2 _ _ declared => varExpr_isPlace declared.1 _
      · exact placeExpr analyses target

theorem loopVariableType_counts {name : String} {hasStep : Bool}
    (step : lastChar name = some '$' → hasStep = true) : Counts (loopVariableType name) hasStep := by
  unfold loopVariableType
  split
  · exact .inl rfl
  · next isString => exact .inr ⟨rfl, step isString⟩
  · exact .inl rfl

def IsCounter (hasStep : Bool) (s : CheckState) (e : Expr) : Prop :=
  s.Forces (e.WellTyped ·) ∧ (∃ info id, e = .var info id) ∧ Counts e.ty hasStep

theorem loopVariable (id : Ident) (hasStep : Bool) : Keeps fs s (loopVariable id hasStep) (IsCounter hasStep) := by
  refine bind (lookUp id.node) fun found s1 _ _ sees => ?_
  cases found with
  | some symbol =>
    refine bind (varExpr (sees symbol rfl) id.span) fun var s2 _ _ typed => ?_
    split
    · next numeric =>
      obtain ⟨typed, v, -, isVar⟩ := typed
      exact pure fun _ => ⟨typed, ⟨_, symbol, isVar⟩, .inl numeric⟩
    · exact rule fun _ refused => by cases refused
  | none =>
    dsimp only
    split
    · exact fail _ _
    · next step =>
      refine bind (declareLocal (loopVariableType_isSolid _)) fun symbol s2 _ _ declared => ?_
      refine (varExpr declared.1 id.span).weaken fun s' e _ typed => ?_
      obtain ⟨typed, v, isVariable, rfl⟩ := typed
      refine ⟨typed, ⟨_, symbol, rfl⟩, ?_⟩
      obtain rfl := some.inj (declared.2.symm.trans isVariable)
      exact loopVariableType_counts (by simpa using step)

theorem selector (analyses : Analyses fs analyse) (e : Source.Expr) :
    Keeps fs s (selector analyse e) fun s' e => s'.Forces (e.WellTyped ·) ∧ isSelectable e.ty = true := by
  refine bind (expr analyses e s) fun e s1 _ _ typed => ?_
  split
  · next selectable => exact pure fun _ => ⟨typed, selectable⟩
  · exact rule fun _ refused => by cases refused

theorem returnValue (analyses : Analyses fs analyse) (e : Source.Expr) :
    Keeps fs s (returnValue analyse e) fun s' e =>
      s'.Forces fun w => e.WellTyped w ∧ w.returns? = some e.ty ∧ e.ty.isVoid = false := by
  refine bind (expr analyses e s) fun value s1 ready _ typed => get ?_
  split
  · exact fail _ _
  · next id function =>
    refine look (Looks.signature id _) fun sig found => ?_
    have working : s1.working? = some sig := by
      unfold working?
      rw [function]
      exact found
    cases result : sig.result with
    | some ty =>
      dsimp only
      split
      · exact fail _ _
      · next notVoid =>
        refine rule fun value' coerced _ w le => ?_
        obtain ⟨typed', atResult⟩ := coerce_wellTyped (typed w le) coerced
        rw [atResult]
        refine ⟨typed', le.returns _ ?_, Bool.eq_false_iff.mpr notVoid⟩
        exact bind_eq_some_iff.mpr ⟨sig, working, result⟩
    | none =>
      dsimp only
      split
      · exact fail _ _
      · next notVoid =>
        intro value' s' run _
        obtain ⟨_, s2, set, made⟩ := bind_ok.mp run
        obtain ⟨rfl, rfl⟩ := pure_ok.mp made
        have solid (commands : s1.SolidCommands) : value'.ty.IsResult := by
          rcases Expr.WellTyped.isSolid (ready.outlook_isSolid commands) value'
            (typed _ Outlook.le_rfl) with solid | ⟨void, -⟩
          · exact .inr solid
          · exact .inl void
        obtain ⟨later, ready', sig', found', result'⟩ := ready.setResult found result solid set
        refine ⟨later, ready', fun w le => ⟨later.forces ready.declared typed w le, le.returns _ ?_,
          Bool.eq_false_iff.mpr notVoid⟩⟩
        refine bind_eq_some_iff.mpr ⟨sig', ?_, result'⟩
        unfold working?
        rw [later.function, function]
        exact found'

theorem noteBareReturn (span : Span) : Keeps fs s (noteBareReturn span) fun _ _ => True := by
  intro _ s' run ready
  obtain rfl := modify_ok.mp run
  split
  · refine ⟨⟨(Grows.refl _ s).withBody _, rfl, rfl, rfl, prefix_refl _⟩, ⟨ready.sound.withBody _, ?_⟩, trivial⟩
    exact ⟨ready.working.scope, ready.working.inside, ready.working.function, ready.working.main,
      ready.working.own, ready.working.locals, ready.working.nodup, ready.working.labels⟩
  · exact ⟨.refl s, ready, trivial⟩

theorem gotoLabel (id : Ident) : Keeps fs s (gotoLabel id) fun s' symbol => symbol ∈ s'.body.labels := by
  refine assuming fun ready => look (Looks.of_look _) fun found isFound => ?_
  cases found with
  | none =>
    refine look (Looks.pure (Q := fun _ => True) trivial) fun kind _ => ?_
    split
    · next impossible => cases impossible
    · exact fail _ _
  | some symbol =>
    refine look (Looks.bind (Looks.symbolKind symbol) fun kind isKind => Looks.pure
      (Q := (· = some ((s.scopes.get? symbol).map (·.kind)))) (by rw [isKind])) fun kind isKind => ?_
    split
    · next index sameSymbol =>
      cases sameSymbol
      refine pure fun _ => (ready.working.labels symbol).mpr ?_
      obtain ⟨sym, atSymbol, inScope, -⟩ := ScopeTree.findHere_get? isFound.symm
      rw [atSymbol] at isKind
      exact ⟨sym, atSymbol, inScope, index, by simpa using isKind.symm⟩
    · exact fail _ _

end Keeps

end BasicCompiler.Typed
