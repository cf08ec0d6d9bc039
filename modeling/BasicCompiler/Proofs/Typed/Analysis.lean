/-
# Functions are analysed one inside the other

A function that waits is marked as running, its body is put to work, and in the end it is marked as done.
-/
import BasicCompiler.Proofs.Typed.Bodies

namespace BasicCompiler.Typed

open Check CheckState Option

variable {s : CheckState} {id : FunctionId}

/-! ## Marks -/

def CheckState.marked (s : CheckState) (id : FunctionId) (a : Analysis) : CheckState :=
  { s with signatures := s.signatures.modify id fun sig => { sig with analysis := a } }

theorem getElem?_marked :
    (s.marked id a).signatures[i]? =
      s.signatures[i]?.map fun sig => if id = i then { sig with analysis := a } else sig := by
  unfold marked
  rw [List.getElem?_modify]
  rfl

theorem signature_marked (found : (s.marked id a).signatures[i]? = some sig') :
    ∃ before : Signature, s.signatures[i]? = some before ∧ sig' = { before with analysis := sig'.analysis } ∧
      (id = i ∧ sig'.analysis = a ∨ id ≠ i ∧ sig'.analysis = before.analysis) := by
  rw [getElem?_marked] at found
  obtain ⟨before, there, rfl⟩ := map_eq_some_iff.mp found
  refine ⟨before, there, ?_⟩
  split
  · next same => exact ⟨rfl, .inl ⟨same, rfl⟩⟩
  · next other => exact ⟨rfl, .inr ⟨other, rfl⟩⟩

@[simp] theorem callParams?_marked (s : CheckState) (id : FunctionId) (a : Analysis) :
    (s.marked id a).callParams? = s.callParams? := by
  funext callee
  cases callee with
  | function i =>
    simp only [callParams?, getElem?_marked, map_map]
    cases s.signatures[i]? with
    | none => rfl
    | some sig =>
      split <;> rfl
  | command index => rfl

@[simp] theorem callResult?_marked (s : CheckState) (id : FunctionId) (a : Analysis) :
    (s.marked id a).callResult? = s.callResult? := by
  funext callee
  cases callee with
  | function i =>
    simp only [callResult?, getElem?_marked]
    cases s.signatures[i]? with
    | none => rfl
    | some sig =>
      split <;> rfl
  | command index => rfl

theorem view_marked (s : CheckState) (id : FunctionId) (a : Analysis) (own labels : List SymbolId)
    (returns? : Option Ty) : (s.marked id a).view own labels returns? = s.view own labels returns? := by
  unfold view
  rw [callParams?_marked, callResult?_marked]
  rfl

theorem Declared.marked (h : Declared fs s) (id : FunctionId) (busy : a ≠ .pending) : Declared fs (s.marked id a) where
  toScoped := { h.toScoped with }
  overloads i sym os found isFunction o mem := by
    unfold CheckState.Knows
    rw [callParams?_marked, callResult?_marked]
    exact h.overloads i sym os found isFunction o mem
  signatures i sig' found := by
    obtain ⟨before, found, same, -⟩ := signature_marked found
    have stands := h.signatures i before found
    rw [same]
    exact ⟨stands.names, stands.scope, stands.params, stands.nodup,
      ⟨stands.fits.placed, stands.fits.result⟩, stands.linked⟩
  apart i j sigI sigJ foundI foundJ scopes := by
    obtain ⟨beforeI, foundI, sameI, -⟩ := signature_marked foundI
    obtain ⟨beforeJ, foundJ, sameJ, -⟩ := signature_marked foundJ
    rw [sameI, sameJ] at scopes
    exact h.apart i j beforeI beforeJ foundI foundJ scopes
  pending i sig' found isPending := by
    obtain ⟨before, found, same, ⟨-, mark⟩ | ⟨-, mark⟩⟩ := signature_marked found
    · exact absurd (mark.symm.trans isPending) busy
    · rw [same]
      exact h.pending i before found (mark.symm.trans isPending)
  members := h.members
  nested := h.nested

theorem Function.Analysed.marked {decl : Source.Function} {f : Function}
    (h : f.Analysed s decl sig) (id : FunctionId) (a b : Analysis) :
    f.Analysed (s.marked id a) decl { sig with analysis := b } where
  name := h.name
  span := h.span
  params := h.params
  result := h.result
  scope := h.scope
  linkName := h.linkName
  locals := h.locals
  nodup := h.nodup
  labels := h.labels
  labelled := h.labelled
  typed w le := by
    rw [view_marked] at le
    exact h.typed w le
  placed isPlaced sizes w le := by
    rw [view_marked] at le
    exact h.placed isPlaced sizes w le

theorem Sound.running (h : Sound fs s) (id : FunctionId) : Sound fs (s.marked id .running) where
  declared := h.declared.marked id (by simp)
  done i sig' f found isDone := by
    obtain ⟨before, found, same, ⟨-, mark⟩ | ⟨-, mark⟩⟩ := signature_marked found
    · rw [mark] at isDone
      cases isDone
    · obtain ⟨decl, isDecl, analysed⟩ := h.done i before f found (mark.symm.trans isDone)
      refine ⟨decl, isDecl, ?_⟩
      rw [same]
      exact analysed.marked id _ _

theorem Sound.finished (h : Sound fs s) {f : Function} (found : s.signatures[id]? = some sig)
    (isDecl : fs[id]? = some decl) (analysed : f.Analysed s decl sig) :
    Sound fs (s.marked id (.done f)) where
  declared := h.declared.marked id (by simp)
  done i sig' g found' isDone := by
    obtain ⟨before, found'', same, ⟨rfl, mark⟩ | ⟨-, mark⟩⟩ := signature_marked found'
    · rw [mark] at isDone
      cases isDone
      obtain rfl := some.inj (found.symm.trans found'')
      refine ⟨decl, isDecl, ?_⟩
      rw [same]
      exact analysed.marked id _ _
    · obtain ⟨decl, isDecl, analysed⟩ := h.done i before g found'' (mark.symm.trans isDone)
      refine ⟨decl, isDecl, ?_⟩
      rw [same]
      exact analysed.marked id _ _

/-! ## One body -/

def CheckState.entering (s : CheckState) (id : FunctionId) (sig : Signature) : CheckState :=
  { s.marked id .running with body := Body.start sig.scope (some id) }

theorem Sound.entering (h : Sound fs s) (found : s.signatures[id]? = some sig)
    (pending : sig.analysis = .pending) : Ready fs (s.entering id sig) := by
  have stands := h.declared.signatures id sig found
  have running : (s.marked id .running).signatures[id]? = some { sig with analysis := .running } := by
    rw [getElem?_marked, found]
    simp
  have isOwn (i : SymbolId) {P : SymbolKind → Prop} (declared : s.scopes.Declares sig.scope P i) :
      i ∈ sig.params := by
    obtain ⟨sym, atI, inScope, -⟩ := declared
    exact h.declared.pending id sig found pending i ⟨sym, atI, inScope, trivial⟩
  refine ⟨(h.running id).withBody _, stands.scope.1, stands.scope.2, ?_, ?_, fun i declared => ?_,
    ?_, List.nodup_nil, fun i => ⟨?_, fun declared => ?_⟩⟩
  · rintro _ ⟨⟩
    exact ⟨_, running, rfl, rfl⟩
  · intro isMain
    cases isMain
  · refine List.mem_append_left _ ?_
    have working : (s.entering id sig).working? = some { sig with analysis := .running } := running
    rw [working]
    exact isOwn i declared
  · intro i mem
    cases mem
  · intro mem
    cases mem
  · -- a symbol that is there already is a parameter
    obtain ⟨sym, atI, -, type, index, byRef, isParam⟩ := stands.params i (isOwn i declared)
    obtain ⟨sym', atI', -, n, isLabel⟩ := declared
    obtain rfl := some.inj (atI.symm.trans atI')
    rw [isParam] at isLabel
    cases isLabel

theorem Keeps.settleResult (span : Span) (function : s.body.function = some id) :
    Keeps fs s (settleResult id span) fun s' ty =>
      ∃ sig : Signature, s'.working? = some sig ∧ sig.result = some ty := by
  refine look (Looks.signature id span) fun sig found => ?_
  cases result : sig.result with
  | some ty =>
    refine pure fun _ => ⟨sig, ?_, result⟩
    unfold working?
    rw [function]
    exact found
  | none =>
    intro ty s' run ready
    obtain ⟨_, s1, set, made⟩ := bind_ok.mp run
    cases made
    obtain ⟨later, ready', sig', found', result'⟩ := ready.setResult found result (fun _ => .inl rfl) set
    refine ⟨later, ready', sig', ?_, result'⟩
    unfold working?
    rw [later.function, function]
    exact found'

theorem Ready.labelled (ready : Ready fs s') {symbols : List SymbolId} {f : Function} (start : s.body.labels = [])
    (noted : s'.body.labels = s.body.labels ++ symbols) (declared : s'.Labels ids symbols)
    (found : s'.Labels ids f.body.labels) (distinct : s.body.labels.Nodup → s'.body.labels.Nodup)
    (labels : f.labels = s'.body.labels) : f.Labelled := by
  rw [start, List.nil_append] at noted
  refine ⟨?_, ?_⟩
  · rw [labels, noted]
    exact found.unique declared ready.declared.unique
  · rw [labels]
    exact distinct (by simp [start])

/-- What is known when the body of a function has been checked: the function is as its
signature says by then. -/
theorem functionBody_analysed (analyses : Analyses fs analyse) (ready : Ready fs s)
    (function : s.body.function = some id) (start : s.body.labels = [])
    (run : functionBody analyse id decl s = .ok (f, s')) :
    Grows (· = s.body.scope) s s' ∧ Ready fs s' ∧
      ∃ sig : Signature, s'.signatures[id]? = some sig ∧ f.Analysed s' decl sig := by
  obtain ⟨_, s1, labels, afterLabels⟩ := bind_ok.mp run
  obtain ⟨body, s2, inside, afterBody⟩ := bind_ok.mp afterLabels
  obtain ⟨endValue, s3, ended, afterEnd⟩ := bind_ok.mp afterBody
  obtain ⟨result, s4, settled, afterResult⟩ := bind_ok.mp afterEnd
  obtain ⟨atWork, s5, got, looked⟩ := bind_ok.mp afterResult
  cases got
  obtain ⟨sig, s6, signed, made⟩ := bind_ok.mp looked
  obtain ⟨rfl, found⟩ := Looks.signature id decl.span sig s6 signed
  obtain ⟨grows, ready1, scope, function1, distinct, symbols, noted, declared⟩ := ready.labelsFrom labels
  obtain ⟨later2, ready2, agree⟩ := Keeps.block analyses decl.body s1 body s2 inside ready1
  obtain ⟨later3, ready3, typedEnd⟩ :=
    Keeps.optional (Keeps.returnValue analyses) decl.endValue endValue s3 ended ready2
  have function3 : s3.body.function = some id := by
    rw [later3.function, later2.function, function1, function]
  obtain ⟨later4, ready4, sig', working, isResult⟩ := Keeps.settleResult decl.span function3 result s6 settled ready3
  have function4 : s6.body.function = some id := later4.function.trans function3
  obtain rfl : sig = sig' := by
    unfold working? at working
    rw [function4] at working
    exact some.inj (found.symm.trans working)
  -- what is left only looks at the state
  obtain ⟨rfl, rfl⟩ : f = ⟨decl.name.node, sig.linkName, some sig.symbol, sig.params, result,
      s6.body.locals, s6.body.labels, sig.scope, body, endValue, decl.span⟩ ∧ s' = s6 := by
    cases bare : s6.body.bareReturn with
    | none =>
      rw [bare] at made
      cases made
      exact ⟨rfl, rfl⟩
    | some span =>
      rw [bare] at made
      cases void : result.isVoid with
      | false =>
        rw [void] at made
        cases made
      | true =>
        rw [void] at made
        cases made
        exact ⟨rfl, rfl⟩
  have later := later2.trans (later3.trans later4)
  have agree' := agree.later ready2 (later3.trans later4)
  refine ⟨grows.trans (scope ▸ later.grows), ready4, sig, found, ?_⟩
  have inScope : s'.body.scope = sig.scope := by
    obtain ⟨sig', found', -, same⟩ := ready4.working.function id function4
    obtain rfl := some.inj (found.symm.trans found')
    exact same.symm
  have seen : s'.view (sig.params ++ s'.body.locals) s'.body.labels (some result) = s'.outlook := by
    unfold outlook own
    rw [working]
    simp [isResult]
  refine ⟨rfl, rfl, rfl, isResult, rfl, rfl, fun i mem => ?_, ready4.working.nodup, fun i mem => ?_,
    ready4.labelled start (later.labels ▸ noted) (later.labelsOf declared) agree'.labels
      (later.labels ▸ distinct) rfl, fun w le => ?_, fun isPlaced sizes w le => ?_⟩
  · exact inScope ▸ ready4.working.locals i mem
  · exact inScope ▸ (ready4.working.labels i).mp mem
  · rw [seen] at le
    refine ⟨agree'.typed w le, fun e mem => ?_⟩
    obtain ⟨typed, returns, notVoid⟩ := later4.forces ready3.declared (typedEnd.2 e mem) w le
    have known := le.returns result (by rw [← seen]; rfl)
    have atResult : e.ty = result := some.inj (returns.symm.trans known)
    exact ⟨⟨typed, atResult⟩, atResult ▸ notVoid⟩
  · rw [seen] at le
    exact agree'.placed sizes false false isPlaced w le

theorem Grows.leaving (found : s.signatures[id]? = some sig)
    (pending : sig.analysis = .pending) (grows : Grows (· = sig.scope) (s.entering id sig) s')
    (f : Function) : Grows (fun _ => False) s { s'.marked id (.done f) with body := s.body } where
  types := grows.types
  commands := grows.commands
  globals := grows.globals
  predeclared := grows.predeclared
  scopes := grows.scopes
  symbols := grows.symbols
  fresh i sym there absent := by
    refine .inr ?_
    rcases grows.fresh i sym there absent with inside | ⟨j, sigJ, foundJ, pendingJ, scopeJ⟩
    · exact ⟨id, sig, found, pending, inside.symm⟩
    · obtain ⟨before, foundJ, same, ⟨-, mark⟩ | ⟨-, mark⟩⟩ := signature_marked foundJ
      · rw [mark] at pendingJ
        cases pendingJ
      · rw [same] at scopeJ
        exact ⟨j, before, foundJ, mark.symm.trans pendingJ, scopeJ⟩
  count := by
    have count := grows.count
    simp only [entering, marked, List.length_modify] at count ⊢
    exact count
  signatures i before there := by
    have entered : (s.entering id sig).signatures[i]? = some
        (if id = i then { before with analysis := .running } else before) := by
      change (s.marked id .running).signatures[i]? = _
      rw [getElem?_marked, there]
      rfl
    obtain ⟨after, foundAfter, becomes⟩ := grows.signatures i _ entered
    refine ⟨if id = i then { after with analysis := .done f } else after, ?_, ?_⟩
    · rw [getElem?_marked, foundAfter]
      rfl
    · by_cases same : id = i
      · subst same
        obtain rfl := some.inj (found.symm.trans there)
        rw [if_pos rfl] at becomes ⊢
        refine ⟨becomes.symbol, becomes.overload, becomes.params, becomes.scope, becomes.linkName, becomes.result, ?_⟩
        rw [pending]
        exact .finished f
      · rw [if_neg same] at becomes ⊢
        exact becomes

theorem function_analyses (fs : List Source.Function) (depth : Nat) : Analyses fs (function fs depth) := by
  induction depth with
  | zero =>
    intro id sig s s' _ _ _ run
    cases run
  | succ depth ih =>
    intro id sig s s' sound found pending run
    unfold function at run
    cases isDecl : fs[id]? with
    | none =>
      rw [isDecl] at run
      cases run
    | some decl =>
      rw [isDecl] at run
      obtain ⟨sig0, s0, signed, run0⟩ := bind_ok.mp run
      obtain ⟨rfl, found0⟩ := Looks.signature id decl.span sig0 s0 signed
      obtain rfl := some.inj (found.symm.trans found0)
      obtain ⟨_, s1, entered, run1⟩ := bind_ok.mp run0
      cases entered
      obtain ⟨typed, s2, within, finished⟩ := bind_ok.mp run1
      cases finished
      obtain ⟨outer, s3, got, run3⟩ := bind_ok.mp within
      cases got
      obtain ⟨_, s4, started, run4⟩ := bind_ok.mp run3
      cases started
      obtain ⟨f, s5, analysed, run5⟩ := bind_ok.mp run4
      obtain ⟨_, s6, left, made⟩ := bind_ok.mp run5
      cases left
      cases made
      have ready := sound.entering found pending
      obtain ⟨grows, ready5, sig5, found5, analysed⟩ := functionBody_analysed ih ready rfl rfl analysed
      refine ⟨grows.leaving found pending typed, rfl, ?_, ?_⟩
      · exact (ready5.sound.finished found5 isDecl analysed).withBody s0.body
      · refine ⟨{ sig5 with analysis := .done typed }, typed, ?_, rfl⟩
        change (s5.marked id (.done typed)).signatures[id]? = _
        rw [getElem?_marked, found5]
        simp

end BasicCompiler.Typed
