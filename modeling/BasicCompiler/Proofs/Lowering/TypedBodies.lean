/-
# The code of a body is well typed

The statements follow from their expressions one after the other: what they need of registers is known when they are
filled, and stays known. Statements that stand where they belong are stopped by nothing but the want of an address.
-/
import BasicCompiler.Proofs.Lowering.TypedExpressions

namespace BasicCompiler

open Ir (BlockId Reg)
open List Lowering.Lower Typed

namespace Typed

theorem Counts.any (h : Counts ty hasStep) : Counts ty true := h.imp_right fun isString => ⟨isString.1, rfl⟩

theorem Counts.isSelectable (h : Counts ty hasStep) : Check.isSelectable ty = true := by
  unfold Check.isSelectable
  rcases h with isNumeric | ⟨rfl, -⟩
  · rw [isNumeric]
    rfl
  · rfl

theorem isVoid_of_isSelectable (h : Check.isSelectable ty = true) : ty.isVoid = false := by
  refine decide_eq_false fun void => ?_
  rw [void] at h
  cases h

end Typed

namespace Lowering

open Typed (Outlook)

variable {env : Env} {types : Ir.Types} {cond : Expr} {address : Reg}

namespace Yields

/-! ## Releases and frames -/

theorem emitCleanup (holds : types.Has c.reg c.type) : Runs k env types (Lower.emitCleanup c) := by
  have isRuntime : (c.owned.release, [Ir.Ty.handle], Ir.Ty.void) ∈ runtime := by
    cases c.owned <;> simp [runtime, Owned.release]
  unfold Lower.emitCleanup Cleanup.indirect?
  unfold Cleanup.type at holds
  cases isSlot : c.isSlot with
  | true =>
    rw [isSlot] at holds
    exact bind (emit (.load holds) rfl) fun handle types' _ loaded => last (.runtimeVoid isRuntime (.cons loaded .nil))
  | false =>
    rw [isSlot] at holds
    exact last (.runtimeVoid isRuntime (.cons holds .nil))

theorem emitCleanups (holds : ∀ c ∈ cs, types.Has c.reg c.type) : Runs k env types (emitCleanups cs) := by
  induction cs generalizing types with
  | nil => exact pure trivial
  | cons c rest ih =>
    refine andThen (emitCleanup (holds c mem_cons_self)) fun types' le => ?_
    exact ih fun d mem => (holds d (mem_cons_of_mem c mem)).mono le

theorem runReleases (holds : ∀ c ∈ cs, types.Has c.reg c.type) : Runs k env types (runReleases cs) :=
  keep (.changeCleanups fun _ _ mem => mem) fun _ => emitCleanups holds

theorem releaseFrom (depth : Nat) : Runs k env types (releaseFrom depth) :=
  get fun _ fits => runReleases fun c mem => fits.pending c (mem_pendingFrom mem)

theorem closeFrame : Runs k env types closeFrame := by
  refine get fun s fits => ?_
  have popped : Fits k types (s.tidy fun stack => stack.popFrame.2) :=
    fits.tidy fun c mem => fits.pending c (mem_of_mem_popFrame (.inr mem))
  refine keep (.set popped) fun _ => ?_
  split
  · exact runReleases fun c mem => fits.pending c (mem_of_mem_popFrame (.inl mem))
  · exact pure trivial

theorem withFrame (inside : YieldsIf k env types b m Q)
    (stable : ∀ types types' a, types <+: types' → Q types a → Q types' a) :
    YieldsIf k env types b (withFrame m) Q := by
  refine keep (.changeCleanups fun _ _ mem => mem) fun _ => before inside fun a types' _ answer => ?_
  exact andThen closeFrame fun types'' le => pure (stable types' types'' a le answer)

theorem condition (backs : Backs k env w types) (typed : cond.WellTypedAs w .bool) :
    YieldsIf k env types cond.addressable (condition cond) (Gives .bool) := by
  refine withFrame ?_ fun types types' a le holds => holds.mono le
  have value := valueAs backs typed fun _ => rfl
  rwa [k.rep_bool] at value

variable {slot : Reg}

theorem registerMembers
    (each : ∀ types' field ty, types'.Has field (.ptr (k.rep ty)) → Runs k env types' (registerField field ty))
    (first members : List Member)
    (holds : types.Has slot (.ptr (.struct ((first ++ members).map fun m => k.rep m.type)))) :
    Runs k env types (registerMembers table registerField slot first.length members) := by
  induction members generalizing first types with
  | nil => exact pure trivial
  | cons m rest ih =>
    have others (types' : Ir.Types) (le : types <+: types') : Yields k env types'
        (registerMembers table registerField slot (first.length + 1) rest) fun _ _ => True := by
      have longer := @ih types' (first ++ [m])
      rw [append_assoc, length_append] at longer
      exact longer (holds.mono le)
    have isField : ((first ++ m :: rest).map fun m => k.rep m.type)[first.length]? = some (k.rep m.type) := by
      rw [getElem?_map, getElem?_append_right (Nat.le_refl _), Nat.sub_self]
      rfl
    rw [registerMembers]
    split
    · refine bind (emit (.field holds isField) rfl) fun field types1 le1 holdsField => ?_
      exact andThen (each types1 field m.type holdsField) fun types2 le2 => others types2 (le1.trans le2)
    · exact others types prefix_rfl

theorem registerSlotWithin (depth : Nat) (holds : types.Has slot (.ptr (k.rep ty))) :
    Runs k env types (registerSlotWithin k.program.types depth slot ty) := by
  induction depth using Nat.strongRecOn generalizing types slot ty with
  | ind depth ih =>
    obtain ⟨owned, one, held⟩ | none | ⟨inner, id, rfl, all, rfl⟩ :=
      registerSlotWithin_cases k.program.types depth slot ty
    · rw [k.rep_of_held held] at holds
      rw [one]
      exact last (.register holds)
    · rw [none]
      exact pure trivial
    · rw [Linking.rep, irType_user k.nested] at holds
      rw [all]
      exact registerMembers (fun types' field ty holds => ih inner (Nat.lt_succ_self _) holds) [] _ holds

theorem registerSlot (program : env.program = k.program) (holds : types.Has slot (.ptr (k.rep ty))) :
    Runs k env types (registerSlot slot ty) :=
  typeTable program (registerSlotWithin _ holds)

/-! ## Statements without statements inside -/

theorem storeValue (holdsAddress : types.Has address (.ptr (k.rep ty))) (holdsValue : types.Has value (k.rep ty)) :
    Runs k env types (Lower.storeValue address value ty) := by
  have assigned {name : String} (isRuntime : (name, [Ir.Ty.ptr .handle, .handle], Ir.Ty.void) ∈ runtime)
      (isHandle : k.rep ty = .handle) : Runs k env types (Lower.callVoid name [address, value]) := by
    rw [isHandle] at holdsAddress holdsValue
    exact last (.runtimeVoid isRuntime (.cons holdsAddress (.cons holdsValue .nil)))
  unfold Lower.storeValue
  split
  next isString => exact assigned (by simp [runtime]) (k.rep_of_held (.inl isString))
  next =>
    split
    next isArray => exact assigned (by simp [runtime]) (k.rep_of_held (.inr isArray))
    next => exact last (.perform (.store holdsAddress holdsValue))

section

variable (backs : Backs k env w types)
include backs

theorem dim (isArray : k.total → ∃ elem, ty = .arrayOf elem) (holds : types.Has address (.ptr (k.rep ty)))
    (typed : size.WellTypedAs w .int32) : RunsIf k env types size.addressable (Lower.dim address ty size) := by
  unfold Lower.dim
  split
  next none =>
    refine fail fun total => ?_
    obtain ⟨elem, rfl⟩ := isArray total
    cases none
  next elem isArray =>
    have isHandle : k.rep ty = .handle := by
      cases ty with
      | arrayOf inner => exact irType_arrayOf inner
      | _ => cases isArray
    rw [isHandle] at holds
    refine before (valueAs backs typed fun _ => rfl) fun count types1 le1 holdsCount => typeTable backs.program ?_
    rw [Linking.rep, irType_int32] at holdsCount
    refine bind (constInt rfl) fun elemSize types2 le2 holdsSize => ?_
    refine bind (emit (.load (holds.mono (le1.trans le2))) rfl) fun old types3 le3 holdsOld => ?_
    have passed := holdsCount.mono (le2.trans le3)
    refine keep (.runtimeVoid (by simp [runtime, Owned.release]) (.cons holdsOld .nil)) fun _ => ?_
    refine bind (runtimeHandle (by simp [runtime]) (.cons passed (.cons (holdsSize.mono le3) .nil)))
      fun array types4 le4 holdsArray => ?_
    exact last (.perform (.store (holds.mono (le1.trans (le2.trans (le3.trans le4)))) holdsArray))

theorem declaration {span : Span} {id : SymbolId} (typed : Stmt.WellTyped w (.declare span id size init))
    (sized : k.total → size.isSome = true → w.SeesArray id) :
    RunsIf k env types (size.all Expr.addressable && init.all Expr.addressable)
      (Lower.declaration span id size init) := by
  obtain ⟨v, seen, typedSize, typedInit⟩ := typed
  refine read ?_
  rw [backs.program, (backs.sees id v seen).1]
  refine bind (varAddress backs seen) fun address types1 le1 holds => ?_
  have filled (init : Expr) (typed : init.WellTypedAs w v.type) (types2 : Ir.Types) (le2 : types1 <+: types2) :
      RunsIf k env types2 init.addressable (do
        let value ← Lower.expr .value init
        Lower.storeValue address value v.type) := by
    refine before (valueAs (backs.mono (le1.trans le2)) typed fun total => ((backs.serves total).sees id v seen).isVoid)
      fun value types3 le3 holdsValue => ?_
    exact storeValue (holds.mono (le2.trans le3)) holdsValue
  cases size with
  | none =>
    cases init with
    | none => exact pure trivial
    | some init => exact filled init (typedInit init rfl) types1 prefix_rfl
  | some size =>
    have isArray (total : k.total) : ∃ elem, v.type = .arrayOf elem := by
      obtain ⟨v', elem, seen', isArray⟩ := sized total rfl
      obtain rfl := Option.some.inj (seen.symm.trans seen')
      exact ⟨elem, isArray⟩
    refine bindIf (dim (backs.mono le1) isArray holds (typedSize size rfl)) fun _ types2 le2 _ => ?_
    cases init with
    | none => exact pure trivial
    | some init => exact filled init (typedInit init rfl) types2 le2

theorem assignedValue {target : Expr} (typedTarget : target.WellTyped w) (lvalue : target.isLvalue = true)
    (holds : types.Has address (.ptr (k.rep target.place.ty)))
    (typed : value.WellTypedAs (w.assigning target) target.ty) :
    YieldsIf k env types value.addressable (assignedValue address value) (Gives (k.rep target.ty)) := by
  obtain ⟨typedPlace, lvaluePlace⟩ := typedTarget.place lvalue
  have solid (total : k.total) := typedPlace.isSolid_of_isLvalue (backs.serves total).toIsSolid lvaluePlace
  refine withReader (valueAs (backs.assigning solid holds) typed fun total => ?_)
  exact (typedTarget.isSolid_of_isLvalue (backs.serves total).toIsSolid lvalue).isVoid

end

theorem insertLanes {count width next : Nat} (below : ∀ axis ∈ axes, axis < count)
    (enough : next + axes.length ≤ width)
    (holdsValue : types.Has value (if isSingle then lane else .vector lane width))
    (holds : types.Has vector (.vector lane count)) :
    Yields k env types (Lower.insertLanes value isSingle next vector axes) (Gives (.vector lane count)) := by
  induction axes generalizing types next vector with
  | nil => exact pure holds
  | cons axis axes ih =>
    rw [length_cons] at enough
    have inserted (types1 : Ir.Types) (le1 : types <+: types1) (component : Reg) (holdsLane : types1.Has component lane) :
        Yields k env types1 (do
          let vector ← Lower.emit (.insert vector component axis)
          Lower.insertLanes value isSingle (next + 1) vector axes) (Gives (.vector lane count)) := by
      refine bind (emit (.insert (holds.mono le1) holdsLane (below axis mem_cons_self)) rfl)
        fun vector' types2 le2 holdsVector => ?_
      exact ih (fun a mem => below a (mem_cons_of_mem axis mem)) (by omega) (holdsValue.mono (le1.trans le2)) holdsVector
    cases isSingle with
    | true => exact inserted types prefix_rfl value holdsValue
    | false =>
      exact bind (emit (.extract holdsValue (by omega)) rfl) fun component types1 le1 holdsLane =>
        inserted types1 le1 component holdsLane

section

variable (backs : Backs k env w types)
include backs

theorem assignment {target value : Expr} (typed : target.WellTyped w) (lvalue : target.isLvalue = true)
    (typedValue : value.WellTypedAs (w.assigning target) target.ty) :
    RunsIf k env types ((target.place.addressable && target.place.isPlace) && value.addressable)
      (Lower.assignment target value) := by
  have located (total : k.total) : target.place.ty.isVoid = false :=
    have place := typed.place lvalue
    (place.1.isSolid_of_isLvalue (backs.serves total).toIsSolid place.2).isVoid
  unfold Lower.assignment
  split
  next info base axes =>
    obtain ⟨lane, count, isVector, below, isResult⟩ := k.rep_of_picks typed.2
    refine bindIf (expr base backs typed.1 located .address) fun address types1 le1 holds => ?_
    refine before (assignedValue (backs.mono le1) typed lvalue holds typedValue) fun reg types2 le2 holdsValue => ?_
    refine typeOf backs.program (bind (emit (.load (holds.mono le2)) rfl) fun vector types3 le3 loaded => ?_)
    rw [isVector] at loaded
    have single : k.rep info.ty = if decide (axes.length = 1) = true then lane else .vector lane axes.length := by
      simpa using isResult
    have holdsLanes := holdsValue.mono le3
    rw [show (Expr.swizzle info base axes).ty = info.ty from rfl, single] at holdsLanes
    refine bind (insertLanes below (Nat.le_of_eq (Nat.zero_add _)) holdsLanes loaded) fun changed types4 le4 whole => ?_
    rw [← isVector] at whole
    exact last (.perform (.store (holds.mono (le2.trans (le3.trans le4))) whole))
  next other =>
    have whole : target.place = target := by
      cases target with
      | swizzle info base axes => exact absurd rfl (other info base axes)
      | _ => rfl
    rw [whole] at located ⊢
    refine bindIf (expr target backs typed located .address) fun address types1 le1 holds => ?_
    have place : Gives (.ptr (k.rep target.place.ty)) types1 address := by
      rw [whole]
      exact holds
    refine before (assignedValue (backs.mono le1) typed lvalue place typedValue) fun reg types2 le2 holdsValue => ?_
    exact storeValue (holds.mono le2) holdsValue

theorem effect (typed : e.WellTyped w) : RunsIf k env types e.addressable (Lower.effect e) := by
  unfold Lower.effect
  split
  next info callee args =>
    obtain ⟨params, known, arity, typedArgs, gives⟩ := typed
    have passed := arguments args backs (fun total => (backs.serves total).params callee params known) typedArgs
    rw [backs.params] at known
    rw [backs.result] at gives
    refine before passed fun regs types1 le1 answer => ?_
    obtain ⟨count, passes⟩ := answer
    rw [← count] at arity
    exact bind (callWith backs.program known gives arity passes) fun _ _ _ _ => pure trivial
  next other =>
    refine before (valueOf backs typed fun total => ?_) fun _ _ _ _ => pure trivial
    rcases typed.isSolid (backs.serves total).toIsSolid e with inside | ⟨-, info, callee, args, rfl⟩
    · exact inside.isVoid
    · exact absurd rfl (other info callee args)

/-! ## Returns and jumps -/

theorem returnedValue (typed : e.WellTyped w) (notVoid : e.ty.isVoid = false) :
    YieldsIf k env types e.addressable (returnedValue e) (Gives (k.rep e.ty)) := by
  refine before (valueOf backs typed fun _ => notVoid) fun value types1 le1 holds => ?_
  split
  next => exact pure holds
  next isString =>
    split
    next => exact keep (.changeCleanups fun _ _ mem => mem) fun _ => pure holds
    next =>
      have isHandle : k.rep e.ty = .handle := k.rep_of_isString (by simpa using isString)
      rw [isHandle] at holds ⊢
      exact runtimeHandle (by simp [runtime]) (.cons holds .nil)

theorem defaultReturn : Yields k env types defaultReturn fun types value =>
    (Ir.Terminator.ret value).WellTyped types k.result := by
  have ends := backs.ends
  refine read ?_
  split
  next isMain =>
    rw [if_pos isMain] at ends
    rw [ends]
    exact bind (constInt rfl) fun nought types' _ holds => pure ⟨holds, Ir.Ty.noConfusion⟩
  next isMain =>
    rw [ends]
    split
    next isVoid =>
      refine pure ?_
      rw [of_decide_eq_true isVoid]
      exact irType_void
    next isVoid =>
      refine typeOf backs.program (bind (constZero _) fun nought types' _ holds => pure ⟨holds, ?_⟩)
      exact irType_ne_void (Bool.eq_false_iff.mpr isVoid)

theorem returnStmt (typed : ∀ e ∈ value, e.WellTyped w ∧ w.returns? = some e.ty ∧ e.ty.isVoid = false) :
    RunsIf k env types (value.all Expr.addressable) (Lower.returnStmt value) := by
  have last (types : Ir.Types) (reg : Option Reg) (fits : (Ir.Terminator.ret reg).WellTyped types k.result) :
      Runs k env types (do
        Lower.releaseFrom 0
        Lower.terminate (.ret reg)) :=
    andThen (releaseFrom 0) fun types' le => last (.terminate (fits.mono le))
  cases value with
  | none => exact bind (defaultReturn backs) fun reg types' _ fits => last types' reg fits
  | some e =>
    obtain ⟨typedValue, known, notVoid⟩ := typed e rfl
    have result := backs.returns e.ty known notVoid
    refine before (returnedValue backs typedValue notVoid) fun reg types' _ holds => last types' (some reg) ⟨?_, ?_⟩
    · rw [result]
      exact holds
    · rw [result]
      exact irType_ne_void notVoid

end

end Yields

namespace Keeps

theorem br (target : BlockId) : Keeps k env types (br target) := terminate trivial

theorem condBr {cond : Reg} (holds : types.Has cond .bool) (onTrue onFalse : BlockId) :
    Keeps k env types (condBr cond onTrue onFalse) := terminate holds

theorem detach (label : String) : Keeps k env types (detach label) := bind (createBlock label) setBlock

theorem gotoLabel (id : SymbolId) : Keeps k env types (gotoLabel id) := by
  refine read ?_
  cases env.labels.lookup id with
  | some target => exact bind (br _) fun _ => detach _
  | none => exact detach _

theorem stop : Keeps k env types stop :=
  bind (runtimeVoid (by simp [runtime]) .nil) fun _ => bind (terminate trivial) fun _ => detach _

end Keeps

namespace Yields

theorem createBlocks (label : α → String) (as : List α) :
    Yields k env types (createBlocks label as) fun _ ids => ids.length = as.length := by
  induction as generalizing types with
  | nil => exact pure rfl
  | cons a as ih =>
    exact keep (.createBlock _) fun _ => bind ih fun ids _ _ length => pure (congrArg (· + 1) length)

section

variable {k : Linking} {inLoop hasNext : Bool} (around : k.total → Surrounds env inLoop hasNext)
include around

theorem leaveLoop (inside : k.total → inLoop = true) (span : Span) (target : LoopTargets → BlockId) :
    Runs k env types (leaveLoop span target) := by
  refine read ?_
  cases isLoop : env.loop with
  | none =>
    refine fail fun total => ?_
    have known := (around total).loop (inside total)
    rw [isLoop] at known
    cases known
  | some targets => exact andThen (releaseFrom _) fun _ _ => keep (.br _) fun _ => last (.detach _)

theorem fallThrough (more : k.total → hasNext = true) (span : Span) : Runs k env types (fallThrough span) := by
  refine read ?_
  split
  · exact andThen (releaseFrom _) fun _ _ => keep (.br _) fun _ => last (.detach _)
  next other =>
    refine fail fun total => ?_
    obtain ⟨block, depth, isNext⟩ := (around total).next (more total)
    exact other block depth isNext

end

/-! ## Parts of selections and loops -/

section

variable (backs : Backs k env w types) (selectable : Check.isSelectable ty = true)
  (holds : types.Has value (k.rep ty))
include backs selectable holds

theorem equalsAny (holdsHit : ∀ r ∈ hit, types.Has r .bool)
    (typed : Expr.WellTypedAll w ty values) :
    YieldsIf k env types (Expr.addressableAll values) (equalsAny value ty hit values) (Gives .bool) := by
  induction values generalizing types hit with
  | nil =>
    cases hit with
    | some hit => exact pure (holdsHit hit rfl)
    | none => exact emit (.const rfl) rfl
  | cons e rest ih =>
    have others (types' : Ir.Types) (le : types <+: types') (hit : Reg) (holdsHit : types'.Has hit .bool) :
        YieldsIf k env types' (Expr.addressableAll rest) (equalsAny value ty (some hit) rest) (Gives .bool) := by
      refine ih (backs.mono le) (holds.mono le) (fun r mem => ?_) typed.2.2
      cases mem
      exact holdsHit
    refine bindIf (valueAs backs ⟨typed.1, typed.2.1⟩ fun _ => isVoid_of_isSelectable selectable)
      fun candidate types1 le1 holdsCandidate => ?_
    refine bind (compare selectable (holds.mono le1) holdsCandidate) fun equal types2 le2 holdsEqual => ?_
    cases hit with
    | none => exact others types2 (le1.trans le2) equal holdsEqual
    | some hit =>
      refine bind (emit (.binary ((holdsHit hit rfl).mono (le1.trans le2)) holdsEqual rfl) rfl)
        fun either types3 le3 holdsEither => ?_
      exact others types3 (le1.trans (le2.trans le3)) either holdsEither

theorem caseTests (otherwise : BlockId) (typed : ∀ c ∈ tested, Expr.WellTypedAll w ty c.1) :
    RunsIf k env types (tested.all fun c => Expr.addressableAll c.1) (Lower.caseTests value ty otherwise tested) := by
  induction tested generalizing types with
  | nil => exact last (.br _)
  | cons c rest ih =>
    obtain ⟨values, body⟩ := c
    have first : YieldsIf k env types (Expr.addressableAll values)
        (Lower.withFrame (Lower.equalsAny value ty none values)) (Gives .bool) := by
      refine withFrame ?_ fun types types' a le holds => holds.mono le
      refine equalsAny backs selectable holds (fun r mem => ?_) (typed _ mem_cons_self)
      cases mem
    cases rest with
    | nil => exact bindIf first fun hit types1 le1 holdsHit => last (.condBr holdsHit _ _)
    | cons c' rest =>
      refine bindIf first fun hit types1 le1 holdsHit => keep (.createBlock _) fun next => ?_
      refine keep (.condBr holdsHit _ _) fun _ => keep (.setBlock _) fun _ => ?_
      exact ih (backs.mono le1) (holds.mono le1) fun c mem => typed c (mem_cons_of_mem _ mem)

end

end Yields

/-- What a `for` loop keeps in registers while it runs. -/
structure Counting (k : Linking) (types : Ir.Types) (ty : Ty) (address bound step : Reg) : Prop where
  counts : Counts ty true
  address : types.Has address (.ptr (k.rep ty))
  bound : types.Has bound (k.rep ty)
  step : types.Has step (k.rep ty)

theorem Counting.mono {bound step : Reg} (h : Counting k types ty address bound step) (more : types <+: types') :
    Counting k types' ty address bound step :=
  ⟨h.counts, h.address.mono more, h.bound.mono more, h.step.mono more⟩

namespace Yields

theorem advance (counting : Counting k types ty address bound step) (holdsCurrent : types.Has current (k.rep ty)) :
    Runs k env types (Lower.advance address current step ty) := by
  obtain ⟨counts, holds, -, holdsStep⟩ := counting
  unfold Lower.advance
  split
  next isString =>
    rw [k.rep_of_isString isString] at holds holdsCurrent holdsStep
    refine bind (runtimeHandle (by simp [runtime]) (.cons holdsCurrent (.cons holdsStep .nil)))
      fun next types1 le1 holdsNext => ?_
    refine keep (.runtimeVoid (by simp [runtime]) (.cons (holds.mono le1) (.cons holdsNext .nil))) fun _ => ?_
    exact last (.runtimeVoid (by simp [runtime, Owned.release]) (.cons holdsNext .nil))
  next notString =>
    have isNumeric := counts.resolve_right fun isString => notString (decide_eq_true isString.1)
    refine bind (emit (.binary holdsCurrent holdsStep (k.takes_sum isNumeric)) rfl) fun next types1 le1 holdsNext => ?_
    exact last (.perform (.store (holds.mono le1) holdsNext))

theorem one (program : env.program = k.program) (isNumeric : ty.isNumeric = true) :
    Yields k env types (Lower.one ty) (Gives (k.rep ty)) := by
  have fits := k.fits_one isNumeric
  unfold Lower.one
  split
  next isFloat =>
    rw [if_pos isFloat] at fits
    exact typeOf program (emit (.const fits) rfl)
  next isFloat =>
    rw [if_neg isFloat] at fits
    exact typeOf program (constInt fits)

theorem inLoop (inside : ∀ targets, YieldsIf k { env with loop := some targets } types b body Q)
    (onExit onContinue : BlockId) : YieldsIf k env types b (inLoop onExit onContinue body) Q :=
  get fun _ _ => withReader (inside _)

theorem inCase (next : Option BlockId)
    (inside : ∀ depth, YieldsIf k { env with nextCase := some ⟨next, depth⟩ } types b body Q) :
    YieldsIf k env types b (inCase next body) Q :=
  get fun _ _ => withReader (inside _)

section Loops

variable {body : Lower Unit} (inside : ∀ types', types <+: types' → ∀ targets,
  RunsIf k { env with loop := some targets } types' b body)

include inside

theorem doLoop : RunsIf k env types b (doLoop body) := by
  refine keep (.createBlock _) fun _ => keep (.createBlock _) fun _ => keep (.setBlock _) fun _ => ?_
  exact before (inLoop (inside types prefix_rfl) _ _) fun _ _ _ _ => keep (.br _) fun _ => last (.setBlock _)

section

variable (backs : Backs k env w types)
include backs

theorem whileLoop (typed : cond.WellTypedAs w .bool) :
    RunsIf k env types (cond.addressable && b) (whileLoop cond body) := by
  refine keep (.createBlock _) fun _ => keep (.createBlock _) fun _ => keep (.createBlock _) fun _ => ?_
  refine keep (.setBlock _) fun _ => bindIf (condition backs typed) fun holds types1 le1 isTruth => ?_
  refine keep (.condBr isTruth _ _) fun _ => keep (.setBlock _) fun _ => ?_
  exact before (inLoop (inside types1 le1) _ _) fun _ _ _ _ => keep (.br _) fun _ => last (.setBlock _)

theorem repeatLoop (typed : cond.WellTypedAs w .bool) :
    RunsIf k env types (b && cond.addressable) (repeatLoop body cond) := by
  refine keep (.createBlock _) fun _ => keep (.createBlock _) fun _ => keep (.createBlock _) fun _ => ?_
  refine keep (.setBlock _) fun _ => bindIf (inLoop (inside types prefix_rfl) _ _) fun _ types1 le1 _ => ?_
  refine keep (.setBlock _) fun _ => before (condition (backs.mono le1) typed) fun holds types2 _ isTruth => ?_
  exact keep (.condBr isTruth _ _) fun _ => last (.setBlock _)

theorem inclusiveLoop (counting : Counting k types ty address bound step) :
    RunsIf k env types b (inclusiveLoop address bound step ty body) := by
  refine typeOf backs.program (keep (.createBlock _) fun _ => keep (.createBlock _) fun _ => ?_)
  refine keep (.createBlock _) fun _ => keep (.createBlock _) fun _ => keep (.setBlock _) fun _ => ?_
  refine before (inLoop (inside types prefix_rfl) _ _) fun _ types1 le1 _ => keep (.setBlock _) fun _ => ?_
  have counting := counting.mono le1
  refine bind (emit (.load counting.address) rfl) fun current types2 le2 holds => ?_
  have counting := counting.mono le2
  refine bind (compare counting.counts.isSelectable holds counting.bound) fun done types3 le3 isTruth => ?_
  refine keep (.condBr isTruth _ _) fun _ => keep (.setBlock _) fun _ => ?_
  refine andThen (advance (counting.mono le3) (holds.mono le3)) fun _ _ => ?_
  exact keep (.br _) fun _ => last (.setBlock _)

theorem exclusiveLoop (counting : Counting k types ty address bound step) :
    RunsIf k env types b (exclusiveLoop address bound step ty body) := by
  refine typeOf backs.program (keep (.createBlock _) fun _ => keep (.createBlock _) fun _ => ?_)
  refine keep (.createBlock _) fun _ => keep (.createBlock _) fun _ => keep (.setBlock _) fun _ => ?_
  refine bind (emit (.load counting.address) rfl) fun current types1 le1 holds => ?_
  have counting := counting.mono le1
  refine bind (compare counting.counts.isSelectable holds counting.bound) fun done types2 le2 isTruth => ?_
  refine keep (.condBr isTruth _ _) fun _ => keep (.setBlock _) fun _ => ?_
  refine before (inLoop (inside types2 (le1.trans le2)) _ _) fun _ types3 le3 _ => keep (.setBlock _) fun _ => ?_
  have counting := counting.mono (le2.trans le3)
  refine bind (emit (.load counting.address) rfl) fun current' types4 le4 holds' => ?_
  refine andThen (advance (counting.mono le4) holds') fun _ _ => ?_
  exact keep (.br _) fun _ => last (.setBlock _)

theorem forLoop (typed : var.WellTyped w) (isVar : ∃ info id, var = .var info id) (counts : Counts var.ty step.isSome)
    (typedStart : start.WellTypedAs w var.ty) (typedBound : bound.WellTypedAs w var.ty)
    (typedStep : ∀ e ∈ step, e.WellTypedAs w var.ty) (inclusive : Bool) :
    RunsIf k env types (start.addressable && (bound.addressable && (step.all Expr.addressable && b)))
      (Lower.forLoop var start bound inclusive step body) := by
  have notVoid (_ : k.total) := isVoid_of_isSelectable counts.isSelectable
  have located : Yields k env types (Lower.expr .address var) (Gives (.ptr (k.rep var.ty))) := by
    obtain ⟨info, id, rfl⟩ := isVar
    exact expr (.var info id) backs typed notVoid .address
  refine bind located fun address types1 le1 holds => ?_
  refine bindIf (valueAs (backs.mono le1) typedStart notVoid) fun first types2 le2 holdsFirst => ?_
  refine andThen (storeValue (holds.mono le2) holdsFirst) fun types3 le3 => ?_
  have le := le1.trans (le2.trans le3)
  refine bindIf (valueAs (backs.mono le) typedBound notVoid) fun limit types4 le4 holdsBound => ?_
  have le := le.trans le4
  have rounds (stepReg : Reg) (types5 : Ir.Types) (le5 : types4 <+: types5) (holdsStep : types5.Has stepReg (k.rep var.ty)) :
      RunsIf k env types5 b (if inclusive then Lower.inclusiveLoop address limit stepReg var.ty body
        else Lower.exclusiveLoop address limit stepReg var.ty body) := by
    have counting : Counting k types5 var.ty address limit stepReg :=
      ⟨counts.any, holds.mono (le2.trans (le3.trans (le4.trans le5))), holdsBound.mono le5, holdsStep⟩
    have within (types' : Ir.Types) (more : types5 <+: types') := inside types' (le.trans (le5.trans more))
    split
    · exact inclusiveLoop within (backs.mono (le.trans le5)) counting
    · exact exclusiveLoop within (backs.mono (le.trans le5)) counting
  cases step with
  | none =>
    have isNumeric := counts.resolve_right fun isString => Bool.noConfusion isString.2
    exact bind (one backs.program isNumeric) fun reg types5 le5 holdsStep => rounds reg types5 le5 holdsStep
  | some step =>
    exact bindIf (valueAs (backs.mono le) (typedStep step rfl) notVoid) fun reg types5 le5 holdsStep =>
      rounds reg types5 le5 holdsStep

end

end Loops

end Yields

/-! ## Statements and blocks -/

theorem Backs.inLoop (backs : Backs k env w types) (loop : Option LoopTargets) : Backs k { env with loop } w types :=
  { backs with serves := fun total => { backs.serves total with } }

theorem Backs.inCase (backs : Backs k env w types) (nextCase : Option CaseTarget) :
    Backs k { env with nextCase } w types :=
  { backs with serves := fun total => { backs.serves total with } }

namespace Yields

mutual

theorem stmt : (s : Stmt) → {env : Env} → {types : Ir.Types} → {inLoop hasNext : Bool} → Backs k env w types →
    (k.total → Surrounds env inLoop hasNext) → s.WellTyped w → (k.total → s.Placed w inLoop hasNext) →
    RunsIf k env types s.addressable (stmt s)
  | .label _ id, env, _, _, _, _, _, _, _ => by
    refine read ?_
    cases env.labels.lookup id with
    | some block => exact last (.setBlock block)
    | none => exact pure trivial
  | .declare _ _ _ _, _, _, _, _, backs, _, typed, placed => declaration backs typed placed
  | .assign _ _ _, _, _, _, _, backs, _, typed, _ => assignment backs typed.1 typed.2.1 typed.2.2
  | .eval _ _, _, _, _, _, backs, _, typed, _ => effect backs typed
  | .ifChain _ bs otherwise, _, _, _, _, backs, around, typed, placed => by
    refine bind (createBlocks _ _) fun tests types1 le1 _ => bind (createBlocks _ _) fun bodies types2 le2 _ => ?_
    refine bind (createBlocks _ _) fun elses types3 le3 _ => keep (.createBlock _) fun merge => ?_
    have backs := backs.mono (le1.trans (le2.trans le3))
    refine bindIf (branches bs backs around typed.1 (fun total => (placed total).1) merge _ tests bodies)
      fun _ types4 le4 _ => ?_
    exact before (elseBranch otherwise (backs.mono le4) around typed.2 (fun total => (placed total).2) merge _)
      fun _ _ _ _ => last (.setBlock merge)
  | .select _ selector cs, _, _, _, _, backs, around, typed, placed => by
    obtain ⟨typedSelector, selectable, typedCases⟩ := typed
    refine bindIf (valueOf backs typedSelector fun _ => isVoid_of_isSelectable selectable) fun value types1 le1 holds => ?_
    refine keep (.createBlock _) fun past => bind (createBlocks _ _) fun bodies types2 le2 length => ?_
    have backs := backs.mono (le1.trans le2)
    have tests := caseTests backs selectable (holds.mono le2) (Lower.defaultBlock cs bodies past)
      (typed_testedCases typedCases bodies)
    rw [all_testedCases length] at tests
    refine bindIf tests fun _ types3 le3 _ => ?_
    exact before (caseBodies cs (backs.mono le3) around typedCases placed past bodies length)
      fun _ _ _ _ => last (.setBlock past)
  | .doLoop _ body, _, _, _, _, backs, around, typed, placed =>
    doLoop fun _ le targets => block body ((backs.mono le).inLoop _) (fun t => (around t).inLoop targets) typed placed
  | .whileLoop _ _ body, _, _, _, _, backs, around, typed, placed =>
    whileLoop (fun _ le targets =>
      block body ((backs.mono le).inLoop _) (fun t => (around t).inLoop targets) typed.2 placed) backs typed.1
  | .repeatLoop _ body _, _, _, _, _, backs, around, typed, placed =>
    repeatLoop (fun _ le targets =>
      block body ((backs.mono le).inLoop _) (fun t => (around t).inLoop targets) typed.2 placed) backs typed.1
  | .forLoop _ var start bound inclusive step body, _, _, _, _, backs, around, typed, placed => by
    obtain ⟨⟨typedVar, isVar, counts⟩, typedStart, typedBound, typedStep, typedBody⟩ := typed
    exact forLoop (fun _ le targets =>
      block body ((backs.mono le).inLoop _) (fun t => (around t).inLoop targets) typedBody placed)
      backs typedVar isVar counts typedStart typedBound typedStep inclusive
  | .goto _ id, _, _, _, _, _, _, _, _ => last (.gotoLabel id)
  | .ret _ _, _, _, _, _, backs, _, typed, _ => before (returnStmt backs typed) fun _ _ _ _ => last (.detach _)
  | .exitLoop span, _, _, _, _, _, around, _, placed | .continueLoop span, _, _, _, _, _, around, _, placed =>
    leaveLoop around placed span _
  | .fallthrough span, _, _, _, _, _, around, _, placed => fallThrough around placed span
  | .stop _, _, _, _, _, _, _, _, _ => last .stop

theorem stmts : (ss : List Stmt) → {env : Env} → {types : Ir.Types} → {inLoop hasNext : Bool} → Backs k env w types →
    (k.total → Surrounds env inLoop hasNext) → Stmt.WellTypedAll w ss → (k.total → Stmt.PlacedAll w inLoop hasNext ss) →
    RunsIf k env types (Stmt.addressableAll ss) (stmts ss)
  | [], _, _, _, _, _, _, _, _ => pure trivial
  | s :: rest, _, _, _, _, backs, around, typed, placed =>
    bindIf (stmt s backs around typed.1 fun total => (placed total).1) fun _ _ le _ =>
      stmts rest (backs.mono le) around typed.2 fun total => (placed total).2

theorem block : (body : Block) → {env : Env} → {types : Ir.Types} → {inLoop hasNext : Bool} → Backs k env w types →
    (k.total → Surrounds env inLoop hasNext) → body.WellTyped w → (k.total → body.Placed w inLoop hasNext) →
    RunsIf k env types body.addressable (block body)
  | .mk _ body, _, _, _, _, backs, around, typed, placed =>
    withFrame (stmts body backs around typed placed) fun _ _ _ _ _ => trivial

theorem branches : (bs : List Branch) → {env : Env} → {types : Ir.Types} → {inLoop hasNext : Bool} →
    Backs k env w types → (k.total → Surrounds env inLoop hasNext) → Branch.WellTypedAll w bs →
    (k.total → Branch.PlacedAll w inLoop hasNext bs) → (merge otherwise : BlockId) → (tests bodies : List BlockId) →
    RunsIf k env types (Branch.addressableAll bs) (branches merge otherwise tests bodies bs)
  | [], _, _, _, _, _, _, _, _, _, _, _, _ => pure trivial
  | .mk cond body :: rest, _, _, _, _, backs, around, typed, placed, merge, otherwise, tests, bodies => by
    refine bindIf (condition backs typed.1) fun holds types1 le1 isTruth => ?_
    refine keep (.condBr isTruth _ _) fun _ => keep (.setBlock _) fun _ => ?_
    refine bindIf (block body (backs.mono le1) around typed.2.1 fun total => (placed total).1) fun _ types2 le2 _ => ?_
    refine keep (.br _) fun _ => ?_
    have others (tests : List BlockId) := branches rest (backs.mono (le1.trans le2)) around typed.2.2
      (fun total => (placed total).2) merge otherwise tests bodies.tail
    cases tests with
    | nil => exact others []
    | cons test tests => exact keep (.setBlock _) fun _ => others tests

theorem elseBranch : (otherwise : Option Block) → {env : Env} → {types : Ir.Types} → {inLoop hasNext : Bool} →
    Backs k env w types → (k.total → Surrounds env inLoop hasNext) → Block.WellTypedOf w otherwise →
    (k.total → Block.PlacedOf w inLoop hasNext otherwise) → (merge elseBlock : BlockId) →
    RunsIf k env types (Block.addressableOf otherwise) (elseBranch merge elseBlock otherwise)
  | none, _, _, _, _, _, _, _, _, _, _ => pure trivial
  | some body, _, _, _, _, backs, around, typed, placed, _, _ =>
    keep (.setBlock _) fun _ => before (block body backs around typed placed) fun _ _ _ _ => last (.br _)

theorem caseBodies : (cs : List Case) → {env : Env} → {types : Ir.Types} → {inLoop hasNext : Bool} →
    Backs k env w types → (k.total → Surrounds env inLoop hasNext) → Case.WellTypedAll w ty cs →
    (k.total → Case.PlacedAll w inLoop cs) → (past : BlockId) → (bodies : List BlockId) → bodies.length = cs.length →
    RunsIf k env types (Case.addressableAll cs) (caseBodies past bodies cs)
  | [], _, _, _, _, _, _, _, _, _, _, _ => pure trivial
  | .mk values body :: rest, _, _, _, _, backs, around, typed, placed, past, bodies, length => by
    have fewer : bodies.tail.length = rest.length := by
      rw [length_tail, length]
      rfl
    refine keep (.setBlock _) fun _ => ?_
    refine bindIf (inCase _ fun depth => block body (backs.inCase _) (fun total => (around total).inCase fewer depth)
      typed.2.1 fun total => (placed total).1) fun _ _ le _ => keep (.br _) fun _ => ?_
    exact caseBodies rest (backs.mono le) around typed.2.2 (fun total => (placed total).2) past bodies.tail fewer

end

end Yields

end Lowering

end BasicCompiler
