/-
# The code of expressions is well typed

Where the variables in reach have addresses of the right types, a well-typed expression becomes code whose value is of
the type that represents the source type, or whose address is one of such a value.
-/
import BasicCompiler.Proofs.Lowering.Addresses
import BasicCompiler.Proofs.Lowering.Typing

namespace BasicCompiler.Lowering

open Typed Option List
open Typed (Outlook)
open Lower (Want)

/-! ## Surroundings -/

/-- What is around a body backs its outlook: variables and the target of the assignment at
work have addresses of their types. -/
structure Backs (k : Linking) (env : Env) (w : Outlook) (types : Ir.Types) : Prop where
  program : env.program = k.program
  table : w.types = k.program.types
  params : w.params? = k.program.callParams?
  result : w.result? = k.program.callResult?
  sees : ∀ id v, w.sees? id = some v → k.program.asVariable? id = some v ∧
    (v.storage = .global → id ∈ k.program.globals)
  slots : ∀ id slot v, env.slots.lookup id = some slot → k.program.asVariable? id = some v →
    types.Has slot (.ptr (k.rep v.type))
  target : ∀ address ty, env.target = some address → w.target? = some ty → types.Has address (.ptr (k.rep ty))
  returns : ∀ ty, w.returns? = some ty → ty.isVoid = false → k.result = k.rep ty
  ends : k.result = if env.isMain then .i32 else k.rep env.result
  serves : k.total → Serves env w

namespace Backs

theorem mono (h : Backs k env w types) (more : types <+: types') : Backs k env w types' :=
  { h with
    slots := fun id slot v found isVariable => (h.slots id slot v found isVariable).mono more
    target := fun address ty isTarget known => (h.target address ty isTarget known).mono more }

theorem assigning (h : Backs k env w types) {target : Expr} (solid : k.total → target.place.ty.IsSolid)
    (holds : types.Has address (.ptr (k.rep target.place.ty))) :
    Backs k { env with target := some address } (w.assigning target) types :=
  { h with
    target := fun address' ty isTarget known => by
      cases isTarget
      cases known
      exact holds
    serves := fun total => { h.serves total with
      target := fun ty known => by
        cases known
        exact solid total
      targets := fun _ _ => rfl } }

end Backs

def wanted (want : Want) (t : Ir.Ty) : Ir.Ty :=
  match want with
  | .value => t
  | .address | .slot => .ptr t

/-! ## Vectors -/

theorem builtinType_of_vector : ∀ t : BuiltinType, (t.isSimd && t.info.rows = 1) = true →
    builtinType p t = .vector (builtinType p t.component) t.info.cols := by
  cases p <;> decide

theorem builtinType_of_isSimd : ∀ t : BuiltinType, t.isSimd = true →
    builtinType p t = .vector (builtinType p t.component) t.info.components := by
  cases p <;> decide

theorem builtinType_of_vectorOf (made : vectorOf? component n = some r) (many : n ≠ 1) :
    builtinType p r = .vector (builtinType p component) n := by
  unfold vectorOf? at made
  split at made
  · exact absurd rfl many
  all_goals cases made
  all_goals rfl

theorem Linking.rep_of_held (k : Linking) (held : ty.isString = true ∨ ty.isArray = true) : k.rep ty = .handle :=
  held.elim k.rep_of_isString (irType_of_isArray)

theorem takes_sum_of_isNumeric : ∀ t : BuiltinType, t.isNumeric = true →
    (if (Ty.builtin t).isFloat then Ir.BinaryOpcode.fadd else .add).takes (builtinType p t) = true := by
  cases p <;> decide

theorem Linking.takes_sum (k : Linking) {ty : Ty} (isNumeric : ty.isNumeric = true) :
    (if ty.isFloat then Ir.BinaryOpcode.fadd else .add).takes (k.rep ty) = true := by
  obtain ⟨t, isBuiltin, isNumber⟩ := (any_eq_true _ _).mp isNumeric
  rw [k.rep_builtin isBuiltin, isFloat_of_builtin isBuiltin]
  exact takes_sum_of_isNumeric t isNumber

theorem Linking.fits_one (k : Linking) {ty : Ty} (isNumeric : ty.isNumeric = true) :
    (if ty.isFloat then Ir.Constant.float Double.one else .int 1).fits (k.rep ty) = true := by
  obtain ⟨t, isBuiltin, isNumber⟩ := (any_eq_true _ _).mp isNumeric
  obtain ⟨notBool, scalar⟩ := builtinType_of_isNumeric (w := k.width) t isNumber
  rw [k.rep_builtin isBuiltin, isFloat_of_builtin isBuiltin]
  unfold IsScalar at scalar
  split
  next isFloat => rwa [if_pos isFloat] at scalar
  next isFloat =>
    rw [if_neg isFloat] at scalar
    exact (Bool.and_eq_true _ _).mpr ⟨scalar, bne_iff_ne.mpr notBool⟩

theorem Linking.rep_of_picks (k : Linking) {base result : Ty} (picks : Picks base result axes) :
    ∃ lane count, k.rep base = .vector lane count ∧
      (∀ axis ∈ axes, axis < count) ∧ k.rep result = if axes.length = 1 then lane else .vector lane axes.length := by
  obtain ⟨t, r, isVector, below, made, rfl⟩ := picks
  obtain ⟨isBuiltin, flat⟩ := filter_eq_some_iff.mp isVector
  refine ⟨builtinType k.width t.component, t.info.cols, ?_, below, ?_⟩
  · rw [k.rep_builtin isBuiltin, builtinType_of_vector t flat]
  · rw [k.rep_builtin rfl]
    split
    next single =>
      rw [single] at made
      cases made
      rfl
    next several => exact builtinType_of_vectorOf made several

namespace Yields

variable (backs : Backs k env w types)

theorem components (picks : Picks base result axes) (holds : types.Has vector (k.rep base)) :
    Yields k env types (Lower.components vector axes) (Gives (k.rep result)) := by
  obtain ⟨lane, count, isVector, below, isResult⟩ := k.rep_of_picks picks
  rw [isVector] at holds
  rw [isResult]
  unfold Lower.components
  split
  next axis => exact emit (.extract holds (below axis mem_cons_self)) rfl
  next several =>
    have many : axes.length ≠ 1 := by
      intro one
      obtain ⟨axis, same⟩ := length_eq_one_iff.mp one
      exact several axis same
    rw [if_neg many]
    exact emit (.shuffle holds below) rfl

include backs

/-! ## Expressions -/

theorem varAddress {id : SymbolId} (seen : w.sees? id = some v) :
    Yields k env types (Lower.varAddress id) (Gives (.ptr (k.rep v.type))) := by
  obtain ⟨isVariable, atRoot⟩ := backs.sees id v seen
  refine read ?_
  cases inSlot : env.slots.lookup id with
  | some slot => exact pure (backs.slots id slot v inSlot isVariable)
  | none =>
    split
    next impossible => cases impossible
    next _ name span scope type _ found =>
      rw [backs.program] at found
      have same : v = ⟨type, .global⟩ := by
        unfold Program.asVariable? at isVariable
        rw [found] at isVariable
        exact (some.inj isVariable).symm
      subst same
      intro s fits
      have address := fits.globals id (atRoot rfl) name span scope type found
      rw [Lower.emit_ok.mpr ⟨rfl, rfl⟩]
      exact .filled fits (fits.typed.emit (.global address) fun isCall => by cases isCall) rfl
    next symbol other _ found =>
      refine fail fun total => ?_
      obtain ⟨name, span, scope, type, isGlobal⟩ := (backs.serves total).global seen inSlot
      exact other name span scope type (some.inj (found.symm.trans isGlobal))
    next found =>
      refine fail fun total => ?_
      obtain ⟨name, span, scope, type, isGlobal⟩ := (backs.serves total).global seen inSlot
      cases found.symm.trans isGlobal

theorem fromPlace (want : Want) (holds : types.Has address (.ptr (k.rep info.ty))) :
    Yields k env types (Lower.fromPlace want info address) (Gives (wanted want (k.rep info.ty))) := by
  cases want with
  | value => exact typeOf backs.program (emit (.load holds) rfl)
  | address | slot => exact pure holds

theorem fromValue (want : Want) (computes : YieldsIf k env types b m (Gives (k.rep info.ty))) :
    YieldsIf k env types (gives b false want) (Lower.fromValue want info m)
      (Gives (wanted want (k.rep info.ty))) := by
  cases want with
  | value => exact computes
  | address =>
    rw [gives, Bool.and_false]
    exact noAddress _
  | slot =>
    refine before computes fun value types1 _ holds => typeTable backs.program ?_
    refine bind (slot _) fun place types2 le2 holdsPlace => ?_
    exact keep (.perform (.store holdsPlace (holds.mono le2))) fun _ => pure holdsPlace

end Yields

namespace Yields

mutual

theorem expr : (e : Expr) → {types : Ir.Types} → Backs k env w types → e.WellTyped w →
    (k.total → e.ty.isVoid = false) → (want : Want) →
    YieldsIf k env types (gives e.addressable e.isPlace want) (Lower.expr want e) (Gives (wanted want (k.rep e.ty)))
  | .const info value, types, backs, typed, _, want => by
    exact fromValue backs want (constant backs.program typed)
  | .var info id, types, backs, typed, _, want => by
    obtain ⟨v, seen, same⟩ := typed
    rw [show (Expr.var info id).isPlace = true from rfl, gives_place]
    refine bind (varAddress backs seen) fun address types' le holds => ?_
    rw [← same] at holds
    exact fromPlace (backs.mono le) want holds
  | .member info base index, types, backs, typed, _, want => by
    obtain ⟨typedBase, id, m, isUser, isMember, same⟩ := typed
    rw [show (Expr.member info base index).isPlace = true from rfl, gives_place]
    refine before (expr base backs typedBase (fun _ => by rw [isUser]; rfl) .slot) fun place types1 le1 holds => ?_
    rw [wanted, isUser, Linking.rep, irType_user k.nested, ← backs.table] at holds
    have field : ((w.types.get id).members.map fun m => irType w.types m.type)[index]? = some (k.rep info.ty) := by
      rw [List.getElem?_map, isMember, same, Linking.rep, ← backs.table]
      rfl
    refine bind (emit (.field holds field) rfl) fun address types2 le2 holdsField => ?_
    exact fromPlace (backs.mono (le1.trans le2)) want holdsField
  | .index info base place, types, backs, typed, _, want => by
    obtain ⟨typedBase, typedPlace, isArray, isInt⟩ := typed
    rw [show (Expr.index info base place).isPlace = true from rfl, gives_place]
    refine bindIf (expr base backs typedBase (fun _ => by rw [isArray]; rfl) .value)
      fun handle types1 le1 holds => ?_
    refine before (expr place (backs.mono le1) typedPlace (fun _ => by rw [isInt]; rfl) .value)
      fun position types2 le2 holdsPosition => ?_
    rw [wanted, isArray, Linking.rep, irType_arrayOf] at holds
    rw [wanted, isInt, Linking.rep, irType_int32] at holdsPosition
    refine bind (runtimeHandle (by simp [runtime]) (.cons (holds.mono le2) (.cons holdsPosition .nil)))
      fun raw types3 le3 holdsRaw => ?_
    refine typeOf backs.program ?_
    refine bind (emit (.cast holdsRaw (k.casts _ _ _ (Ir.Cast.leads_pointers _ _ _))) rfl)
      fun address types4 le4 holdsAddress => ?_
    exact fromPlace (backs.mono (le1.trans (le2.trans (le3.trans le4)))) want holdsAddress
  | .swizzle info base axes, types, backs, typed, _, want => by
    obtain ⟨typedBase, picks⟩ := typed
    refine fromValue backs want (before (expr base backs typedBase (fun _ => picks.isVoid) .value)
      fun vector types' _ holds => ?_)
    exact components picks holds
  | .call info callee args, types, backs, typed, notVoid, want => by
    obtain ⟨params, known, arity, typedArgs, gives⟩ := typed
    have passed := arguments args backs (fun total => (backs.serves total).params callee params known) typedArgs
    rw [backs.params] at known
    rw [backs.result] at gives
    refine fromValue backs want (before passed fun regs types1 le1 answer => ?_)
    obtain ⟨count, passes⟩ := answer
    rw [← count] at arity
    refine bind (callWith backs.program known gives arity passes) fun reg types2 le2 holds => ?_
    cases reg with
    | some reg => exact pure (holds.2 reg rfl)
    | none => exact fail fun total => Bool.noConfusion (holds.1 (notVoid total))
  | .construct info parts, types, backs, typed, _, want => by
    obtain ⟨t, isBuiltin, isSimd, count, typedParts⟩ := typed
    have solid : (Ty.builtin t.component).IsSolid := BuiltinType.component_ne_void t isSimd
    refine fromValue backs want (before (exprs parts backs (fun _ => solid.isVoid) typedParts)
      fun lanes types' _ answer => ?_)
    obtain ⟨length, holds⟩ := answer
    have rep : k.rep info.ty = .vector (builtinType k.width t.component) lanes.length := by
      rw [isBuiltin, k.rep_builtin rfl, builtinType_of_isSimd t isSimd, length, count]
    refine typeOf backs.program ?_
    rw [rep]
    rw [k.rep_builtin rfl] at holds
    exact emit (.vector holds) rfl
  | .unary info op operand, types, backs, typed, _, want => by
    obtain ⟨typedOperand, allowed, same⟩ := typed
    refine fromValue backs want (before (expr operand backs typedOperand (fun _ => allowed.isSolid.isVoid) .value)
      fun value types' _ holds => ?_)
    rw [same]
    exact unary allowed holds
  | .binary info op left right, types, backs, typed, _, want => by
    obtain ⟨typedLeft, typedRight, same, between⟩ := typed
    refine fromValue backs want (bindIf (expr left backs typedLeft (fun _ => between.operand.isVoid) .value)
      fun l types1 le1 holdsLeft => ?_)
    refine before (expr right (backs.mono le1) typedRight (fun _ => same ▸ between.operand.isVoid) .value)
      fun r types2 le2 holdsRight => ?_
    rw [← same] at holdsRight
    exact binary backs.program between (holdsLeft.mono le2) holdsRight
  | .convert info conversion operand, types, backs, typed, _, want => by
    obtain ⟨typedOperand, converts⟩ := typed
    refine fromValue backs want (before (expr operand backs typedOperand (fun _ => converts.builtins.1) .value)
      fun value types' _ holds => ?_)
    exact convert backs.program converts holds info.span
  | .target info, types, backs, typed, _, want => by
    refine fromValue backs want (read ?_)
    cases isTarget : env.target with
    | some address => exact typeOf backs.program (emit (.load (backs.target address info.ty isTarget typed)) rfl)
    | none =>
      refine fail fun total => ?_
      have known := (backs.serves total).targets info.ty typed
      rw [isTarget] at known
      cases known

theorem exprs : (es : List Expr) → {types : Ir.Types} → Backs k env w types → (k.total → ty.isVoid = false) →
    Expr.WellTypedAll w ty es → YieldsIf k env types (Expr.addressableAll es) (Lower.exprs es) fun types regs =>
      regs.length = es.length ∧ ∀ r ∈ regs, types.Has r (k.rep ty)
  | [], types, backs, _, typed => pure ⟨rfl, forall_mem_nil _⟩
  | e :: rest, types, backs, notVoid, typed => by
    obtain ⟨typedFirst, same, typedRest⟩ := typed
    refine bindIf (expr e backs typedFirst (same ▸ notVoid) .value) fun reg types1 le1 holds => ?_
    rw [wanted, same] at holds
    refine before (exprs rest (backs.mono le1) notVoid typedRest) fun regs types2 le2 answer => pure ?_
    exact ⟨congrArg (· + 1) answer.1, forall_mem_cons.mpr ⟨holds.mono le2, answer.2⟩⟩

theorem argument : (arg : Arg) → {types : Ir.Types} → Backs k env w types → (k.total → p.type.IsSolid) →
    arg.WellTyped w p → YieldsIf k env types arg.addressable (Lower.argument arg)
      (Gives (paramType k.program.types p.type p.pass))
  | .value e, types, backs, solid, typed => by
    obtain ⟨byValue, typedValue, same⟩ := typed
    have value := expr e backs typedValue (fun total => same ▸ (solid total).isVoid) .value
    rw [wanted, same] at value
    rw [paramType, byValue]
    exact value
  | .place e, types, backs, solid, typed => by
    obtain ⟨byRef, typedPlace, -, same⟩ := typed
    have place := expr e backs typedPlace (fun total => same ▸ (solid total).isVoid) .address
    rw [wanted, same] at place
    rw [paramType, byRef]
    exact place

theorem arguments : (args : List Arg) → {types : Ir.Types} → Backs k env w types →
    (k.total → ∀ p ∈ params, p.type.IsSolid) → Arg.WellTypedAll w params args →
    YieldsIf k env types (Arg.addressableAll args) (Lower.arguments args) fun types regs =>
      regs.length = args.length ∧ ArgsFit k types params regs
  | [], types, backs, _, typed => by
    refine pure ⟨rfl, ?_⟩
    cases params <;> trivial
  | arg :: rest, types, backs, solid, typed => by
    cases params with
    | nil => cases typed
    | cons p ps =>
      have others : k.total → ∀ q ∈ (if p.count.isRepeated then p :: ps else ps), q.type.IsSolid := by
        intro total q mem
        split at mem
        · exact solid total q mem
        · exact solid total q (mem_cons_of_mem _ mem)
      refine bindIf (argument arg backs (fun total => solid total p mem_cons_self) typed.1)
        fun reg types1 le1 holds => ?_
      refine before (arguments rest (backs.mono le1) others typed.2) fun regs types2 le2 answer => pure ?_
      exact ⟨congrArg (· + 1) answer.1, holds.mono le2, answer.2⟩

end

theorem valueOf (backs : Backs k env w types) (typed : e.WellTyped w) (notVoid : k.total → e.ty.isVoid = false) :
    YieldsIf k env types e.addressable (Lower.expr .value e) (Gives (k.rep e.ty)) :=
  expr e backs typed notVoid .value

theorem valueAs (backs : Backs k env w types) (typed : e.WellTypedAs w ty) (notVoid : k.total → ty.isVoid = false) :
    YieldsIf k env types e.addressable (Lower.expr .value e) (Gives (k.rep ty)) := by
  obtain ⟨typed, rfl⟩ := typed
  exact valueOf backs typed notVoid

end Yields

end BasicCompiler.Lowering
