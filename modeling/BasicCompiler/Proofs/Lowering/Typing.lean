/-
# The code of expressions is well typed

Where the variables in reach have addresses of the right types, a well-typed expression becomes instructions that find
operands of the types they need, and its value is of the type that represents the source type. If besides all that is
referred to has values, nothing but the want of an address can stop the lowering.
-/
import BasicCompiler.Proofs.Ir.TypedBuilding
import BasicCompiler.Proofs.Lowering.Representation
import BasicCompiler.Proofs.Lowering.Run

namespace BasicCompiler.Lowering

open Ir (BlockId Reg)
open List Lower Option Typed Ir.Builder Bool
open Typed (Outlook)
open Lower (Want)

/-! ## What code refers to -/

/-- What a function is lowered with: the rules of the target, with the signatures of all that
can be called, and what is returned as it is linked. Where it is `total`, a step that fails
has to be accounted for. -/
structure Linking where
  program : Program
  rules : Ir.Rules
  result : Ir.Ty
  total : Prop
  casts : ∀ kind source target, Ir.Cast.leads program.types.pointer kind source target = true →
    rules.takes kind source target = true
  nested : program.types.IsNested
  runtime : ∀ r ∈ Lowering.runtime, rules.signature r.1 ⟨r.2.1, false, r.2.2⟩
  commands : ∀ c ∈ program.commands, rules.signature c.linkName
    ⟨(commandParams program.types c.params).1, (commandParams program.types c.params).2, irType program.types c.result⟩
  functions : ∀ f ∈ program.functions, ∃ params, paramInfos program f.span f.params = .ok params ∧
    rules.signature f.linkName ⟨params.map (·.irType program.types), false, irType program.types f.result⟩

namespace Linking

def linkage (k : Linking) : Ir.Linkage := ⟨k.rules, fun _ => none⟩

def rep (k : Linking) (ty : Ty) : Ir.Ty := irType k.program.types ty

variable (k : Linking)

abbrev width (k : Linking) : PointerWidth := k.program.types.pointer

theorem rep_builtin (isBuiltin : ty.builtin? = some t) : k.rep ty = builtinType k.width t := irType_of_builtin isBuiltin

theorem rep_bool : k.rep .bool = .bool := irType_bool

theorem rep_string : k.rep .string = .handle := irType_string

theorem rep_of_isString (isString : ty.isString = true) : k.rep ty = .handle := irType_of_isString isString

theorem int_fits (isInteger : ty.isInteger = true) (notBool : ty ≠ .bool) (value : Int64) :
    (Ir.Constant.int value).fits (k.rep ty) = true := by
  obtain ⟨t, isBuiltin, isNumber⟩ := (any_eq_true _ _).mp isInteger
  rw [k.rep_builtin isBuiltin]
  refine builtinType_of_isInteger t isNumber ?_
  rintro rfl
  exact notBool (Ty.eq_builtin isBuiltin (by decide) (by decide))

theorem isScalar_of_isSelectable (selectable : Check.isSelectable ty = true)
    (notString : ty.isString = false) : IsScalar ty (k.rep ty) := by
  unfold Check.isSelectable at selectable
  rw [notString, Bool.or_false, Bool.or_eq_true, decide_eq_true_eq] at selectable
  rcases selectable with isNumeric | rfl
  · obtain ⟨t, isBuiltin, isNumber⟩ := (any_eq_true _ _).mp isNumeric
    have scalar := (builtinType_of_isNumeric (w := k.width) t isNumber).2
    unfold IsScalar at scalar ⊢
    rwa [k.rep_builtin isBuiltin, isFloat_of_builtin isBuiltin]
  · rw [k.rep_bool]
    decide

end Linking

/-- What the register of a pending release holds. -/
def Cleanup.type (c : Cleanup) : Ir.Ty := if c.isSlot then .ptr .handle else .handle

/-- What has been built is well typed, the globals are found, and what is to be released is
there. -/
structure Fits (k : Linking) (types : Ir.Types) (s : LowerState) : Prop where
  typed : s.builder.Typed k.rules types k.result
  texts : ∀ g ∈ s.builder.module.globals, g.address = .handle ∨ ∃ name, g.name = globalName name
  globals : ∀ id ∈ k.program.globals, ∀ name span scope type,
    k.program.scopes.get? id = some ⟨name, span, scope, .variable ⟨type, .global⟩⟩ →
      s.builder.module.address? (globalName name) = some (.ptr (k.rep type))
  pending : ∀ c ∈ s.cleanups.frames.flatten, types.Has c.reg c.type

/-- A step has given types to the registers that it filled, such that the code stays well
typed. It succeeds only where `possible` holds, and for want of an address fails only where
`sure` does not. -/
def Answers {α : Type} (k : Linking) (types : Ir.Types) (sure possible : Bool) (Q : Ir.Types → α → Prop) :
    Except LowerError (α × LowerState) → Prop
  | .ok (a, s) => (k.total → possible = true) ∧ ∃ types', types <+: types' ∧ Fits k types' s ∧ Q types' a
  | .error e => k.total → sure = false ∧ e.fault = .noAddress

def YieldsIf {α : Type} (k : Linking) (env : Env) (types : Ir.Types) (b : Bool) (m : Lower α)
    (Q : Ir.Types → α → Prop) : Prop :=
  ∀ s, Fits k types s → Answers k types b b Q (m env s)

abbrev Yields {α : Type} (k : Linking) (env : Env) (types : Ir.Types) (m : Lower α) (Q : Ir.Types → α → Prop) : Prop :=
  YieldsIf k env types true m Q

/-- The step fills no register, and the code stays well typed. -/
def Keeps {α : Type} (k : Linking) (env : Env) (types : Ir.Types) (m : Lower α) : Prop :=
  ∀ s, Fits k types s → ∃ a s', m env s = .ok (a, s') ∧ Fits k types s'

abbrev RunsIf {α : Type} (k : Linking) (env : Env) (types : Ir.Types) (b : Bool) (m : Lower α) : Prop :=
  YieldsIf k env types b m fun _ _ => True

abbrev Runs {α : Type} (k : Linking) (env : Env) (types : Ir.Types) (m : Lower α) : Prop :=
  Yields k env types m fun _ _ => True

variable {k : Linking} {env : Env} {types : Ir.Types}

abbrev Gives (t : Ir.Ty) (types : Ir.Types) (r : Reg) : Prop := types.Has r t

namespace Yields

/-! ## Rules -/

variable {b : Bool}

theorem pure (answer : Q types a) : Yields k env types (Pure.pure a) Q :=
  fun _ fits => ⟨fun _ => rfl, types, prefix_rfl, fits, answer⟩

theorem fail {span : Span} (never : ¬ k.total) : YieldsIf k env types b (fail fault span : Lower α) Q :=
  fun _ _ total => (never total).elim

theorem noAddress (span : Span) : YieldsIf k env types false (Lower.fail .noAddress span : Lower α) Q :=
  fun _ _ _ => ⟨rfl, rfl⟩

theorem bindAt (first : YieldsIf k env types b m Q) (second : ∀ a types' s, types <+: types' → Q types' a →
    Fits k types' s → Answers k types' sure possible R (f a env s)) (fits : Fits k types s) :
    Answers k types (b && sure) (b && possible) R ((m >>= f) env s) := by
  change Answers _ _ _ _ _ (m env s >>= fun p => f p.1 env p.2)
  have here := first s fits
  cases run : m env s with
  | error e =>
    rw [run] at here
    intro total
    obtain ⟨rfl, fault⟩ := here total
    exact ⟨rfl, fault⟩
  | ok p =>
    rw [run] at here
    obtain ⟨holds, types1, le1, fits1, answer⟩ := here
    have there := second p.1 types1 p.2 le1 answer fits1
    change Answers _ _ _ _ _ (f p.1 env p.2)
    cases run2 : f p.1 env p.2 with
    | error e =>
      rw [run2] at there
      intro total
      rw [holds total]
      exact there total
    | ok r =>
      rw [run2] at there
      obtain ⟨holds', types2, le2, fits2, answer2⟩ := there
      refine ⟨fun total => ?_, types2, le1.trans le2, fits2, answer2⟩
      rw [holds total]
      exact holds' total

theorem bindIf (first : YieldsIf k env types b m Q)
    (second : ∀ a types', types <+: types' → Q types' a → YieldsIf k env types' b' (f a) R) :
    YieldsIf k env types (b && b') (m >>= f) R :=
  fun _ fits => bindAt first (fun a types' s le answer fits => second a types' le answer s fits) fits

theorem bind (first : Yields k env types m Q)
    (second : ∀ a types', types <+: types' → Q types' a → YieldsIf k env types' b (f a) R) :
    YieldsIf k env types b (m >>= f) R := bindIf first second

theorem before (first : YieldsIf k env types b m Q)
    (second : ∀ a types', types <+: types' → Q types' a → Yields k env types' (f a) R) :
    YieldsIf k env types b (m >>= f) R := by
  have both := bindIf first second
  rwa [Bool.and_true] at both

theorem andThen (first : Runs k env types m)
    (second : ∀ types', types <+: types' → YieldsIf k env types' b (u ()) R) : YieldsIf k env types b (m >>= u) R :=
  bind first fun _ types' le _ => second types' le

theorem last (kept : Keeps k env types m) : Runs k env types m := by
  intro s fits
  obtain ⟨a, s', run, fits'⟩ := kept s fits
  rw [run]
  exact ⟨fun _ => rfl, types, prefix_rfl, fits', trivial⟩

theorem keep (kept : Keeps k env types m) (next : ∀ a, YieldsIf k env types b (f a) R) :
    YieldsIf k env types b (m >>= f) R := by
  intro s fits
  obtain ⟨a, s', run, fits'⟩ := kept s fits
  change Answers _ _ _ _ _ (m env s >>= fun p => f p.1 env p.2)
  rw [run]
  exact next a s' fits'

theorem thenAt (first : Yields k env types m Q) (second : ∀ a types' s, types <+: types' → Q types' a →
    Fits k types' s → Answers k types' sure possible R (f a env s)) (fits : Fits k types s) :
    Answers k types sure possible R ((m >>= f) env s) := bindAt first second fits

theorem read (next : YieldsIf k env types b (f env) Q) :
    YieldsIf k env types b (MonadReader.read >>= f) Q := next

theorem get (next : ∀ s, Fits k types s → YieldsIf k env types b (f s) Q) :
    YieldsIf k env types b (MonadState.get >>= f) Q := fun s fits => next s fits s fits

theorem withReader (inside : YieldsIf k (g env) types b m Q) : YieldsIf k env types b (withReader g m) Q := inside

section Program

variable (program : env.program = k.program)

include program

theorem typeTable (next : YieldsIf k env types b (f k.program.types) Q) :
    YieldsIf k env types b (Lower.types >>= f) Q := by
  rw [← program] at next
  exact next

theorem typeOf (next : YieldsIf k env types b (f (k.rep ty)) Q) :
    YieldsIf k env types b (typeOf ty >>= f) Q := by
  rw [Linking.rep, ← program] at next
  exact next

end Program

end Yields

/-! ## Building -/

namespace Fits

theorem edit (h : Fits k types s) (more : types <+: types') (typed : (step s.builder).Typed k.rules types' k.result)
    (globals : (step s.builder).module.globals = s.builder.module.globals) :
    Fits k types' (s.edit step) where
  typed := typed
  texts g mem := by
    rw [LowerState.edit_builder, globals] at mem
    exact h.texts g mem
  globals id isGlobal name span scope type found := by
    exact Ir.Module.address_mono (globals ▸ prefix_rfl) (h.globals id isGlobal name span scope type found)
  pending c mem := (h.pending c mem).mono more

theorem tidy (h : Fits k types s) (pending : ∀ c ∈ (step s.cleanups).frames.flatten, types.Has c.reg c.type) :
    Fits k types (s.tidy step) := { h with pending }

theorem linkage_le (s : LowerState) : k.linkage.Le (s.builder.linkage k.rules) := ⟨rfl, fun _ _ found => by cases found⟩

end Fits

theorem Answers.filled (fits : Fits k types s) (typed : (step s.builder).Typed k.rules (types ++ [t]) k.result)
    (globals : (step s.builder).module.globals = s.builder.module.globals) :
    Answers k types true true (Gives t) (.ok (s.builder.nextReg, s.edit step)) :=
  ⟨fun _ => rfl, types ++ [t], prefix_append _ _, fits.edit (prefix_append _ _) typed globals, fits.typed.has_next⟩

theorem text_ne_globalName (n : Nat) (name : String) : s!".str.{n}" ≠ globalName name := by
  intro same
  have chars := congrArg String.toList same
  simp [globalName, show toString ".str." = ".str." from rfl] at chars

namespace Yields

theorem emit (typed : op.HasType k.linkage types t) (plain : op.isCall = false) :
    Yields k env types (emit op) (Gives t) := by
  intro s fits
  have typed' := typed.mono (Fits.linkage_le s) prefix_rfl
  have added := fits.typed.emit typed' fun isCall => by rw [plain] at isCall; cases isCall
  rw [emit_ok.mpr ⟨rfl, rfl⟩]
  exact .filled fits added rfl

theorem call (found : k.rules.signature callee sig) (accepts : sig.Accepts types args)
    (notVoid : sig.result ≠ .void) : Yields k env types (call callee args) (Gives sig.result) := by
  intro s fits
  rw [Lower.call, emit_ok.mpr ⟨rfl, rfl⟩]
  exact .filled fits (fits.typed.emit (.call found accepts) fun _ => notVoid) rfl

theorem slot (type : Ir.Ty) : Yields k env types (build (·.alloca type)) (Gives (.ptr type)) := by
  intro s fits
  have globals : (s.builder.alloca type).2.module.globals = s.builder.module.globals := by
    rw [(alloca_rest type).2]
  rw [build_ok.mpr ⟨rfl, rfl⟩, alloca_fst]
  exact .filled fits (fits.typed.alloca type) globals

theorem text (content : String) : Yields k env types (build (·.stringConstant content)) (Gives .handle) := by
  intro s fits
  have texts : ∀ g ∈ s.builder.module.globals, g.name = s!".str.{s.builder.nextString}" →
      g.address = .handle := by
    intro g mem named
    rcases fits.texts g mem with isText | ⟨name, isVariable⟩
    · exact isText
    · exact absurd (named.symm.trans isVariable) (text_ne_globalName _ name)
  have typed := fits.typed.stringConstant content texts
  refine ⟨fun _ => rfl, types ++ [.handle], prefix_append _ _, ⟨typed, ?_, ?_, ?_⟩, fits.typed.has_next⟩
  · exact forall_mem_append.mpr ⟨fits.texts, forall_mem_singleton.mpr (.inl rfl)⟩
  · intro id isGlobal name span scope type found
    exact Ir.Module.address_mono (prefix_append _ _) (fits.globals id isGlobal name span scope type found)
  · exact fun c mem => (fits.pending c mem).mono (prefix_append _ _)

end Yields

namespace Keeps

theorem bind (first : Keeps k env types m) (second : ∀ a, Keeps k env types (f a)) : Keeps k env types (m >>= f) := by
  intro s fits
  obtain ⟨a, s1, run1, fits1⟩ := first s fits
  obtain ⟨c, s2, run2, fits2⟩ := second a s1 fits1
  exact ⟨c, s2, bind_ok.mpr ⟨a, s1, run1, run2⟩, fits2⟩

theorem pure (a : α) : Keeps k env types (Pure.pure a) := fun s fits => ⟨a, s, rfl, fits⟩

theorem read (next : Keeps k env types (f env)) : Keeps k env types (MonadReader.read >>= f) := next

theorem set (fits : Fits k types s) : Keeps k env types (MonadStateOf.set s : Lower Unit) :=
  fun _ _ => ⟨(), s, rfl, fits⟩

theorem perform (typed : op.HasType k.linkage types .void) : Keeps k env types (perform op) := by
  intro s fits
  have added := fits.typed.perform (typed.mono (Fits.linkage_le s) prefix_rfl)
  exact ⟨(), _, perform_ok.mpr rfl, fits.edit prefix_rfl added rfl⟩

theorem callVoid (found : k.rules.signature callee sig) (accepts : sig.Accepts types args)
    (isVoid : sig.result = .void) : Keeps k env types (callVoid callee args) :=
  perform (isVoid ▸ .call found accepts)

theorem createBlock (label : String) : Keeps k env types (createBlock label) :=
  fun _ fits => ⟨_, _, createBlock_ok.mpr ⟨rfl, rfl⟩, fits.edit prefix_rfl (fits.typed.createBlock label) rfl⟩

theorem setBlock (id : BlockId) : Keeps k env types (setBlock id) := by
  intro s fits
  refine ⟨(), _, setBlock_ok.mpr rfl, fits.edit prefix_rfl (fits.typed.setBlock id) ?_⟩
  rw [setBlock_module]

theorem terminate (typed : t.WellTyped types k.result) : Keeps k env types (terminate t) :=
  fun _ fits => ⟨(), _, terminate_ok.mpr rfl, fits.edit prefix_rfl (fits.typed.terminate typed) rfl⟩

theorem changeCleanups (fewer : ∀ stack c, c ∈ (step stack).frames.flatten → c ∈ stack.frames.flatten) :
    Keeps k env types (changeCleanups step) :=
  fun _ fits => ⟨(), _, changeCleanups_ok.mpr rfl, fits.tidy fun c mem => fits.pending c (fewer _ c mem)⟩

theorem register (holds : types.Has c.reg c.type) : Keeps k env types (register c) := by
  intro s fits
  refine ⟨(), _, changeCleanups_ok.mpr rfl, fits.tidy fun d mem => ?_⟩
  rcases mem_register mem with old | rfl
  · exact fits.pending d old
  · exact holds

end Keeps

/-! ## Calls of the runtime -/

section Runtime

variable {params : List Ir.Ty}

theorem Yields.runtimeCall (isRuntime : (name, params, result) ∈ runtime)
    (passed : Forall₂ types.Has args params) (notVoid : result ≠ .void) :
    Yields k env types (Lower.call name args) (Gives result) :=
  call (k.runtime _ isRuntime) (.of_all passed) notVoid

theorem Yields.runtimeHandle (isRuntime : (name, params, Ir.Ty.handle) ∈ runtime)
    (passed : Forall₂ types.Has args params) : Yields k env types (Lower.call name args) (Gives .handle) :=
  runtimeCall isRuntime passed Ir.Ty.noConfusion

theorem Keeps.runtimeVoid (isRuntime : (name, params, Ir.Ty.void) ∈ runtime)
    (passed : Forall₂ types.Has args params) : Keeps k env types (Lower.callVoid name args) :=
  callVoid (k.runtime _ isRuntime) (.of_all passed) rfl

end Runtime

namespace Yields

theorem freshString (found : k.rules.signature callee sig) (accepts : sig.Accepts types args)
    (isHandle : sig.result = .handle) : Yields k env types (freshString callee args) (Gives .handle) := by
  have notVoid : sig.result ≠ .void := by
    rw [isHandle]
    exact Ir.Ty.noConfusion
  refine bind (call found accepts notVoid) fun handle types' _ holds => ?_
  rw [isHandle] at holds
  exact keep (.register holds) fun _ => pure holds

theorem runtimeString {params : List Ir.Ty} (isRuntime : (name, params, Ir.Ty.handle) ∈ runtime)
    (passed : Forall₂ types.Has args params) :
    Yields k env types (Lower.freshString name args) (Gives .handle) :=
  freshString (k.runtime _ isRuntime) (.of_all passed) rfl

theorem castWith (holds : types.Has reg source) (fits : carries k.width kind source target = true) :
    Yields k env types (castWith kind reg target) (Gives target) := by
  cases kind with
  | none =>
    rw [carries, decide_eq_true_eq] at fits
    exact pure (fits ▸ holds)
  | some kind => exact emit (.cast holds (k.casts _ _ _ fits)) rfl

theorem constInt (fits : (Ir.Constant.int value).fits t = true) : Yields k env types (constInt value t) (Gives t) := emit (.const fits) rfl

theorem constZero (t : Ir.Ty) : Yields k env types (constZero t) (Gives t) := emit (.const rfl) rfl

/-! ## Operators and conversions -/

theorem compare (selectable : Check.isSelectable ty = true) (holdsLeft : types.Has left (k.rep ty))
    (holdsRight : types.Has right (k.rep ty)) : Yields k env types (Lower.compare op left right ty) (Gives .bool) := by
  unfold Lower.compare
  by_cases isString : ty.isString = true
  · rw [if_pos isString]
    rw [k.rep_of_isString isString] at holdsLeft holdsRight
    have isRuntime : ("__rt_string_cmp", [Ir.Ty.handle, .handle], Ir.Ty.i32) ∈ runtime := by simp [runtime]
    refine bind (runtimeCall isRuntime (.cons holdsLeft (.cons holdsRight .nil)) Ir.Ty.noConfusion)
      fun order types' _ holdsOrder => ?_
    refine bind (constInt rfl) fun nought types'' le holdsNought => ?_
    exact emit (.icmp (holdsOrder.mono le) holdsNought rfl) rfl
  · rw [if_neg isString]
    have scalar := k.isScalar_of_isSelectable selectable (eq_false_iff.mpr isString)
    unfold IsScalar at scalar
    split
    next isFloat =>
      rw [if_pos isFloat] at scalar
      exact emit (.fcmp holdsLeft holdsRight scalar) rfl
    next isFloat =>
      rw [if_neg isFloat] at scalar
      exact emit (.icmp holdsLeft holdsRight scalar) rfl

section Program

variable (program : env.program = k.program)

include program

theorem constant {value : Const} (typed : value.HasType ty) :
    Yields k env types (Lower.constant value ty) (Gives (k.rep ty)) := by
  cases value with
  | int value =>
    obtain ⟨isInteger, notBool⟩ := typed
    exact typeOf program (constInt (k.int_fits isInteger notBool _))
  | float value =>
    obtain ⟨t, rfl, isFloat⟩ := typed
    refine typeOf program (emit (.const ?_) rfl)
    rw [k.rep_builtin rfl]
    exact builtinType_of_isFloat t isFloat
  | bool value =>
    obtain rfl : ty = .bool := typed
    rw [k.rep_bool]
    exact emit (.const rfl) rfl
  | str content =>
    obtain rfl : ty = .string := typed
    rw [k.rep_string]
    exact bind (text content) fun bytes types' _ holds => runtimeString (by simp [runtime]) (.cons holds .nil)

theorem power (isNumeric : ty.isNumeric = true) (holdsLeft : types.Has left (k.rep ty))
    (holdsRight : types.Has right (k.rep ty)) : Yields k env types (Lower.power left right ty) (Gives (k.rep ty)) := by
  obtain ⟨t, isBuiltin, isNumber⟩ := (any_eq_true _ _).mp isNumeric
  obtain ⟨widens, narrows⟩ := carries_power (w := k.width) t isNumber
  have same : Lower.powerFunction ty = Lower.powerFunction (.builtin t) := by
    rw [Lower.powerFunction, isFloat_of_builtin isBuiltin, isSigned_of_builtin isBuiltin, Lower.powerFunction]
  have isRuntime : ((Lower.powerFunction ty).2, [(Lower.powerFunction ty).1, (Lower.powerFunction ty).1],
      (Lower.powerFunction ty).1) ∈ runtime ∧ (Lower.powerFunction ty).1 ≠ .void := by
    unfold Lower.powerFunction
    split_ifs <;> simp [runtime]
  rw [← same, ← k.rep_builtin isBuiltin, ← isSigned_of_builtin isBuiltin] at widens narrows
  refine typeOf program (bind (castWith holdsLeft widens) fun l types1 le1 holdsL => ?_)
  refine bind (castWith (holdsRight.mono le1) widens) fun r types2 le2 holdsR => ?_
  refine bind (runtimeCall isRuntime.1 (.cons (holdsL.mono le2) (.cons holdsR .nil)) isRuntime.2)
    fun result types3 _ holdsResult => ?_
  exact castWith holdsResult narrows

theorem binary {left right : Reg} (between : Between op operand result) (holdsLeft : types.Has left (k.rep operand))
    (holdsRight : types.Has right (k.rep operand)) :
    Yields k env types (Lower.binary op left right operand) (Gives (k.rep result)) := by
  unfold Lower.binary
  unfold Between at between
  split at between
  next logical =>
    obtain ⟨rfl, rfl⟩ := between
    have plain : op.isComparison = false ∧ op ≠ .pow ∧ (opcode op .bool).takes .bool = true := by
      revert logical
      cases op <;> decide
    rw [plain.1, if_neg Bool.false_ne_true, if_neg (by decide), if_neg plain.2.1]
    rw [k.rep_bool] at holdsLeft holdsRight ⊢
    exact emit (.binary holdsLeft holdsRight plain.2.2) rfl
  next logical =>
    obtain ⟨⟨t, rfl, allowed⟩, rfl⟩ := between
    have takes := builtinType_of_operandsAllowed (w := k.width) op t allowed
    split
    next comparison =>
      rw [if_pos comparison] at takes
      rw [k.rep_bool]
      exact compare takes holdsLeft holdsRight
    next comparison =>
      rw [if_neg comparison] at takes
      split
      next isString =>
        rw [k.rep_of_isString isString] at holdsLeft holdsRight ⊢
        exact runtimeString (by simp [runtime])
          (.cons holdsLeft (.cons holdsRight .nil))
      next isString =>
        rw [if_neg isString] at takes
        split
        next isPower =>
          rw [if_pos isPower] at takes
          exact power program takes holdsLeft holdsRight
        next isPower =>
          rw [if_neg isPower] at takes
          refine emit (.binary holdsLeft holdsRight ?_) rfl
          rw [k.rep_builtin rfl]
          exact takes.resolve_left logical

omit program in
theorem unary (before : Before op ty) (holds : types.Has operand (k.rep ty)) :
    Yields k env types (unary op operand ty) (Gives (k.rep ty)) := by
  obtain ⟨allowed, ofNot⟩ := before
  cases op with
  | neg =>
    have isBuiltin : ∃ t, ty.builtin? = some t ∧ (t.isNumeric || t.isSimd) = true := by
      rcases (Bool.or_eq_true _ _).mp allowed with isNumeric | isSimd
      · obtain ⟨t, isBuiltin, isNumber⟩ := (any_eq_true _ _).mp isNumeric
        exact ⟨t, isBuiltin, by rw [isNumber, Bool.true_or]⟩
      · obtain ⟨t, isBuiltin, isVector⟩ := (any_eq_true _ _).mp isSimd
        exact ⟨t, isBuiltin, by rw [isVector, Bool.or_true]⟩
    obtain ⟨t, isBuiltin, isNumber⟩ := isBuiltin
    refine emit (.unary holds ?_) rfl
    rw [k.rep_builtin isBuiltin, isFloat_of_builtin isBuiltin]
    exact unary_takes t isNumber
  | not =>
    obtain rfl := ofNot rfl
    refine emit (.unary holds ?_) rfl
    rw [k.rep_bool]
    rfl
  | bitNot =>
    obtain ⟨t, isBuiltin, isInteger⟩ := (any_eq_true _ _).mp allowed
    refine emit (.unary holds ?_) rfl
    rw [k.rep_builtin isBuiltin]
    exact not_takes t isInteger

theorem toText (isBuiltin : source.builtin? = some t) (printable : (t = .bool || t.isNumeric) = true)
    (holds : types.Has value (k.rep source)) : Yields k env types (Lower.toText value source) (Gives .handle) := by
  refine typeOf program ?_
  by_cases isBool : source = .bool
  · rw [if_pos isBool]
    rw [isBool, k.rep_bool] at holds
    exact runtimeString (by simp [runtime]) (.cons holds .nil)
  · rw [if_neg isBool]
    have isNumber : t.isNumeric = true := by
      rcases (or_eq_true _ _).mp printable with same | isNumber
      · rw [decide_eq_true_eq] at same
        rw [same] at isBuiltin
        exact absurd (Ty.eq_builtin isBuiltin (by decide) (by decide)) isBool
      · exact isNumber
    have widens := carries_toText (w := k.width) t isNumber
    rw [← k.rep_builtin isBuiltin, ← isFloat_of_builtin isBuiltin, ← isSigned_of_builtin isBuiltin] at widens
    split
    next isFloat =>
      rw [if_pos isFloat] at widens
      exact bind (castWith holds widens) fun wide types' _ holdsWide =>
        runtimeString (by simp [runtime]) (.cons holdsWide .nil)
    next isFloat =>
      rw [if_neg isFloat] at widens
      refine bind (castWith holds widens) fun wide types' _ holdsWide => ?_
      exact runtimeString (by split_ifs <;> simp [runtime]) (.cons holdsWide .nil)

theorem toTruth (scalar : IsScalar source (k.rep source)) (holds : types.Has value (k.rep source)) :
    Yields k env types (toTruth value source) (Gives .bool) := by
  refine typeOf program (bind (constZero _) fun nought types' le holdsNought => ?_)
  unfold IsScalar at scalar
  split
  next isFloat =>
    rw [if_pos isFloat] at scalar
    exact emit (.fcmp (holds.mono le) holdsNought scalar) rfl
  next isFloat =>
    rw [if_neg isFloat] at scalar
    exact emit (.icmp (holds.mono le) holdsNought scalar) rfl

theorem splat (isSource : source.builtin? = some a) (isTarget : target.builtin? = some b)
    (fits : conversionFits k.width .splat a b = true) (holds : types.Has value (k.rep source)) (span : Span) :
    Yields k env types (Lower.splat value source target span) (Gives (k.rep target)) := by
  have component : target.component? = some b.component := by
    rw [Ty.component?, isTarget]
    rfl
  rw [conversionFits, and_eq_true, decide_eq_true_eq] at fits
  obtain ⟨converts, isVector⟩ := fits
  have isComponent : (Ty.builtin b.component).builtin? = some b.component := rfl
  rw [← numericCast_of_builtin isSource isComponent, ← k.rep_builtin isSource] at converts
  unfold Lower.splat
  rw [component]
  refine typeTable program ?_
  have scalar : irType k.program.types (.builtin b.component) = builtinType k.width b.component := irType_of_builtin rfl
  dsimp only
  rw [scalar, irType_of_builtin isTarget, isVector, k.rep_builtin isTarget, isVector]
  exact bind (castWith holds converts) fun scalar types' _ holdsScalar => emit (.splat holdsScalar) rfl

theorem convert (converts : Converts conversion source target) (holds : types.Has value (k.rep source)) (span : Span) :
    Yields k env types (Lower.convert conversion value source target span) (Gives (k.rep target)) := by
  obtain ⟨a, b, isSource, isTarget, fits⟩ := conversionFits_of_converts (w := k.width) converts
  have numeric (kind : carries k.width (numericCast? (bareTable k.width) (.builtin a) (.builtin b)) (builtinType k.width a)
      (builtinType k.width b) = true) :
      Yields k env types
        (Lower.castWith (numericCast? k.program.types source target) value (irType k.program.types target))
        (Gives (k.rep target)) := by
    rw [← numericCast_of_builtin isSource isTarget, ← k.rep_builtin isSource, ← k.rep_builtin isTarget] at kind
    exact castWith holds kind
  refine typeTable program ?_
  cases conversion with
  | none => exact absurd rfl converts.1
  | toString =>
    rw [conversionFits, and_eq_true, decide_eq_true_eq] at fits
    rw [k.rep_builtin isTarget, fits.1]
    exact toText program isSource fits.2 holds
  | toBool =>
    rw [conversionFits, and_eq_true, decide_eq_true_eq, decide_eq_true_eq] at fits
    rw [k.rep_builtin isTarget, fits.1]
    refine toTruth program ?_ holds
    have scalar := fits.2
    unfold IsScalar at scalar ⊢
    rwa [k.rep_builtin isSource, isFloat_of_builtin isSource]
  | splat => exact splat program isSource isTarget fits holds span
  | reinterpret =>
    rw [conversionFits, ← k.rep_builtin isSource, ← k.rep_builtin isTarget] at fits
    exact castWith holds fits
  | extend | truncate | intToFloat | floatToInt => exact numeric fits
  | invalid => cases converts.2.1

end Program

end Yields

/-! ## Arguments -/

/-- The registers hold what the parameters take, a repeated one all that are left. -/
def ArgsFit (k : Linking) (types : Ir.Types) : List Param → List Reg → Prop
  | _, [] => True
  | [], _ :: _ => False
  | p :: ps, r :: rest => types.Has r (paramType k.program.types p.type p.pass) ∧
      ArgsFit k types (if p.count.isRepeated then p :: ps else ps) rest

variable {params : List Param}

theorem ArgsFit.forall₂ (h : ArgsFit k types params regs)
    (once : ∀ p ∈ params, p.count = .once) (enough : params.length ≤ regs.length) :
    Forall₂ types.Has regs (params.map fun p => paramType k.program.types p.type p.pass) := by
  induction params generalizing regs with
  | nil =>
    cases regs with
    | nil => exact .nil
    | cons r rest => exact h.elim
  | cons p ps ih =>
    cases regs with
    | nil => simp at enough
    | cons r rest =>
      have others := h.2
      rw [once p mem_cons_self] at others
      exact .cons h.1 (ih others (forall_mem_cons.mp once).2 (by simpa using enough))

theorem leastArity_of_once (once : ∀ p ∈ params, p.count = .once) : leastArity params = params.length := by
  unfold leastArity
  rw [filter_eq_self.mpr]
  intro p mem
  rw [once p mem]
  rfl

theorem paramInfos_cons {span : Span} {id : SymbolId} (made : paramInfos p span (id :: rest) = .ok infos) :
    ∃ v others, p.asVariable? id = some v ∧ paramInfos p span rest = .ok others ∧
      infos = ⟨id, v.type, match v.storage with | .param _ byRef => byRef | _ => false⟩ :: others := by
  unfold paramInfos at made
  cases isVariable : p.asVariable? id with
  | none =>
    rw [isVariable] at made
    cases made
  | some v =>
    rw [isVariable] at made
    obtain ⟨others, run, same⟩ := bind_ok_iff.mp made
    cases same
    exact ⟨v, others, rfl, run, rfl⟩

theorem paramInfos_irType {span : Span} (made : paramInfos p span ids = .ok infos) :
    infos.map (·.irType p.types) = (p.scopes.paramList ids).map fun q => paramType p.types q.type q.pass := by
  induction ids generalizing infos with
  | nil =>
    cases made
    rfl
  | cons id rest ih =>
    obtain ⟨v, others, isVariable, run, rfl⟩ := paramInfos_cons made
    have known : p.scopes.asVariable? id = some v := isVariable
    have rest' := ih run
    unfold ScopeTree.paramList at rest' ⊢
    rw [filterMap_cons_some (by rw [known]; rfl), map_cons, map_cons, rest']
    refine congrArg (· :: _) (congrArg (paramType p.types v.type) ?_)
    obtain ⟨type, storage⟩ := v
    cases storage with
    | param place byRef => cases byRef <;> rfl
    | _ => rfl

namespace Yields

variable (program : env.program = k.program)

include program

theorem commandArgs (passes : ArgsFit k types params regs)
    (result : Ir.Ty) : Yields k env types (Lower.commandArgs params regs) fun types args =>
      (Ir.Signature.mk (commandParams k.program.types params).1 (commandParams k.program.types params).2
        result).Accepts types args := by
  induction params generalizing regs types with
  | nil => exact pure (.of_all .nil)
  | cons p params ih =>
    unfold Lower.commandArgs commandParams
    by_cases repeated : p.count.isRepeated = true
    · rw [if_pos repeated, if_pos repeated]
      refine bind (constInt (t := .i32) rfl) fun count types' _ holds => pure ?_
      exact ⟨[count], regs, rfl, .cons holds .nil, fun _ => rfl⟩
    · rw [if_neg repeated, if_neg repeated]
      cases regs with
      | nil =>
        refine typeTable program (bind (constZero _) fun nought types' _ holds => ?_)
        have none : ArgsFit k types' params [] := by cases params <;> trivial
        exact bind (ih none) fun args types'' le accepts => pure (accepts.cons (holds.mono le))
      | cons reg rest =>
        have others := passes.2
        rw [if_neg repeated] at others
        exact bind (ih others) fun args types' le accepts => pure (accepts.cons (passes.1.mono le))

section

variable (known : k.program.callParams? callee = some params) (gives : k.program.callResult? callee = some result)
  (arity : acceptsArity params regs.length = true) (passes : ArgsFit k types params regs)
include known gives arity passes

theorem calleeWithArgs :
    Yields k env types (calleeWithArgs callee regs) fun types called => ∃ sig,
      k.rules.signature called.1 sig ∧ sig.Accepts types called.2 ∧ sig.result = k.rep result := by
  refine read ?_
  rw [program]
  cases callee with
  | function id =>
    obtain ⟨f, isFunction, rfl⟩ := map_eq_some_iff.mp known
    obtain ⟨f', isFunction', rfl⟩ := map_eq_some_iff.mp gives
    obtain rfl : f = f' := Option.some.inj (isFunction.symm.trans isFunction')
    obtain ⟨infos, made, found⟩ := k.functions f (mem_of_getElem? isFunction)
    dsimp only
    rw [isFunction]
    refine pure ⟨_, found, ?_, rfl⟩
    rw [paramInfos_irType made]
    have once : ∀ q ∈ k.program.scopes.paramList f.params, q.count = .once := by
      intro q mem
      obtain ⟨id, -, isParam⟩ := mem_filterMap.mp mem
      obtain ⟨v, -, rfl⟩ := map_eq_some_iff.mp isParam
      rfl
    refine .of_all (passes.forall₂ once ?_)
    have enough := of_decide_eq_true ((and_eq_true _ _).mp arity).1
    rwa [leastArity_of_once once] at enough
  | command index =>
    obtain ⟨c, isCommand, rfl⟩ := map_eq_some_iff.mp known
    obtain ⟨c', isCommand', rfl⟩ := map_eq_some_iff.mp gives
    obtain rfl : c = c' := Option.some.inj (isCommand.symm.trans isCommand')
    have found := k.commands c (mem_of_getElem? isCommand)
    dsimp only
    rw [isCommand]
    exact bind (commandArgs program passes (k.rep c.result)) fun args types' _ accepts => pure ⟨_, found, accepts, rfl⟩

theorem callWith :
    Yields k env types (callWith callee regs result) fun types reg =>
      (result.isVoid = false → reg.isSome = true) ∧ ∀ r ∈ reg, types.Has r (k.rep result) := by
  refine bind (calleeWithArgs program known gives arity passes) fun called types' _ answer => ?_
  obtain ⟨name, args⟩ := called
  obtain ⟨sig, found, accepts, same⟩ := answer
  have given (reg : Reg) (types'' : Ir.Types) (holds : types''.Has reg (k.rep result)) :
      (result.isVoid = false → (some reg).isSome = true) ∧ ∀ r ∈ some reg, types''.Has r (k.rep result) := by
    refine ⟨fun _ => rfl, fun r mem => ?_⟩
    cases mem
    exact holds
  dsimp only
  split
  next isVoid =>
    have void : sig.result = .void := by
      rw [same, of_decide_eq_true isVoid]
      exact irType_void
    refine keep (.callVoid found accepts void) fun _ => pure ⟨fun notVoid => ?_, fun r mem => by cases mem⟩
    rw [isVoid] at notVoid
    cases notVoid
  next notVoid =>
    split
    next isString =>
      have isHandle := k.rep_of_isString isString
      refine bind (freshString found accepts (same.trans isHandle)) fun reg types'' _ holds => pure ?_
      exact given reg types'' (isHandle ▸ holds)
    next notString =>
      have notVoid : sig.result ≠ .void := by
        rw [same]
        exact irType_ne_void (eq_false_iff.mpr notVoid)
      refine bind (call found accepts notVoid) fun reg types'' _ holds => pure ?_
      exact given reg types'' (same ▸ holds)

end

end Yields

end BasicCompiler.Lowering
