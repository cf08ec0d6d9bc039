/-
# What code without branches is made of

However expressions are nested, what lowers them is put together from a few kinds of steps.
-/
import BasicCompiler.Proofs.Ir.Dominance
import BasicCompiler.Proofs.Lowering.Run

namespace BasicCompiler.Lowering

open Ir (BlockId Reg)
open Lower Typed List

attribute [local simp] Ir.Op.operands

open Lower

/-! ## Answers and surroundings -/

/-- The registers in an answer. -/
class Regs (α : Type) where
  of : α → List Reg

instance : Regs Unit := ⟨fun _ => []⟩
instance : Regs Reg := ⟨fun r => [r]⟩
instance : Regs (List Reg) := ⟨id⟩
instance : Regs (Option Reg) := ⟨Option.toList⟩
instance : Regs (Reg × Reg) := ⟨fun p => [p.1, p.2]⟩
instance : Regs (Reg × Reg × Reg) := ⟨fun p => [p.1, p.2.1, p.2.2]⟩
instance : Regs (List (SymbolId × Reg)) := ⟨List.map (·.2)⟩

namespace Regs

@[simp] theorem of_unit (u : Unit) : of u = [] := rfl
@[simp] theorem of_reg (r : Reg) : of r = [r] := rfl
@[simp] theorem of_list (rs : List Reg) : of rs = rs := rfl
@[simp] theorem of_none : of (none : Option Reg) = [] := rfl
@[simp] theorem of_some (r : Reg) : of (some r) = [r] := rfl
@[simp] theorem of_pair (p : Reg × Reg) : of p = [p.1, p.2] := rfl
@[simp] theorem of_triple (p : Reg × Reg × Reg) : of p = [p.1, p.2.1, p.2.2] := rfl
@[simp] theorem of_slots (slots : List (SymbolId × Reg)) : of slots = slots.map (·.2) := rfl

end Regs

def calleeName (p : Program) : Callee → String
  | .function id => (p.functions[id]?.map (·.linkName)).getD ""
  | .command index => (p.commands[index]?.map (·.linkName)).getD ""

def commandParams? (p : Program) : Callee → Option (List Param)
  | .function _ => none
  | .command index => p.commands[index]?.map (·.params)

/-- What a piece looks at in its surroundings. -/
inductive View : {β : Type} → (Env → β) → Prop where
  | type (ty : Ty) : View fun env => irType env.program.types ty
  | param (ty : Ty) (pass : PassBy) : View fun env => paramType env.program.types ty pass
  | cast (source target : Ty) : View fun env => numericCast? env.program.types source target
  | size (ty : Ty) : View fun env => env.program.types.sizeOf ty
  | declared (id : SymbolId) : View fun env => env.program.asVariable? id
  /-- The notes of the releases of what a slot holds. -/
  | notes (slot : Reg) (ty : Ty) : View fun env =>
      registerSlotWithin env.program.types env.program.types.user.length slot ty
  | ends : View fun env => (env.isMain, env.result)

/-! ## Pieces -/

/-- The terms on which a piece is made. -/
structure Terms where
  /-- What may be evaluated, and for what. -/
  evaluates : Want → Expr → Prop
  sees : SymbolId → Prop
  /-- What may be called besides the runtime, by its linked name. -/
  calls : String → Prop
  /-- Whether whatever is there may be stored, and releases noted. -/
  stores : Prop
  fails : Prop

namespace Terms

def any : Terms := ⟨fun _ _ => True, fun _ => True, fun _ => True, True, True⟩

variable (t : Terms)

def passes : Arg → Prop
  | .value e => t.evaluates .value e
  | .place e => t.evaluates .address e

def reaches (callee : String) : Prop := callee ∈ runtime.map (·.1) ∨ t.calls callee

def emits : Ir.Op → Prop
  | .call callee _ => t.reaches callee
  | .alloca _ | .global _ | .store _ _ => False
  | _ => True

/-- What may be asked of an expression may be asked of its parts, and all may fail. -/
structure Hereditary : Prop where
  fails : t.fails
  var {want : Want} {info : Info} {id : SymbolId} : t.evaluates want (.var info id) → t.sees id
  member {want : Want} {info : Info} {base : Expr} {index : Nat} :
    t.evaluates want (.member info base index) → t.evaluates .slot base
  index {want : Want} {info : Info} {base place : Expr} :
    t.evaluates want (.index info base place) → t.evaluates .value base ∧ t.evaluates .value place
  swizzle {want : Want} {info : Info} {base : Expr} {axes : List Nat} :
    t.evaluates want (.swizzle info base axes) → t.evaluates .value base
  call {want : Want} {info : Info} {callee : Callee} {args : List Arg} :
    t.evaluates want (.call info callee args) → ∀ arg ∈ args, t.passes arg
  construct {want : Want} {info : Info} {parts : List Expr} :
    t.evaluates want (.construct info parts) → ∀ e ∈ parts, t.evaluates .value e
  unary {want : Want} {info : Info} {op : UnaryOp} {operand : Expr} :
    t.evaluates want (.unary info op operand) → t.evaluates .value operand
  binary {want : Want} {info : Info} {op : BinaryOp} {left right : Expr} :
    t.evaluates want (.binary info op left right) → t.evaluates .value left ∧ t.evaluates .value right
  convert {want : Want} {info : Info} {conversion : Conversion} {operand : Expr} :
    t.evaluates want (.convert info conversion operand) → t.evaluates .value operand

theorem any_hereditary : any.Hereditary where
  fails := trivial
  var _ := trivial
  member _ := trivial
  index _ := ⟨trivial, trivial⟩
  swizzle _ := trivial
  call _ arg _ := by cases arg <;> trivial
  construct _ _ _ := trivial
  unary _ := trivial
  binary _ := ⟨trivial, trivial⟩
  convert _ := trivial

end Terms

/-- A piece without branches, which refers to registers that are there before. -/
inductive Made (t : Terms) : List Reg → {α : Type} → [Regs α] → Lower α → Prop where
  | pure {regs : List Reg} {α : Type} [Regs α] (a : α) : Regs.of a ⊆ regs → Made t regs (Pure.pure a)
  /-- Whatever the cause, the fault is found in one place. -/
  | fails {regs : List Reg} {α : Type} [Regs α] {m : Lower α} (span : Span) : t.fails →
      (∀ env s, ∃ fault, m env s = .error ⟨fault, span⟩) → Made t regs m
  | bind {regs : List Reg} {α β : Type} [Regs α] [Regs β] {m : Lower α} {f : α → Lower β} :
      Made t regs m → (∀ a, Made t (Regs.of a ++ regs) (f a)) → Made t regs (m >>= f)
  | look {regs : List Reg} {α β : Type} [Regs α] {view : Env → β} {f : β → Lower α} : View view →
      (∀ env, Made t regs (f (view env))) → Made t regs (read >>= fun env => f (view env))
  | named {regs : List Reg} {α : Type} [Regs α] {want : Want} {info : Info} {callee : Callee}
      {args : List Arg} {f : String → Option (List Param) → Lower α} :
      t.evaluates want (.call info callee args) → (∀ name params, t.calls name → Made t regs (f name params)) →
      Made t regs (read >>= fun env => f (calleeName env.program callee) (commandParams? env.program callee))
  | emit {regs : List Reg} (op : Ir.Op) : t.emits op → op.operands ⊆ regs → Made t regs (emit op)
  | callVoid {regs : List Reg} (callee : String) (args : List Reg) : t.reaches callee → args ⊆ regs →
      Made t regs (callVoid callee args)
  | fresh {regs : List Reg} (callee : String) (args : List Reg) : t.reaches callee → args ⊆ regs →
      Made t regs (freshString callee args)
  | text {regs : List Reg} (content : String) : Made t regs (build (·.stringConstant content))
  | locate {regs : List Reg} (id : SymbolId) : t.sees id → Made t regs (varAddress id)
  | reread {regs : List Reg} {α : Type} [Regs α] {f : Option Reg → Lower α} : Made t regs (f none) →
      (∀ reg, Made t (reg :: regs) (f (some reg))) → Made t regs (read >>= fun env => f env.target)
  | aim {regs : List Reg} {α : Type} [Regs α] {m : Lower α} (address : Reg) : address ∈ regs → Made t regs m →
      Made t regs (withReader (fun env => { env with target := some address }) m)
  | slot {regs : List Reg} (type : Ir.Ty) : Made t regs (build (·.alloca type))
  | note {regs : List Reg} (owned : Owned) (place : Reg) : t.stores → place ∈ regs →
      Made t regs (register (.slot owned place))
  /-- The value of an expression is put into a slot. -/
  | spill {regs : List Reg} {e : Expr} {m : Lower Reg} (ty : Ty) : t.evaluates .slot e → expr .value e = m →
      Made t regs m → Made t regs (do
        let value ← m
        let slot ← build (·.alloca (irType (← types) ty))
        perform (.store slot value)
        return slot)
  | store {regs : List Reg} (address value : Reg) : t.stores → address ∈ regs → value ∈ regs →
      Made t regs (perform (.store address value))

namespace Made

variable {t : Terms} {regs : List Reg} [Regs α]

/-! ## Surroundings -/

theorem typeOf {f : Ir.Ty → Lower α} (h : ∀ type, Made t regs (f type)) :
    Made t regs (typeOf ty >>= f) := look (f := f) (.type ty) fun _ => h _

theorem lookFor {β : Type} {view : Env → Option β} {f : β → Lower α} (v : View view)
    (same : m = read >>= fun env => (view env).elim n f) (absent : Made t regs n) (found : ∀ b, Made t regs (f b)) :
    Made t regs m := by
  rw [same]
  refine look (f := fun found => found.elim n f) v fun env => ?_
  cases view env with
  | none => exact absent
  | some b => exact found b

theorem fail (may : t.fails) (fault : LowerFault) (span : Span) : Made t regs (fail fault span : Lower α) :=
  fails span may fun _ _ => ⟨fault, rfl⟩

/-! ## Operators -/

theorem runtimeCall (known : callee ∈ runtime.map (·.1)) (there : args ⊆ regs) :
    Made t regs (call callee args) := emit _ (.inl known) there

theorem castWith (there : reg ∈ regs) : Made t regs (castWith kind reg type) := by
  cases kind with
  | none => exact pure reg (by simpa using there)
  | some kind => exact emit _ trivial (by simpa using there)

theorem constant (value : Const) (ty : Ty) : Made t regs (constant value ty) := by
  cases value with
  | int value | float value => exact typeOf fun _ => emit _ trivial (by simp)
  | bool value => exact emit _ trivial (by simp)
  | str content => exact bind (text content) fun _ => fresh _ _ (.inl (by simp [runtime])) (by simp)

theorem one (ty : Ty) : Made t regs (Lower.one ty) := by
  unfold Lower.one
  split <;> exact typeOf fun _ => emit _ trivial (by simp)

theorem compare (atLeft : left ∈ regs) (atRight : right ∈ regs) :
    Made t regs (Lower.compare op left right ty) := by
  unfold Lower.compare
  split
  · refine bind (runtimeCall (by simp [runtime]) (by simp [*])) fun _ => ?_
    exact bind (emit _ trivial (by simp)) fun _ => emit _ trivial (by simp)
  · split <;> exact emit _ trivial (by simp [*])

theorem powerFunction_mem (ty : Ty) : (powerFunction ty).2 ∈ runtime.map (·.1) := by
  unfold powerFunction
  split
  · simp [runtime]
  · split <;> simp [runtime]

theorem binary {op : BinaryOp} (atLeft : left ∈ regs) (atRight : right ∈ regs) :
    Made t regs (Lower.binary op left right ty) := by
  unfold Lower.binary
  split
  · exact compare atLeft atRight
  · split
    · exact fresh _ _ (.inl (by simp [runtime])) (by simp [*])
    · split
      · refine typeOf fun _ => bind (castWith atLeft) fun _ => bind (castWith (by simp [*])) fun _ => ?_
        exact bind (runtimeCall (powerFunction_mem ty) (by simp)) fun _ => castWith (by simp)
      · exact emit _ trivial (by simp [*])

theorem unary (there : operand ∈ regs) : Made t regs (unary op operand ty) := by
  cases op <;> exact emit _ trivial (by simpa using there)

theorem toText (there : value ∈ regs) : Made t regs (toText value source) := by
  refine typeOf fun type => ?_
  split
  · exact fresh _ _ (.inl (by simp [runtime])) (by simpa using there)
  · split
    · exact bind (castWith there) fun _ => fresh _ _ (.inl (by simp [runtime])) (by simp)
    · refine bind (castWith there) fun _ => fresh _ _ (.inl ?_) (by simp)
      split <;> simp [runtime]

theorem toTruth (there : value ∈ regs) : Made t regs (toTruth value source) := by
  refine typeOf fun type => bind (emit _ trivial (by simp)) fun nought => ?_
  split <;> exact emit _ trivial (by simp [there])

theorem casts {f : Option Ir.Cast → Ir.Ty → Lower α} (h : ∀ kind type, Made t regs (f kind type)) :
    Made t regs (Lower.types >>= fun types => f (numericCast? types source target) (irType types target)) :=
  look (f := fun kind => Lower.typeOf target >>= f kind) (.cast source target) fun _ => typeOf fun type => h _ type

variable {span : Span}

theorem splat (may : t.fails) (there : value ∈ regs) : Made t regs (Lower.splat value source target span) := by
  unfold Lower.splat
  split
  · exact fail may _ _
  next component _ =>
    refine casts (f := fun kind type => Lower.typeOf target >>= fun wide => do
      let scalar ← Lower.castWith kind value type
      Lower.emit (.splat scalar wide)) fun kind type => typeOf fun wide => ?_
    exact bind (castWith there) fun _ => emit _ trivial (by simp)

theorem convert (may : t.fails) {conversion : Conversion}
    (there : value ∈ regs) : Made t regs (Lower.convert conversion value source target span) := by
  cases conversion with
  | none => exact pure value (by simpa using there)
  | toString => exact toText there
  | toBool => exact toTruth there
  | splat => exact splat may there
  | reinterpret =>
    exact look (f := fun narrow => Lower.typeOf target >>= fun wide =>
      Lower.castWith (reinterpretCast? narrow wide) value wide) (.type source) fun _ => typeOf fun _ => castWith there
  | extend | truncate | intToFloat | floatToInt =>
    exact casts (f := fun kind type => Lower.castWith kind value type) fun _ _ => castWith there
  | invalid => exact fails span may fun env s => ⟨_, rfl⟩

/-! ## Calls -/

theorem commandArgs (params : List Param) (there : args ⊆ regs) : Made t regs (commandArgs params args) := by
  induction params generalizing regs args with
  | nil => exact pure [] (by simp)
  | cons param params ih =>
    unfold commandArgs
    split
    · exact bind (emit _ trivial (by simp)) fun _ => pure _ (by simpa using subset_cons_of_subset _ there)
    · cases args with
      | nil =>
        refine look (f := fun type => do
          let nought ← constZero type
          return nought :: (← commandArgs params [])) (.param param.type param.pass) fun env => ?_
        refine bind (emit _ trivial (by simp)) fun _ => bind (ih (by simp)) fun _ => pure _ (by simp)
      | cons reg rest =>
        obtain ⟨first, others⟩ := cons_subset.mp there
        exact bind (ih others) fun _ => pure _ (by simp [first])

def calling (ty : Ty) (passed : List Reg) (name : String) (params : Option (List Param)) : Lower (Option Reg) := do
  let args ←
    match params with
    | some params => Lower.commandArgs params passed
    | none => Pure.pure passed
  if ty.isVoid then
    Lower.callVoid name args
    return none
  else if ty.isString then return some (← Lower.freshString name args)
  else return some (← Lower.call name args)

theorem callWith_eq (callee : Callee) (passed : List Reg) (ty : Ty) : Lower.callWith callee passed ty =
    read >>= fun env => calling ty passed (calleeName env.program callee) (commandParams? env.program callee) := by
  cases callee with
  | function id => rfl
  | command index =>
    funext env s
    have looked {α : Type} (f : Env → Lower α) : (read >>= f) env s = f env env s := rfl
    unfold Lower.callWith Lower.calleeWithArgs calleeName commandParams? calling
    cases found : env.program.commands[index]? <;> simp [found, looked]

theorem calls (known : t.calls name) (ty : Ty) (params : Option (List Param)) (there : passed ⊆ regs) :
    Made t regs (calling ty passed name params) := by
  have called (args : List Reg) : Made t (args ++ regs) (if ty.isVoid then do
        Lower.callVoid name args
        return none
      else if ty.isString then return some (← Lower.freshString name args)
      else return some (← Lower.call name args)) := by
    split
    · exact bind (callVoid _ _ (.inr known) (by simp)) fun _ => pure _ (by simp)
    · split
      · exact bind (fresh _ _ (.inr known) (by simp)) fun _ => pure _ (by simp)
      · exact bind (emit _ (.inr known) (by simp)) fun _ => pure _ (by simp)
  cases params with
  | none => exact bind (pure passed there) called
  | some params => exact bind (commandArgs params there) called

theorem callWith (may : t.evaluates want (.call info callee args)) (there : passed ⊆ regs) :
    Made t regs (callWith callee passed info.ty) := by
  rw [callWith_eq]
  exact named (f := calling info.ty passed) may fun name params known => calls known info.ty params there

/-! ## Expressions -/

theorem fromPlace (there : address ∈ regs) : Made t regs (fromPlace want info address) := by
  cases want with
  | value => exact typeOf fun _ => emit _ trivial (by simpa using there)
  | address | slot => exact pure address (by simpa using there)

theorem fromValue (may : t.fails) (asked : t.evaluates want e) (same : expr .value e = m) (h : Made t regs m) :
    Made t regs (fromValue want info m) := by
  cases want with
  | value => exact h
  | address => exact fail may _ _
  | slot => exact spill info.ty asked same h

theorem components (there : vector ∈ regs) : Made t regs (Lower.components vector axes) := by
  unfold Lower.components
  split <;> exact emit _ trivial (by simpa using there)

section

variable (h : t.Hereditary)
include h
set_option linter.unusedSectionVars false

mutual

theorem expr (want : Want) : (e : Expr) → t.evaluates want e → ∀ regs, Made t regs (Lower.expr want e)
  | .var info id, asked, _ => bind (locate id (h.var asked)) fun _ => fromPlace (by simp)
  | .member info base index, asked, _ => by
    refine bind (expr .slot base (h.member asked) _) fun _ => ?_
    exact bind (emit _ trivial (by simp)) fun _ => fromPlace (by simp)
  | .index info base place, asked, _ => by
    obtain ⟨askedBase, askedPlace⟩ := h.index asked
    refine bind (expr .value base askedBase _) fun _ => bind (expr .value place askedPlace _) fun _ => ?_
    refine bind (runtimeCall (by simp [runtime]) (by simp)) fun _ => typeOf fun _ => ?_
    exact bind (emit _ trivial (by simp)) fun _ => fromPlace (by simp)
  | .const info value, asked, _ => fromValue h.fails asked rfl (constant value info.ty)
  | .swizzle info base axes, asked, _ =>
    fromValue h.fails asked rfl (bind (expr .value base (h.swizzle asked) _) fun _ => components (by simp))
  | .call info callee args, asked, _ => by
    refine fromValue h.fails asked rfl (bind (arguments args (h.call asked) _) fun passed => ?_)
    refine bind (callWith asked (by simp)) fun result => ?_
    cases result with
    | none => exact fail h.fails _ _
    | some reg => exact pure reg (by simp)
  | .construct info parts, asked, _ => by
    refine fromValue h.fails asked rfl (bind (exprs parts (h.construct asked) _) fun _ => typeOf fun _ => ?_)
    exact emit _ trivial (by simp)
  | .unary info op operand, asked, _ =>
    fromValue h.fails asked rfl (bind (expr .value operand (h.unary asked) _) fun _ => unary (by simp))
  | .binary info op left right, asked, _ => by
    obtain ⟨askedLeft, askedRight⟩ := h.binary asked
    refine fromValue h.fails asked rfl (bind (expr .value left askedLeft _) fun _ => ?_)
    exact bind (expr .value right askedRight _) fun _ => binary (by simp) (by simp)
  | .convert info conversion operand, asked, _ =>
    fromValue h.fails asked rfl (bind (expr .value operand (h.convert asked) _) fun _ => convert h.fails (by simp))
  | .target info, asked, _ => by
    refine fromValue h.fails asked rfl (reread (f := fun target => match target with
      | some address => do Lower.emit (.load address (← Lower.typeOf info.ty))
      | none => Lower.fail .noTarget info.span) (fail h.fails _ _) fun reg => ?_)
    exact typeOf fun _ => emit _ trivial (by simp)

theorem exprs : (es : List Expr) → (∀ e ∈ es, t.evaluates .value e) → ∀ regs, Made t regs (Lower.exprs es)
  | [], _, _ => pure [] (by simp)
  | e :: rest, asked, _ => by
    obtain ⟨first, others⟩ := forall_mem_cons.mp asked
    exact bind (expr .value e first _) fun _ => bind (exprs rest others _) fun _ => pure _ (by simp)

theorem argument : (arg : Arg) → t.passes arg → ∀ regs, Made t regs (Lower.argument arg)
  | .value e, asked, _ => expr .value e asked _
  | .place e, asked, _ => expr .address e asked _

theorem arguments : (args : List Arg) → (∀ arg ∈ args, t.passes arg) → ∀ regs, Made t regs (Lower.arguments args)
  | [], _, _ => pure [] (by simp)
  | arg :: rest, asked, _ => by
    obtain ⟨first, others⟩ := forall_mem_cons.mp asked
    exact bind (argument arg first _) fun _ => bind (arguments rest others _) fun _ => pure _ (by simp)

end

end

/-! ## Statements -/

theorem effect (h : t.Hereditary) (asked : t.evaluates .value e) : Made t regs (effect e) := by
  cases e with
  | call info callee args =>
    exact bind (arguments h args (h.call asked) _) fun _ => bind (callWith asked (by simp)) fun _ => pure () (by simp)
  | _ => exact bind (expr h .value _ asked _) fun _ => pure () (by simp)

theorem storeValue (may : t.stores) (place : address ∈ regs) (there : value ∈ regs) :
    Made t regs (Lower.storeValue address value ty) := by
  unfold Lower.storeValue
  split
  · exact callVoid _ _ (.inl (by simp [runtime])) (by simp [*])
  · split
    · exact callVoid _ _ (.inl (by simp [runtime])) (by simp [*])
    · exact store _ _ may place there

section

variable (h : t.Hereditary) (may : t.stores)

include h may

theorem dim (asked : t.evaluates .value size) (place : address ∈ regs) : Made t regs (Lower.dim address ty size) := by
  unfold Lower.dim
  split
  · exact fail h.fails _ _
  next elem _ =>
    refine bind (expr h .value size asked _) fun count => look (f := fun bytes => do
      let elemSize ← Lower.constInt (Int64.ofNat bytes) .i64
      let old ← Lower.emit (.load address .handle)
      Lower.callVoid Owned.array.release [old]
      let array ← Lower.call "__rt_array_new" [count, elemSize]
      Lower.perform (.store address array)) (.size elem) fun _ => ?_
    refine bind (emit _ trivial (by simp)) fun elemSize => ?_
    refine bind (emit _ trivial (by simp [place])) fun old => ?_
    refine bind (callVoid _ _ (.inl (by simp [runtime, Owned.release])) (by simp)) fun _ => ?_
    exact bind (runtimeCall (by simp [runtime]) (by simp)) fun _ => store _ _ may (by simp [place]) (by simp)

theorem declaration {id : SymbolId} (seen : t.sees id) (askedSize : ∀ e ∈ size, t.evaluates .value e)
    (askedInit : ∀ e ∈ init, t.evaluates .value e) : Made t regs (Lower.declaration span id size init) := by
  have looks : Lower.declaration span id size init = (read >>= fun env =>
      (env.program.asVariable? id).elim (Lower.fail .notVariable span) fun v => do
        let address ← Lower.varAddress id
        size.elim (Pure.pure ()) (Lower.dim address v.type)
        init.elim (Pure.pure ()) fun init => do
          let value ← Lower.expr .value init
          Lower.storeValue address value v.type) := by
    unfold Lower.declaration
    congr 1
    funext env
    cases env.program.asVariable? id <;> cases size <;> cases init <;> rfl
  refine lookFor (.declared id) looks (fail h.fails _ _) fun v => bind (locate id seen) fun address => ?_
  have filled (regs : List Reg) (place : address ∈ regs) : Made t regs (init.elim (Pure.pure ()) fun init => do
      let value ← Lower.expr .value init
      Lower.storeValue address value v.type) := by
    cases init with
    | none => exact pure () (by simp)
    | some init =>
      exact bind (expr h .value init (askedInit init rfl) _) fun _ => storeValue may (by simp [place]) (by simp)
  cases size with
  | none => exact filled _ (by simp)
  | some size => exact bind (dim h may (askedSize size rfl) (by simp)) fun _ => filled _ (by simp)

omit may in
theorem assignedValue (asked : t.evaluates .value value)
    (place : address ∈ regs) : Made t regs (assignedValue address value) :=
  aim address place (expr h .value value asked _)

omit h may in
theorem insertLanes (there : value ∈ regs) (base : vector ∈ regs) :
    Made t regs (Lower.insertLanes value isSingle lane vector axes) := by
  induction axes generalizing regs lane vector with
  | nil => exact pure vector (by simpa using base)
  | cons axis axes ih =>
    have put (regs : List Reg) (component : Reg) (old : value ∈ regs) (base : vector ∈ regs)
        (new : component ∈ regs) : Made t regs (do
          let vector ← Lower.emit (.insert vector component axis)
          Lower.insertLanes value isSingle (lane + 1) vector axes) :=
      bind (emit _ trivial (by simp [*])) fun _ => ih (by simp [old]) (by simp)
    cases isSingle with
    | true => exact put regs value there base there
    | false =>
      exact bind (emit _ trivial (by simpa using there)) fun component =>
        put _ component (by simp [there]) (by simp [base]) (by simp)

theorem assignment {target value : Expr} (askedTarget : t.evaluates .address target)
    (askedBase : ∀ info base axes, target = .swizzle info base axes → t.evaluates .address base)
    (askedValue : t.evaluates .value value) : Made t regs (Lower.assignment target value) := by
  unfold Lower.assignment
  split
  next info base axes =>
    refine bind (expr h .address base (askedBase info base axes rfl) _) fun address => ?_
    refine bind (assignedValue h askedValue (by simp)) fun value => typeOf fun _ => ?_
    refine bind (emit _ trivial (by simp)) fun vector => ?_
    exact bind (insertLanes (by simp) (by simp)) fun _ => store _ _ may (by simp) (by simp)
  next =>
    refine bind (expr h .address target askedTarget _) fun address => ?_
    exact bind (assignedValue h askedValue (by simp)) fun value => storeValue may (by simp) (by simp)

end

theorem defaultReturn : Made t regs Lower.defaultReturn := by
  refine look (f := fun ends : Bool × Ty => do
    if ends.1 then return some (← Lower.constInt 0 .i32)
    else if ends.2.isVoid then return none
    else return some (← Lower.constZero (← Lower.typeOf ends.2))) .ends fun env => ?_
  split
  · exact bind (emit _ trivial (by simp)) fun _ => pure _ (by simp)
  · split
    · exact pure _ (by simp)
    · exact typeOf fun _ => bind (emit _ trivial (by simp)) fun _ => pure _ (by simp)

theorem equalsAny (h : t.Hereditary) (asked : ∀ e ∈ es, t.evaluates .value e) (there : value ∈ regs)
    (before : hit.toList ⊆ regs) : Made t regs (equalsAny value ty hit es) := by
  induction es generalizing regs hit with
  | nil =>
    cases hit with
    | none => exact emit _ trivial (by simp)
    | some hit => exact pure hit (by simpa using before)
  | cons e rest ih =>
    obtain ⟨first, others⟩ := forall_mem_cons.mp asked
    refine bind (expr h .value e first _) fun _ => bind (compare (by simp [there]) (by simp)) fun equal => ?_
    cases hit with
    | none => exact bind (pure equal (by simp)) fun _ => ih others (by simp [there]) (by simp)
    | some hit =>
      have known : hit ∈ regs := by simpa using before
      refine bind (emit _ trivial (by simp [known])) fun _ => ?_
      exact ih others (by simp [there]) (by simp)

theorem advance (may : t.stores) (place : address ∈ regs) (there : current ∈ regs) (stepThere : step ∈ regs) :
    Made t regs (Lower.advance address current step ty) := by
  unfold Lower.advance
  split
  · refine bind (runtimeCall (by simp [runtime]) (by simp [*])) fun next => ?_
    refine bind (callVoid _ _ (.inl (by simp [runtime])) (by simp [*])) fun _ => ?_
    exact callVoid _ _ (.inl (by simp [runtime, Owned.release])) (by simp)
  · exact bind (emit _ trivial (by simp [*])) fun _ => store _ _ may (by simp [*]) (by simp)

theorem emitCleanups (there : ∀ c ∈ cs, c.reg ∈ regs) : Made t regs (emitCleanups cs) := by
  induction cs generalizing regs with
  | nil => exact pure () (by simp)
  | cons c cs ih =>
    obtain ⟨first, others⟩ := forall_mem_cons.mp there
    have known : c.owned.release ∈ runtime.map (·.1) := by cases c.owned <;> simp [runtime, Owned.release]
    refine bind ?_ fun _ => ih fun c mem => mem_append_right _ (others c mem)
    unfold emitCleanup
    split
    · exact bind (emit _ trivial (by simpa using first)) fun _ => callVoid _ _ (.inl known) (by simp)
    · exact callVoid _ _ (.inl known) (by simpa using first)

theorem released (cs : List Cleanup) : Made t (cs.map (·.reg)) (Lower.emitCleanups cs) :=
  emitCleanups fun _ mem => mem_map_of_mem mem

/-! ## The beginning of a function -/

variable {slot : Reg}

theorem registerMembers (each : ∀ regs field ty, field ∈ regs → Made t regs (registerField field ty))
    (there : slot ∈ regs) : Made t regs (registerMembers table registerField slot index members) := by
  induction members generalizing regs index with
  | nil => exact pure () (by simp)
  | cons m rest ih =>
    unfold registerMembers
    split
    · refine bind (emit _ trivial (by simpa using there)) fun _ => ?_
      exact bind (each _ _ _ (by simp)) fun _ => ih (by simp [there])
    · exact ih there

section

variable (may : t.stores)
include may

theorem registerSlotWithin (table : TypeTable) (depth : Nat) (ty : Ty) (there : slot ∈ regs) :
    Made t regs (registerSlotWithin table depth slot ty) := by
  induction depth generalizing regs slot ty with
  | zero =>
    obtain ⟨owned, same, -⟩ | same | ⟨_, _, impossible, -⟩ := registerSlotWithin_cases table 0 slot ty
    · exact same ▸ note owned slot may there
    · exact same ▸ pure () (by simp)
    · cases impossible
  | succ depth ih =>
    obtain ⟨owned, same, -⟩ | same | ⟨inner, id, deeper, same, -⟩ := registerSlotWithin_cases table (depth + 1) slot ty
    · exact same ▸ note owned slot may there
    · exact same ▸ pure () (by simp)
    · cases deeper
      exact same ▸ registerMembers (fun _ _ ty there => ih ty there) there

theorem registerSlot (ty : Ty) (there : slot ∈ regs) : Made t regs (registerSlot slot ty) :=
  look (f := id) (.notes slot ty) fun _ => registerSlotWithin may _ _ ty there

theorem paramSlot {reg : Reg} (there : reg ∈ regs) : Made t regs (Lower.paramSlot q reg) := by
  unfold Lower.paramSlot
  split
  · exact pure reg (by simpa using there)
  · refine typeOf fun _ => bind (slot _) fun place => ?_
    split
    · refine bind (runtimeCall (by simp [runtime]) (by simp [there])) fun _ => ?_
      refine bind (store _ _ may (by simp) (by simp)) fun _ => ?_
      exact bind (registerSlot may _ (by simp)) fun _ => pure _ (by simp)
    · exact bind (store _ _ may (by simp) (by simp [there])) fun _ => pure _ (by simp)

theorem paramSlots (there : params.map (·.2) ⊆ regs) : Made t regs (paramSlots params) := by
  induction params generalizing regs with
  | nil => exact pure [] (by simp)
  | cons q rest ih =>
    obtain ⟨first, others⟩ := cons_subset.mp there
    refine bind (paramSlot may first) fun _ => bind (ih ?_) fun _ => pure _ (by simp)
    exact fun r mem => mem_append_right _ (others mem)

theorem localSlots (ids : List SymbolId) : Made t regs (Lower.localSlots ids) := by
  induction ids generalizing regs with
  | nil => exact pure [] (by simp)
  | cons id rest ih =>
    have looks : Lower.localSlots (id :: rest) = (read >>= fun env =>
        (env.program.asVariable? id).elim (Lower.localSlots rest) fun v => do
          let type ← Lower.typeOf v.type
          let slot ← build (·.alloca type)
          let nought ← Lower.constZero type
          Lower.perform (.store slot nought)
          Lower.registerSlot slot v.type
          let slots ← Lower.localSlots rest
          return (id, slot) :: slots) := by
      rw [Lower.localSlots]
      congr 1
      funext env
      cases env.program.asVariable? id <;> rfl
    refine lookFor (.declared id) looks ih fun v => typeOf fun _ => bind (slot _) fun place => ?_
    refine bind (emit _ trivial (by simp)) fun _ => ?_
    refine bind (store _ _ may (by simp) (by simp)) fun _ => bind (registerSlot may _ (by simp)) fun _ => ?_
    exact bind ih fun _ => pure _ (by simp)

end

end Made

end BasicCompiler.Lowering
