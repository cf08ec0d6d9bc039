/-
# What can stop the code of an expression

The code of a well-typed expression can be emitted if every argument that is passed by its address has one, and if the
expression itself has one where its address is wanted. Whether that is so is computed here.
-/
import BasicCompiler.Proofs.Lowering.Made
import BasicCompiler.Proofs.Types.Builtin
import BasicCompiler.Proofs.Typed.Programs

namespace BasicCompiler

open Ir (BlockId Reg)
open Lowering.Lower Typed Option Bool

theorem Ty.IsSolid.isVoid {ty : Ty} (h : ty.IsSolid) : ty.isVoid = false := by
  refine decide_eq_false fun void => ?_
  rw [void] at h
  exact h rfl

namespace Typed

/-! ## Types of parts -/

theorem Converts.builtins (h : Converts conversion source target) :
    source.isVoid = false ∧ ∃ t, target.builtin? = some t := by
  obtain ⟨changes, valid, mode, rfl⟩ := h
  unfold Ty.conversion at changes valid
  split at valid
  next same => exact absurd (if_pos same) changes
  next differ =>
    split at valid
    next isSource isTarget =>
      refine ⟨decide_eq_false fun void => ?_, _, isTarget⟩
      rw [void] at isSource
      cases isSource
    next a b _ isSource isTarget =>
      refine ⟨decide_eq_false fun void => ?_, b, isTarget⟩
      rw [void] at isSource
      cases isSource
      split at valid
      · cases valid
      next ne =>
        rw [BuiltinType.conversion_of_void mode ne] at valid
        cases valid
    · cases valid

theorem Between.operand {op : BinaryOp} {operand result : Ty} (h : Between op operand result) : operand.IsSolid := by
  unfold Between at h
  split at h
  · rw [h.1]
    exact Ty.isSolid_bool
  · obtain ⟨⟨t, rfl, allowed⟩, -⟩ := h
    exact operandsAllowed_ne_void allowed

theorem Picks.isVoid {base result : Ty} (h : Picks base result axes) : base.isVoid = false := by
  obtain ⟨t, r, isVector, -⟩ := h
  obtain ⟨isBuiltin, simd⟩ := filter_eq_some_iff.mp isVector
  refine decide_eq_false fun void => ?_
  rw [void] at isBuiltin
  cases isBuiltin
  cases simd

/-! ## Expressions that have addresses -/

def Expr.isPlace : Expr → Bool
  | .var _ _ | .member _ _ _ | .index _ _ _ => true
  | _ => false

mutual

/-- Whether every argument of a call inside that is passed by its address has one. -/
def Expr.addressable : Expr → Bool
  | .const _ _ | .var _ _ | .target _ => true
  | .member _ base _ | .swizzle _ base _ => base.addressable
  | .index _ base place => base.addressable && place.addressable
  | .call _ _ args => Arg.addressableAll args
  | .construct _ parts => Expr.addressableAll parts
  | .unary _ _ operand | .convert _ _ operand => operand.addressable
  | .binary _ _ left right => left.addressable && right.addressable

def Expr.addressableAll : List Expr → Bool
  | [] => true
  | e :: rest => e.addressable && Expr.addressableAll rest

def Arg.addressable : Arg → Bool
  | .value e => e.addressable
  | .place e => e.addressable && e.isPlace

def Arg.addressableAll : List Arg → Bool
  | [] => true
  | arg :: rest => arg.addressable && Arg.addressableAll rest

end

variable {target : Expr}

/-! ## Statements whose places have addresses -/

mutual

/-- Whether every place that is assigned to, and every argument that is passed by its
address, has one. -/
def Stmt.addressable : Stmt → Bool
  | .declare _ _ dim init => dim.all Expr.addressable && init.all Expr.addressable
  | .assign _ target value => (target.place.addressable && target.place.isPlace) && value.addressable
  | .eval _ e => e.addressable
  | .ifChain _ bs otherwise => Branch.addressableAll bs && Block.addressableOf otherwise
  | .select _ selector cs =>
      selector.addressable &&
        ((cs.all fun c => Expr.addressableAll c.values) && Case.addressableAll cs)
  | .doLoop _ body => body.addressable
  | .whileLoop _ cond body => cond.addressable && body.addressable
  | .repeatLoop _ body cond => body.addressable && cond.addressable
  | .forLoop _ _ start bound _ step body =>
      start.addressable && (bound.addressable && (step.all Expr.addressable && body.addressable))
  | .ret _ value => value.all Expr.addressable
  | .label _ _ | .goto _ _ | .exitLoop _ | .continueLoop _ | .fallthrough _ | .stop _ => true

def Stmt.addressableAll : List Stmt → Bool
  | [] => true
  | s :: rest => s.addressable && Stmt.addressableAll rest

def Block.addressable : Block → Bool
  | .mk _ body => Stmt.addressableAll body

def Block.addressableOf : Option Block → Bool
  | none => true
  | some body => body.addressable

def Branch.addressableAll : List Branch → Bool
  | [] => true
  | .mk cond body :: rest => cond.addressable && (body.addressable && Branch.addressableAll rest)

def Case.addressableAll : List Case → Bool
  | [] => true
  | .mk _ body :: rest => body.addressable && Case.addressableAll rest

end

/-- Whether every place in the function that needs an address has one. -/
def Function.addressable (f : Function) : Bool := f.body.addressable && f.endValue.all Expr.addressable

theorem Expr.WellTyped.isSolid_of_isLvalue (solid : w.IsSolid) {e : Expr} (typed : e.WellTyped w)
    (lvalue : e.isLvalue = true) : e.ty.IsSolid := by
  rcases typed.isSolid solid e with inside | ⟨-, _, _, _, rfl⟩
  · exact inside
  · cases lvalue

theorem Expr.WellTyped.place (typed : target.WellTyped w) (lvalue : target.isLvalue = true) :
    target.place.WellTyped w ∧ target.place.isLvalue = true := by
  cases target with
  | swizzle info base axes => exact ⟨typed.1, (Bool.and_eq_true _ _).mp lvalue |>.2⟩
  | _ => exact ⟨typed, lvalue⟩

end Typed

namespace Lowering

open Typed (Outlook)
open Lower (Want)

/-! ## Expressions -/

/-- The surroundings have what a body may refer to: its variables with an address for each,
and an address for the target of the assignment at work. -/
structure Serves (env : Env) (w : Outlook) : Prop extends w.IsSolid where
  params : ∀ callee ps, w.params? callee = some ps → ∀ p ∈ ps, p.type.IsSolid
  addresses : ∀ id v, w.sees? id = some v → (env.slots.lookup id).isSome = true ∨
    ∃ name span scope type, env.program.scopes.get? id = some ⟨name, span, scope, .variable ⟨type, .global⟩⟩
  targets : ∀ ty, w.target? = some ty → env.target.isSome = true
  known : ∀ id v, w.sees? id = some v → env.program.asVariable? id = some v

/-- Whether an expression can be had as it is wanted: one that is no place has no address. -/
def gives (addressable isPlace : Bool) : Want → Bool
  | .address => addressable && isPlace
  | .value | .slot => addressable

theorem gives_place (want : Want) : gives b true want = b := by
  cases want with
  | address => exact Bool.and_true b
  | value | slot => rfl

theorem Serves.global {w : Outlook} (serves : Serves env w) {id : SymbolId} (seen : w.sees? id = some v)
    (unslotted : env.slots.lookup id = none) :
    ∃ name span scope type, env.program.scopes.get? id = some ⟨name, span, scope, .variable ⟨type, .global⟩⟩ := by
  refine (serves.addresses id v seen).resolve_left fun inSlot => ?_
  rw [unslotted] at inSlot
  cases inSlot

/-! ## Around statements -/

/-- What stands around a statement: a loop, and a case with another one behind it. -/
structure Surrounds (env : Env) (inLoop hasNext : Bool) : Prop where
  loop : inLoop = true → env.loop.isSome = true
  next : hasNext = true → ∃ block depth, env.nextCase = some ⟨some block, depth⟩

theorem Surrounds.inLoop {inLoop hasNext : Bool} (around : Surrounds env inLoop hasNext)
    (targets : LoopTargets) : Surrounds { env with loop := some targets } true hasNext :=
  ⟨fun _ => rfl, around.next⟩

theorem Surrounds.inCase {inLoop hasNext : Bool} {bodies : List BlockId} {rest : List Case} (around : Surrounds env inLoop hasNext)
    (fewer : bodies.tail.length = rest.length) (depth : Nat) :
    Surrounds { env with nextCase := some ⟨bodies.tail.head?, depth⟩ } inLoop (!rest.isEmpty) := by
  refine ⟨around.loop, fun more => ?_⟩
  cases later : bodies.tail with
  | cons block blocks => exact ⟨block, depth, rfl⟩
  | nil =>
    rw [later] at fewer
    rw [List.eq_nil_of_length_eq_zero fewer.symm] at more
    cases more

theorem all_testedCases (length : bodies.length = cs.length) :
    ((testedCases cs bodies).all fun c => Expr.addressableAll c.1) =
      cs.all fun c => Expr.addressableAll c.values := by
  induction cs generalizing bodies with
  | nil => rfl
  | cons c rest ih =>
    cases bodies with
    | nil => cases length
    | cons body bodies =>
      have others := ih (Nat.succ.inj length)
      unfold testedCases at others ⊢
      obtain ⟨values, inner⟩ := c
      cases values with
      | nil => exact others
      | cons e more => exact congrArg (Expr.addressableAll (e :: more) && ·) others

theorem typed_testedCases {ty : Ty} (typed : Case.WellTypedAll w ty cs) (bodies : List BlockId) :
    ∀ c ∈ testedCases cs bodies, Expr.WellTypedAll w ty c.1 := by
  intro pair mem
  obtain ⟨⟨c, body⟩, inZip, rfl⟩ := List.mem_map.mp (List.mem_of_mem_filter mem)
  exact (typed.each c (List.of_mem_zip inZip).1).1

end Lowering

end BasicCompiler
