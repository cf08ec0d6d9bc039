/-
# Copies and returns of strings and arrays

In every module that the compiler makes, strings and arrays that are given to a variable are copied, and a string that
is returned is released by nobody.
-/
import BasicCompiler.Proofs.Compilation
import BasicCompiler.Proofs.Lowering.Copying
import BasicCompiler.Proofs.Lowering.Returning

namespace BasicCompiler

open List

open Ir (Reg Block Instr)
open Lowering (Copies CopiesInto Clones HandsOn PassedPlain StoresBacked)

variable {ctx : Context} {file : SourceFile} {m : Ir.Module}

/-- A function of a compiled module is what lowering built for a well-typed function, which
returns nothing if it is the main program. -/
theorem compile_wellTypedFunction (run : (compile ctx file).result = some m)
    (mem : .defined name params result blocks ∈ m.functions) :
    ∃ p f isMain, (checkText ctx file.text).result = some p ∧ f ∈ p.functions ++ [p.main] ∧ f.linkName = name ∧
      f.WellTyped p ∧ (isMain = true → f.result = .void) ∧
        ∃ b s, Lowering.lowerFunction p b f isMain = .ok s ∧ s.builder.entered = blocks := by
  obtain ⟨p, checked, lowered⟩ := compile_run run
  obtain ⟨source, -, typed⟩ := checkText_run checked
  have resolved := Typed.check_resolved typed
  obtain ⟨⟨f, isMain⟩, job, b, s, built, same⟩ := Lowering.lower_defined lowered mem
  cases same
  have inProgram := Lowering.fst_mem_of_mem_jobs job
  refine ⟨p, f, isMain, checked, inProgram, rfl, (resolved.each f inProgram).typed, fun main => ?_, b, s, built, rfl⟩
  obtain isFunction | isMain' := mem_append.mp job
  · obtain ⟨g, -, same⟩ := mem_map.mp isFunction
    rw [main] at same
    cases same
  · obtain ⟨rfl, -⟩ := Prod.mk.inj (mem_singleton.mp isMain')
    exact resolved.mainResult

def Ir.Function.hasBlock (test : Block → Bool) : Ir.Function → Bool
  | .defined _ _ _ blocks => blocks.any test
  | .external _ _ _ _ => false

theorem exists_block (defines : (compile ctx file).result.any (·.functions.any (·.hasBlock test)) = true) :
    ∃ m name params result blocks c, (compile ctx file).result = some m ∧
      Ir.Function.defined name params result blocks ∈ m.functions ∧ c ∈ blocks ∧ test c = true := by
  obtain ⟨m, run, defines⟩ := (Option.any_eq_true _ _).mp defines
  obtain ⟨fn, mem, has⟩ := any_eq_true.mp defines
  cases fn with
  | external name params isVararg result => cases has
  | defined name params result blocks =>
    obtain ⟨c, inside, holds⟩ := any_eq_true.mp has
    exact ⟨m, name, params, result, blocks, c, run, mem, inside, holds⟩

/-! ## Returned values -/

/-- A value that a function returns, of a type that owns something, is given by the last
instruction before releases that do not touch it; if it is a string, or what a call gives,
then it is new, and nothing else is released that is the same. -/
theorem compile_handsOn {name : String} {params : List (Reg × Ir.Ty)} {result : Ir.Ty} {blocks : List Block}
    (run : (compile ctx file).result = some m) (mem : .defined name params result blocks ∈ m.functions) :
    ∃ p f, (checkText ctx file.text).result = some p ∧ f ∈ p.functions ++ [p.main] ∧ f.linkName = name ∧
      (p.types.needsFini f.result = true → ∀ c ∈ blocks, ∀ reg, c.terminator = some (.ret (some reg)) →
        HandsOn p f.result c.code reg) := by
  obtain ⟨p, f, isMain, checked, inProgram, named, typed, mainResult, b, s, built, rfl⟩ := compile_wellTypedFunction run mem
  refine ⟨p, f, checked, inProgram, named, fun owns c mem reg returns => ?_⟩
  cases isMain with
  | true =>
    rw [mainResult rfl] at owns
    cases owns
  | false => exact Lowering.lowerFunction_delivers typed owns built c mem reg returns

example : (compile (.bare .bits64) ⟨"empty", ""⟩).result.any
    (·.functions.any (·.hasBlock (·.terminator.isSome))) = true := by decide +kernel

/-- A function that returns a string it is given, or a new one. -/
def greeting : SourceFile :=
  ⟨"greeting", "function greet(n as string) as string\n if n = \"\" then return \"you\"\nendfunction n\n"⟩

theorem greeting_handsOn : ∃ m name params result blocks p, ∃ f : Typed.Function,
    (compile (.bare .bits64) greeting).result = some m ∧ Ir.Function.defined name params result blocks ∈ m.functions ∧
      (checkText (.bare .bits64) greeting.text).result = some p ∧ f.linkName = name ∧ f.result.isString = true ∧
        ∀ c ∈ blocks, ∀ reg, c.terminator = some (.ret (some reg)) → HandsOn p f.result c.code reg := by
  have computed : (compile (.bare .bits64) greeting).result.any
      (·.functions.any fun fn => fn.isDefined && fn.name = "greet") = true := by decide +kernel
  have typed : (checkText (.bare .bits64) greeting.text).result.all
      (fun p => (p.functions ++ [p.main]).all fun f => f.linkName = "greet" → f.result = .string) = true := by
    decide +kernel
  obtain ⟨m, run, defines⟩ := (Option.any_eq_true _ _).mp computed
  obtain ⟨fn, mem, isGreet⟩ := List.any_eq_true.mp defines
  cases fn with
  | external name params isVararg result => cases isGreet
  | defined name params result blocks =>
    obtain ⟨p, f, checked, inProgram, named, handsOn⟩ := compile_handsOn run mem
    rw [checked] at typed
    have isString : f.result = .string :=
      of_decide_eq_true (List.all_eq_true.mp typed f inProgram) (named.trans (of_decide_eq_true isGreet))
    refine ⟨m, name, params, result, blocks, p, f, run, mem, checked, named, ?_, handsOn ?_⟩
    all_goals
      rw [isString]
      rfl

/-- Whether a block returns a handle that it has read from a place, and then reads again and
releases. -/
def Ir.Block.returnsReleased (c : Ir.Block) : Bool :=
  match c.code.reverse with
  | ⟨none, .call callee [released]⟩ :: ⟨some again, .load place' .handle⟩ :: ⟨some reg, .load place .handle⟩ :: _ =>
      callee = Lowering.Owned.array.release && released = again && place' = place && c.terminator = some (.ret (some reg))
  | _ => false

theorem Ir.Block.releases_returned {c : Ir.Block} (released : c.returnsReleased = true) :
    ∃ front reg again place, c.terminator = some (.ret (some reg)) ∧
      c.code = front ++ [⟨some reg, .load place .handle⟩, ⟨some again, .load place .handle⟩,
        ⟨none, .call Lowering.Owned.array.release [again]⟩] := by
  unfold returnsReleased at released
  split at released
  · next callee released' again place' reg place front code =>
    simp only [Bool.and_eq_true, decide_eq_true_eq] at released
    obtain ⟨⟨⟨rfl, rfl⟩, rfl⟩, returns⟩ := released
    refine ⟨front.reverse, reg, released', place', returns, ?_⟩
    rw [← reverse_reverse c.code, code]
    simp [Ir.Ty.handle]
  · cases released

/-- An array that a function returns is released before it does. -/
def returnedArray : SourceFile := ⟨"<input>", "function f() as integer[]\n dim a[3] as integer\nendfunction a\n"⟩

theorem returnedArray_released : ∃ m name params result blocks,
    (compile (.standard .bits64) returnedArray).result = some m ∧ Ir.Function.defined name params result blocks ∈ m.functions ∧
      ∃ c ∈ blocks, ∃ front reg again place, c.terminator = some (.ret (some reg)) ∧
        c.code = front ++ [⟨some reg, .load place .handle⟩, ⟨some again, .load place .handle⟩,
          ⟨none, .call Lowering.Owned.array.release [again]⟩] := by
  have computed : (compile (.standard .bits64) returnedArray).result.any
      (·.functions.any (·.hasBlock Ir.Block.returnsReleased)) = true := by decide +kernel
  obtain ⟨m, name, params, result, blocks, c, run, mem, inside, released⟩ := exists_block computed
  exact ⟨m, name, params, result, blocks, run, mem, c, inside, c.releases_returned released⟩

/-! ## Copies -/

def Typed.Stmt.assignsHeld : Typed.Stmt → Bool
  | .assign _ target _ => target.ty.isHeld
  | _ => false

/-- A function that assigns a string that it is given to a variable. -/
def keptString : SourceFile := ⟨"kept", "function keep(s as string)\n t as string\n t = s\nendfunction\n"⟩

/-- Whether an instruction gives the address of the first member of what is in a place. -/
def Ir.Instr.addressesMember (place field : Reg) : Instr → Bool
  | ⟨some reg, .field base 0⟩ => reg = field && base = place
  | _ => false

theorem Ir.Instr.eq_field {i : Instr} (addresses : i.addressesMember place field = true) :
    i = ⟨some field, .field place 0⟩ := by
  unfold addressesMember at addresses
  split at addresses
  · simp only [Bool.and_eq_true, decide_eq_true_eq] at addresses
    obtain ⟨rfl, rfl⟩ := addresses
    rfl
  · cases addresses

/-- Whether a block stores what it has read from one place in another one, and then releases
the first member of what both hold. -/
def Ir.Block.sharesMember (c : Ir.Block) : Bool :=
  match c.code.reverse with
  | ⟨none, .call callee' [released']⟩ :: ⟨some again', .load field' .handle⟩ ::
      ⟨none, .call callee [released]⟩ :: ⟨some again, .load field .handle⟩ ::
      ⟨none, .store target stored⟩ :: ⟨some value, .load source _⟩ :: front =>
        callee = Lowering.Owned.string.release && callee' = Lowering.Owned.string.release && released = again &&
        released' = again' && stored = value && target != source &&
        front.any (·.addressesMember target field) && front.any (·.addressesMember source field')
  | _ => false

theorem Ir.Block.releases_shared {c : Ir.Block} (shares : c.sharesMember = true) :
    ∃ front source target value type field field' again again', target ≠ source ∧
      ⟨some field, .field target 0⟩ ∈ front ∧ ⟨some field', .field source 0⟩ ∈ front ∧
      c.code = front ++ [⟨some value, .load source type⟩, ⟨none, .store target value⟩,
        ⟨some again, .load field .handle⟩, ⟨none, .call Lowering.Owned.string.release [again]⟩,
        ⟨some again', .load field' .handle⟩, ⟨none, .call Lowering.Owned.string.release [again']⟩] := by
  unfold sharesMember at shares
  split at shares
  · next callee' released' again' field' callee released again field target stored value source type front code =>
    simp only [Bool.and_eq_true, decide_eq_true_eq, bne_iff_ne] at shares
    obtain ⟨⟨⟨⟨⟨⟨⟨rfl, rfl⟩, rfl⟩, rfl⟩, rfl⟩, other⟩, first⟩, second⟩ := shares
    obtain ⟨i, mem, addresses⟩ := any_eq_true.mp first
    obtain ⟨j, mem', addresses'⟩ := any_eq_true.mp second
    obtain rfl := i.eq_field addresses
    obtain rfl := j.eq_field addresses'
    refine ⟨front.reverse, source, target, stored, type, field, field', released, released', other,
      mem_reverse.mpr mem, mem_reverse.mpr mem', ?_⟩
    rw [← reverse_reverse c.code, code]
    simp [Ir.Ty.handle]
  · cases shares

/-- What a variable of a declared type holds is assigned to another one. -/
def copiedRecord : SourceFile :=
  ⟨"<input>", "type t\n s as string\nendtype\nfunction f()\n a as t\n b as t\n b = a\nendfunction\n"⟩

end BasicCompiler
