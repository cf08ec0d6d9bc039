/-
# The widths that conversions lead between

In every module that the compiler makes, bits are kept between types of the same width, integers are extended to wider
ones and cut to narrower ones, with the widths of the target.
-/
import BasicCompiler.Proofs.Handles
import BasicCompiler.Proofs.Linking

namespace BasicCompiler

open Ir (Reg Block Instr)

variable {ctx : Context} {file : SourceFile} {m : Ir.Module}

/-- The rules of a target. A name is called with the signature of any function that has it. -/
def Ir.Module.rulesOn (m : Ir.Module) (w : PointerWidth) : Ir.Rules :=
  ⟨fun name sig => ∃ fn ∈ m.functions, fn.name = name ∧ fn.signature = sig, Ir.Cast.leads w⟩

theorem Ir.Block.WellTyped.converted {l : Ir.Linkage} {types : Ir.Types} {result : Ir.Ty} {c : Block}
    (h : c.WellTyped l types result) {i : Instr} (mem : i ∈ c.instrs) {kind : Ir.Cast} {operand : Reg} {target : Ir.Ty}
    (isCast : i.op = .cast kind operand target) :
    ∃ source, types.Has operand source ∧ l.rules.takes kind source target = true := by
  obtain ⟨t, typed, -⟩ := h.instrs i mem
  rw [isCast] at typed
  cases typed with
  | cast holds takes => exact ⟨_, holds, takes⟩

/-- The registers of a function have types, which its instructions find and give, such that
every conversion leads between types of the widths it is for, on the target that is
compiled for. Nothing else happens where pointers have 64 bits; where they have 32, the
bits of an integer of 64 bits may be taken for those of one of 32 bits, or the other way. -/
theorem compile_converts (links : (ctx.commands.map (·.linkName)).Nodup) {name : String} {params : List (Reg × Ir.Ty)}
    {result : Ir.Ty} {blocks : List Block} (run : (compile ctx file).result = some m)
    (mem : .defined name params result blocks ∈ m.functions) :
    ∃ types : Ir.Types, (∀ p ∈ params, types.Has p.1 p.2) ∧
      (∀ c ∈ blocks, c.WellTyped ⟨m.rulesOn ctx.pointer, m.address?⟩ types result) ∧
      ∀ c ∈ blocks, ∀ i ∈ c.instrs, ∀ kind operand target, i.op = .cast kind operand target →
        ∃ source, types.Has operand source ∧
          (kind.fitsOn ctx.pointer source target = true ∨
            ctx.pointer = .bits32 ∧ kind = .bitcast ∧
              (source = .i64 ∧ target = .i32 ∨ source = .i32 ∧ target = .i64)) := by
  obtain ⟨p, checked, lowered⟩ := compile_run run
  obtain ⟨source, -, typed⟩ := checkText_run checked
  obtain ⟨-, pointer⟩ := Typed.check_commands typed
  have commandLinks : (p.commands.map (·.linkName)).Nodup := check_commandLinks typed ▸ links
  have each : ∀ fn ∈ m.functions, fn.WellTyped ⟨m.rulesOn ctx.pointer, m.address?⟩ :=
    Lowering.lower_keepsRules (Typed.check_resolved typed) lowered commandLinks
      (fun kind source target leads => by rwa [pointer] at leads) fun fn mem => ⟨fn, mem, rfl, rfl⟩
  obtain ⟨types, atParams, blocksTyped⟩ := each _ mem
  refine ⟨types, atParams, blocksTyped, fun c inside i instr kind operand target isCast => ?_⟩
  obtain ⟨source, holds, leads⟩ := (blocksTyped c inside).converted instr isCast
  refine ⟨source, holds, ?_⟩
  have cases : kind.fitsOn ctx.pointer source target = true ∨ kind.confuses ctx.pointer source target = true :=
    (Bool.or_eq_true _ _).mp leads
  simpa [Ir.Cast.confuses, and_assoc] using cases

/-- Sums and parts of integers as wide as a pointer. -/
def pointerSums : SourceFile := ⟨"sums", "function f(p as intptr, b as byte)\n p = p + b\n b = p\nendfunction p\n"⟩

theorem pointerSums_converts : ∃ m name params result blocks, ∃ types : Ir.Types,
    (Context.bare .bits32).commands.map (·.linkName) = [] ∧ (compile (.bare .bits32) pointerSums).result = some m ∧
      Ir.Function.defined name params result blocks ∈ m.functions ∧ (∀ p ∈ params, types.Has p.1 p.2) ∧
      ∀ c ∈ blocks, ∀ i ∈ c.instrs, ∀ kind operand target, i.op = .cast kind operand target →
        ∃ source, types.Has operand source ∧
          (kind.fitsOn .bits32 source target = true ∨
            kind = .bitcast ∧ (source = .i64 ∧ target = .i32 ∨ source = .i32 ∧ target = .i64)) := by
  obtain ⟨m, name, params, result, blocks, run, mem⟩ :=
    exists_defined (.bare .bits32) pointerSums (by decide +kernel)
  have links : ((Context.bare .bits32).commands.map (·.linkName)).Nodup := List.nodup_nil
  obtain ⟨types, atParams, -, casts⟩ := compile_converts links run mem
  refine ⟨m, name, params, result, blocks, types, rfl, run, mem, atParams, fun c inside i instr kind operand target isCast => ?_⟩
  obtain ⟨source, holds, fits | ⟨-, confused⟩⟩ := casts c inside i instr kind operand target isCast
  · exact ⟨source, holds, .inl fits⟩
  · exact ⟨source, holds, .inr confused⟩

def Ir.Instr.reads64? : Instr → Option Reg
  | ⟨some value, .load _ .i64⟩ => some value
  | _ => none

/-- The register whose bits an instruction takes for those of an integer of 32 bits. -/
def Ir.Instr.keeps32? : Instr → Option Reg
  | ⟨_, .cast .bitcast operand .i32⟩ => some operand
  | _ => none

/-- Whether a block takes the bits of an integer of 64 bits for those of one of 32. -/
def Ir.Block.halvesBits (c : Block) : Bool :=
  c.instrs.any fun i => i.reads64?.isSome && c.instrs.any fun j => j.keeps32? = i.reads64?

theorem Ir.Instr.eq_load {i : Instr} {value : Reg} (reads : i.reads64? = some value) :
    ∃ place, i = ⟨some value, .load place .i64⟩ := by
  unfold reads64? at reads
  split at reads
  · next place =>
    cases reads
    exact ⟨place, rfl⟩
  · cases reads

theorem Ir.Instr.op_of_keeps {i : Instr} {value : Reg} (keeps : i.keeps32? = some value) :
    i.op = .cast .bitcast value .i32 := by
  unfold keeps32? at keeps
  split at keeps
  · cases keeps
    rfl
  · cases keeps

theorem Ir.Block.exists_halved {c : Block} (halves : c.halvesBits = true) :
    ∃ value place, ⟨some value, .load place .i64⟩ ∈ c.instrs ∧ ∃ i ∈ c.instrs, i.op = .cast .bitcast value .i32 := by
  obtain ⟨i, mem, halves⟩ := List.any_eq_true.mp halves
  obtain ⟨isSome, halves⟩ := (Bool.and_eq_true _ _).mp halves
  obtain ⟨value, reads⟩ := Option.isSome_iff_exists.mp isSome
  obtain ⟨j, mem', same⟩ := List.any_eq_true.mp halves
  obtain ⟨place, rfl⟩ := i.eq_load reads
  exact ⟨value, place, mem, j, mem', j.op_of_keeps ((of_decide_eq_true same).trans reads)⟩

/-- A number of 64 bits is given to a variable as wide as a pointer, and back. -/
def mixedPointers : SourceFile := ⟨"<input>", "x as int64\np as intptr\np = x\nx = p\n"⟩

/-- Bits are kept although there are too many of them. -/
theorem mixedPointers_halved : ∃ m name params result blocks,
    (compile (.bare .bits32) mixedPointers).result = some m ∧ Ir.Function.defined name params result blocks ∈ m.functions ∧
      ∃ c ∈ blocks, ∃ value place, ⟨some value, .load place .i64⟩ ∈ c.instrs ∧
        (∃ i ∈ c.instrs, i.op = .cast .bitcast value .i32) ∧
          Ir.Ty.widthOn? .bits32 .i64 = some 64 ∧ Ir.Ty.widthOn? .bits32 .i32 = some 32 := by
  have computed : (compile (.bare .bits32) mixedPointers).result.any
      (·.functions.any (·.hasBlock Ir.Block.halvesBits)) = true := by decide +kernel
  obtain ⟨m, name, params, result, blocks, c, run, mem, inside, halves⟩ := exists_block computed
  obtain ⟨value, place, loads, keeps⟩ := c.exists_halved halves
  exact ⟨m, name, params, result, blocks, run, mem, c, inside, value, place, loads, keeps, rfl, rfl⟩

end BasicCompiler
