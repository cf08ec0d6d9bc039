/-
# The functions of a compiled module

What every module that the compiler makes can be relied on for: each function in it is a well-formed graph, its
registers are filled before they are read, unless a jump to a label skips the place where that happens, and every
instruction finds registers of the types it needs.
-/
import BasicCompiler.Proofs.Lowering.Acceptance
import BasicCompiler.Proofs.Lowering.TypedModules

namespace BasicCompiler

open Option List

open Ir (Reg Block Instr)

variable {ctx : Context} {file : SourceFile} {m : Ir.Module} {p : Typed.Program}

/-! ## The stages -/

theorem Outcome.andThen_run {α β : Type} {o : Outcome α} {next : α → Outcome β} {b : β}
    (run : (o.andThen next).result = some b) : ∃ a, o.result = some a ∧ (next a).result = some b := by
  unfold andThen accepted? at run
  cases errors : o.hasErrors with
  | true =>
    rw [errors] at run
    cases run
  | false =>
    rw [errors] at run
    cases made : o.result with
    | none =>
      rw [made] at run
      cases run
    | some a =>
      rw [made] at run
      exact ⟨a, rfl, run⟩

theorem compile_run (run : (compile ctx file).result = some m) :
    ∃ p, (checkText ctx file.text).result = some p ∧ Lowering.lower p file.name = .ok m := by
  obtain ⟨p, checked, lowered⟩ := Outcome.andThen_run run
  refine ⟨p, checked, ?_⟩
  unfold lowerProgram at lowered
  split at lowered
  · next m' made =>
    cases lowered
    exact made
  · cases lowered

theorem checkText_run (run : (checkText ctx file.text).result = some p) :
    ∃ source, (Source.parseProgram file.text).result = some source ∧ Typed.check ctx source = .ok p := by
  obtain ⟨source, read, checked⟩ := Outcome.andThen_run run
  refine ⟨source, read, ?_⟩
  unfold checkProgram at checked
  split at checked
  · next typed made =>
    cases checked
    exact made
  · cases checked

theorem checkText_resolved (run : (checkText ctx file.text).result = some p) :
    ∀ f ∈ p.functions ++ [p.main], f.Resolved p := by
  obtain ⟨source, -, checked⟩ := checkText_run run
  exact (Typed.check_resolved checked).each

theorem compile_defined (run : (compile ctx file).result = some m)
    (mem : .defined name params result blocks ∈ m.functions) :
    ∃ p f isMain, (checkText ctx file.text).result = some p ∧ f ∈ p.functions ++ [p.main] ∧
      f.Resolved p ∧ f.linkName = name ∧ ∃ b s, Lowering.lowerFunction p b f isMain = .ok s ∧
        s.builder.params = params ∧ s.builder.entered = blocks := by
  obtain ⟨p, checked, lowered⟩ := compile_run run
  obtain ⟨⟨f, isMain⟩, job, ⟨b, s, built, same⟩⟩ := Lowering.lower_defined lowered mem
  cases same
  have inProgram := Lowering.fst_mem_of_mem_jobs job
  exact ⟨p, f, isMain, checked, inProgram, checkText_resolved checked f inProgram, rfl, b, s, built, rfl, rfl⟩

/-! ## Graphs -/

def Ir.Function.isDefined : Ir.Function → Bool
  | .defined _ _ _ _ => true
  | .external _ _ _ _ => false

theorem exists_defined (ctx : Context) (file : SourceFile)
    (defines : (compile ctx file).result.any (·.functions.any (·.isDefined)) = true) :
    ∃ m name params result blocks, (compile ctx file).result = some m ∧
      Ir.Function.defined name params result blocks ∈ m.functions := by
  obtain ⟨m, run, defines⟩ := (any_eq_true _ _).mp defines
  obtain ⟨fn, mem, isDefined⟩ := any_eq_true.mp defines
  cases fn with
  | external name params isVararg result => cases isDefined
  | defined name params result blocks => exact ⟨m, name, params, result, blocks, run, mem⟩

/-- Every function of a compiled module is a well-formed control-flow graph. -/
theorem compile_wellFormed {name : String} {params : List (Reg × Ir.Ty)} {result : Ir.Ty}
    {blocks : List Block} (run : (compile ctx file).result = some m)
    (mem : .defined name params result blocks ∈ m.functions) :
    Ir.WellFormed (params.map (·.1)) blocks := by
  obtain ⟨p, f, isMain, -, -, checked, -, b, s, built, rfl, rfl⟩ := compile_defined run mem
  obtain ⟨filled, placed, shut, complete⟩ := Lowering.lowerFunction_placed checked.labelled built
  exact placed.wellFormed shut complete

example : (compile (.bare .bits64) ⟨"empty", ""⟩).result.any (·.functions.any (·.isDefined)) = true := by
  decide +kernel

/-- A loop that is left from inside a branch, with strings made on the way. -/
def leavingLoop : SourceFile := ⟨"leaving", "function show(s as string)\nendfunction\n" ++
  "for i = 1 to 3\n show(\"a\" + \"b\")\n if i = 2 then exit\nnext i\n"⟩

theorem leavingLoop_wellFormed : ∃ m name params result blocks,
    (compile (.bare .bits64) leavingLoop).result = some m ∧
      Ir.Function.defined name params result blocks ∈ m.functions ∧
        Ir.WellFormed (params.map (·.1)) blocks := by
  obtain ⟨m, name, params, result, blocks, run, mem⟩ :=
    exists_defined (.bare .bits64) leavingLoop (by decide +kernel)
  exact ⟨m, name, params, result, blocks, run, mem, compile_wellFormed run mem⟩

/-- A register that is read was filled on every path that leads there, unless the path
jumps to a label of the function and skips the block that fills the register. -/
theorem compile_filledBefore {name : String} {params : List (Reg × Ir.Ty)} {result : Ir.Ty}
    {blocks : List Block} (run : (compile ctx file).result = some m)
    (mem : .defined name params result blocks ∈ m.functions) :
    ∃ p f, (checkText ctx file.text).result = some p ∧ f ∈ p.functions ++ [p.main] ∧
      f.linkName = name ∧ ∀ visited c front r, Ir.Path blocks visited c → Ir.ReadsAt c front r →
        Ir.FilledBefore (params.map (·.1)) visited front r ∨
          Ir.JumpsBehind blocks (Lowering.labelBlockIds f) visited c r := by
  obtain ⟨p, f, isMain, typed, inProgram, checked, name, b, s, built, rfl, rfl⟩ :=
    compile_defined run mem
  refine ⟨p, f, typed, inProgram, name, fun visited c front r path reads => ?_⟩
  obtain ⟨filled, placed, -⟩ := Lowering.lowerFunction_placed checked.labelled built
  obtain ⟨first, rest, entered, -⟩ := placed.proper.laid
  rw [entered] at path ⊢
  exact (placed.certifies entered).filled_before_read path reads

/-- Whether the first block of a function reads a register that is no parameter. -/
def Ir.Function.readsFirst : Ir.Function → Bool
  | .defined _ params _ (first :: _) =>
      first.instrs.any (·.op.operands.any fun r => !(params.map (·.1)).contains r)
  | _ => false

theorem leavingLoop_filledBefore : ∃ m name params result blocks c front r,
    (compile (.bare .bits64) leavingLoop).result = some m ∧
      Ir.Function.defined name params result blocks ∈ m.functions ∧ Ir.Path blocks [] c ∧
        Ir.ReadsAt c front r ∧ r ∈ front.filterMap (·.result) := by
  have computed : (compile (.bare .bits64) leavingLoop).result.any
      (·.functions.any (·.readsFirst)) = true := by decide +kernel
  obtain ⟨m, run, defines⟩ := (any_eq_true _ _).mp computed
  obtain ⟨fn, mem, reads⟩ := any_eq_true.mp defines
  unfold Ir.Function.readsFirst at reads
  split at reads
  · next name params result first rest =>
    obtain ⟨i, inside, reads⟩ := any_eq_true.mp reads
    obtain ⟨r, operand, notParam⟩ := any_eq_true.mp reads
    obtain ⟨front, back, split⟩ := append_of_mem inside
    obtain ⟨p, f, -, -, -, filled⟩ := compile_filledBefore run mem
    have path : Ir.Path (first :: rest) [] first := .start rfl
    have reads : Ir.ReadsAt first front r := .inl ⟨i, back, split, operand⟩
    refine ⟨m, name, params, result, first :: rest, first, front, r, run, mem, path, reads, ?_⟩
    rcases filled [] first front r path reads with (param | before | here) | ⟨x, y, jump, -⟩
    · rw [contains_iff_mem.mpr param] at notParam
      cases notParam
    · cases before
    · exact here
    · exact absurd jump.length_le (by simp)
  · cases reads

/-- Whether the first block of a function leads to one that reads a register which neither
of the two fills. -/
def Ir.Function.skipsFill : Ir.Function → Bool
  | .defined _ params _ (first :: rest) =>
      rest.any fun c => first.terminator = some (.br c.id) && c.instrs.any fun i =>
        i.op.operands.any fun r => !(params.map (·.1)).contains r && !first.results.contains r && !c.results.contains r
  | _ => false

theorem Ir.Function.reads_of_skipsFill {fn : Ir.Function} (skips : fn.skipsFill = true) :
    ∃ name params result blocks visited c front r, fn = .defined name params result blocks ∧
      Path blocks visited c ∧ ReadsAt c front r ∧ ¬ FilledBefore (params.map (·.1)) visited front r := by
  unfold skipsFill at skips
  split at skips
  · next name params result first rest =>
    obtain ⟨c, mem, skips⟩ := any_eq_true.mp skips
    obtain ⟨leads, skips⟩ := (Bool.and_eq_true _ _).mp skips
    obtain ⟨i, inside, skips⟩ := any_eq_true.mp skips
    obtain ⟨r, operand, skips⟩ := any_eq_true.mp skips
    obtain ⟨front, back, split⟩ := append_of_mem inside
    have path : Path (first :: rest) [first] c :=
      .step (.start rfl) (of_decide_eq_true leads) (mem_cons_of_mem _ mem) (by
        simp [Terminator.successors])
    refine ⟨name, params, result, first :: rest, [first], c, front, r, rfl, path, .inl ⟨i, back, split, operand⟩, ?_⟩
    simp only [Bool.and_eq_true, Bool.not_eq_true', contains_eq_mem, decide_eq_false_iff_not] at skips
    rintro (param | before | here)
    · exact skips.1.1 param
    · exact skips.1.2 (by simpa using before)
    · refine skips.2 ?_
      rw [Block.results, split, filterMap_append]
      exact mem_append_left _ here
  · cases skips

/-- A jump over a string, which is released behind the label. -/
def skippingString : SourceFile := ⟨"<input>", "goto skip\nprint \"a\"\nskip:\nprint 1\n"⟩

/-- Behind a label that is jumped to, a string is released that was never made. -/
theorem skippingString_reads_unfilled : ∃ m name params result blocks visited c front r,
    (compile (.standard .bits64) skippingString).result = some m ∧
      Ir.Function.defined name params result blocks ∈ m.functions ∧ Ir.Path blocks visited c ∧
        Ir.ReadsAt c front r ∧ ¬ Ir.FilledBefore (params.map (·.1)) visited front r := by
  have computed : (compile (.standard .bits64) skippingString).result.any
      (·.functions.any (·.skipsFill)) = true := by decide +kernel
  obtain ⟨m, run, defines⟩ := (any_eq_true _ _).mp computed
  obtain ⟨fn, mem, skips⟩ := any_eq_true.mp defines
  obtain ⟨name, params, result, blocks, visited, c, front, r, rfl, path, reads, unfilled⟩ :=
    fn.reads_of_skipsFill skips
  exact ⟨m, name, params, result, blocks, visited, c, front, r, run, mem, path, reads, unfilled⟩

/-! ## Types -/

/-- A compiled module is well typed where pointers have 64 bits, all functions have different
names and all commands are linked under different names. -/
theorem compile_wellTyped (wide : ctx.pointer = .bits64) (run : (compile ctx file).result = some m)
    (names : (m.functions.map (·.name)).Nodup) (links : (ctx.commands.map (·.linkName)).Nodup) : m.WellTyped := by
  obtain ⟨p, checked, lowered⟩ := compile_run run
  obtain ⟨source, -, typed⟩ := checkText_run checked
  obtain ⟨commands, pointer⟩ := Typed.check_commands typed
  have same : ctx.commands.map (·.linkName) = p.commands.map (·.linkName) := by
    rw [← List.forall₂_eq_eq_eq, List.forall₂_map_left_iff, List.forall₂_map_right_iff]
    refine commands.imp fun decl c isOf => ?_
    obtain ⟨members, -, rfl⟩ := isOf
    rfl
  exact Lowering.lower_wellTyped (Typed.check_resolved typed) (pointer.trans wide) lowered names (same ▸ links)

/-- Elements and members that are written to, vectors, a power, and commands with a missing
argument and with addresses. -/
def mixedTypes : SourceFile := ⟨"mixed",
  "type t\n s as string\n v as vec3\nendtype\ndim a[3] as t\nfunction f(v as vec3)\nendfunction v * 2\n" ++
  "k = 1\na[k].v = f(a[k].v)\na[k].v.zx += 2 ^ k\na[k].s = mid$(\"ab\" + k, 2)\nswap k, k\n"⟩

theorem mixedTypes_wellTyped : ∃ m, (compile (.standard .bits64) mixedTypes).result = some m ∧
    (m.functions.map (·.name)).Nodup ∧ (Context.standardCommands.map (·.linkName)).Nodup ∧ m.WellTyped := by
  have computed : (compile (.standard .bits64) mixedTypes).result.any
      (fun m => decide (m.functions.map (·.name)).Nodup) = true := by decide +kernel
  obtain ⟨m, run, names⟩ := (Option.any_eq_true _ _).mp computed
  have links : (Context.standardCommands.map (·.linkName)).Nodup := by decide +kernel
  exact ⟨m, run, of_decide_eq_true names, links, compile_wellTyped rfl run (of_decide_eq_true names) links⟩

/-! ## Programs without a module -/

/-- Of a program that is accepted without errors there is a module, and nothing is reported,
if all that it assigns to or passes by its address has an address. If a body has a place
that has none, there is no module, and nothing else is ever reported. -/
theorem lowerProgram_of_checked {pointer : PointerWidth}
    (checked : (checkText (.standard pointer) file.text).result = some p) :
    ((∀ f ∈ p.functions ++ [p.main], f.addressable = true) →
        ∃ m, lowerProgram file.name p = ⟨some m, []⟩) ∧
      ((∃ f ∈ p.functions ++ [p.main], f.body.addressable = false) →
        (lowerProgram file.name p).result = none) ∧
      ∀ r ∈ (lowerProgram file.name p).reports, ∃ span, r = Lowering.LowerError.report ⟨.noAddress, span⟩ := by
  obtain ⟨source, read, run⟩ := checkText_run checked
  have settled := Lowering.check_settled file.name read run Lowering.standard_spellsValues
  refine ⟨fun all => ?_, fun ⟨f, mem, fails⟩ => ?_, fun r isReport => ?_⟩
  · obtain ⟨m, made⟩ := Lowering.lower_ok settled all
    unfold lowerProgram
    rw [made]
    exact ⟨m, rfl⟩
  · obtain ⟨errors, failed⟩ := Lowering.lower_error settled mem fails
    unfold lowerProgram
    rw [failed]
  · unfold lowerProgram at isReport
    split at isReport
    · cases isReport
    next errors failed =>
      obtain ⟨e, reported, rfl⟩ := List.mem_map.mp isReport
      have fault := Lowering.lower_fault settled failed e reported
      obtain ⟨_, span⟩ := e
      cases fault
      exact ⟨span, rfl⟩

/-- Variables, members, elements and components that are written to or passed on, with
`exit` in a loop and a case that is left for the next one. -/
def writingPlaces : SourceFile := ⟨"places",
  "type Pair\n x as integer\n v as vec3\nendtype\ndim pairs[4] as Pair\n" ++
  "a = 1\npairs[a].v.zx = vec2(1, 2)\npairs[1].v.y *= 3\nswap a, pairs[a].x\n" ++
  "for i = 1 to 3\n select i\n  case 1\n   fallthrough\n  endcase\n  case 2, 3\n   exit\n" ++
  "  endcase\n endselect\nnext i\n"⟩

theorem writingPlaces_lowered : ∃ p m, (checkText (.standard .bits32) writingPlaces.text).result = some p ∧
    lowerProgram writingPlaces.name p = ⟨some m, []⟩ := by
  have computed : (checkText (.standard .bits32) writingPlaces.text).result.any
      (fun p => (p.functions ++ [p.main]).all (·.addressable)) = true := by decide +kernel
  obtain ⟨p, checked, all⟩ := (Option.any_eq_true _ _).mp computed
  obtain ⟨m, made⟩ := (lowerProgram_of_checked checked).1 (List.all_eq_true.mp all)
  exact ⟨p, m, checked, made⟩

/-- A component of two components of a vector, which is written to. -/
def nestedComponents : SourceFile := ⟨"<input>", "v as vec3\nv.xy.x = 1\n"⟩

/-- What is accepted may have no module. -/
theorem nestedComponents_rejected : ∃ p, (checkText (.standard .bits64) nestedComponents.text).result = some p ∧
    (lowerProgram nestedComponents.name p).result = none ∧
      (lowerProgram nestedComponents.name p).reports.map (·.message) = ["Expression has no address"] := by
  have computed : (checkText (.standard .bits64) nestedComponents.text).result.any
      (fun p => (lowerProgram nestedComponents.name p).result.isNone &&
        (lowerProgram nestedComponents.name p).reports.map (·.message) = ["Expression has no address"]) = true := by
    decide +kernel
  obtain ⟨p, checked, rejected⟩ := (Option.any_eq_true _ _).mp computed
  obtain ⟨none, reported⟩ := (Bool.and_eq_true _ _).mp rejected
  exact ⟨p, checked, Option.isNone_iff_eq_none.mp none, of_decide_eq_true reported⟩

end BasicCompiler
