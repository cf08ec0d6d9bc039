/-
# The language ignores case

Two files that differ in the case of letters alone, and have the same string literals, have the same module, or none,
and what is reported about them is of the same severity and at the same places (`compile_fold`).
-/
import BasicCompiler.Compiler
import BasicCompiler.Ir.Printer
import BasicCompiler.Proofs.Lowering.Casing

namespace BasicCompiler

open List

/-! ## Places -/

theorem utf8ByteSize_ofList (chars : List Char) : (String.ofList chars).utf8ByteSize = byteLength chars := by
  induction chars with
  | nil => rfl
  | cons c rest ih => rw [String.ofList_cons, String.utf8ByteSize_append, String.utf8ByteSize_singleton, ih, byteLength]

theorem utf8ByteSize_fold (text : String) : (fold text).utf8ByteSize = text.utf8ByteSize := by
  rw [fold, utf8ByteSize_ofList, show byteLength (text.toList.map Char.toLower) = byteLength text.toList from
    byteLength_lowered text.toList, ← utf8ByteSize_ofList, String.ofList_toList]

theorem offsetsAfterNewlines_lowered (chars : List Char) (pos : Nat) :
    offsetsAfterNewlines pos (lowered chars) = offsetsAfterNewlines pos chars := by
  induction chars generalizing pos with
  | nil => rfl
  | cons c rest ih =>
    simp only [lowered_cons, offsetsAfterNewlines, utf8Size_toLower, toLower_eq_iff (show IsUncased '\n' by decide), ih]

theorem LineIndex.ofText_fold (text : String) : LineIndex.ofText (fold text) = LineIndex.ofText text := by
  rw [ofText, fold, String.toList_ofList, show offsetsAfterNewlines 0 (text.toList.map Char.toLower) = _ from
    offsetsAfterNewlines_lowered text.toList 0, ofText]

def Diagnostic.outline (d : Diagnostic) : Severity × Location × Span := (d.severity, d.location, d.span)

namespace SourceFile

theorem map_diagnose_outline (file : SourceFile) (reports : List Report) :
    (reports.map file.diagnose).map Diagnostic.outline =
      (reports.map Report.outline).map fun r => (r.1, file.location r.2, file.clamp r.2) := by
  simp only [map_map]
  rfl

variable {name text text' : String} (same : fold text = fold text')
include same

theorem clamp_eq_of_fold (span : Span) : (mk name text).clamp span = (mk name text').clamp span := by
  have size : text.utf8ByteSize = text'.utf8ByteSize := by rw [← utf8ByteSize_fold, same, utf8ByteSize_fold]
  rw [clamp, clamp, size]

theorem location_eq_of_fold (span : Span) : (mk name text).location span = (mk name text').location span := by
  have lines : LineIndex.ofText text = LineIndex.ofText text' := by
    rw [← LineIndex.ofText_fold, same, LineIndex.ofText_fold]
  rw [location, location, clamp_eq_of_fold same, lines]

end SourceFile

/-! ## Stages on two inputs -/

theorem Matches.both (first : Matches place act r s) (second : Matches place act r' s) :
    (∃ a a', r = .ok a ∧ r' = .ok a' ∧ act a = act a') ∨
      ∃ e e', r = .error e ∧ r' = .error e' ∧ place e = place e' := by
  cases first with
  | ok a =>
    generalize same : Except.ok (act a) = t at second
    cases second with
    | ok a' => exact .inl ⟨a, a', rfl, rfl, Except.ok.inj same⟩
    | error _ => cases same
  | error same =>
    cases second with
    | error same' => exact .inr ⟨_, _, rfl, rfl, same.symm.trans same'⟩

theorem Outcome.Alike.hasErrors {α β : Type} {act : α → β} {o o' : Outcome α} (alike : Alike act o o') :
    o.hasErrors = o'.hasErrors := by
  have severities (o : Outcome α) : o.hasErrors = o.outline.any fun r => decide (r.1 = .error) := by
    rw [Outcome.hasErrors, Outcome.outline, any_map]
    rfl
  rw [severities, severities, alike.outline]

theorem Outcome.Alike.andThen {next : α → Outcome γ}
    (alike : Alike act o o') (later : ∀ a a', act a = act a' → Alike act' (next a) (next a')) :
    Alike act' (o.andThen next) (o'.andThen next) := by
  have results := alike.result
  unfold Outcome.andThen accepted?
  rw [alike.hasErrors]
  cases o'.hasErrors with
  | true => exact ⟨rfl, alike.outline⟩
  | false =>
    cases first : o.result with
    | none =>
      cases second : o'.result with
      | none => exact ⟨rfl, alike.outline⟩
      | some a' => rw [first, second] at results; cases results
    | some a =>
      cases second : o'.result with
      | none => rw [first, second] at results; cases results
      | some a' =>
        rw [first, second] at results
        obtain ⟨answers, places⟩ := later a a' (Option.some.inj results)
        refine ⟨answers, ?_⟩
        change List.map Report.outline (o.reports ++ _) = List.map Report.outline (o'.reports ++ _)
        rw [map_append, map_append, show o.reports.map Report.outline = _ from alike.outline,
          show (next a).reports.map Report.outline = _ from places]
        rfl

theorem checkProgram_alike (ctx : Context) (same : p.reword .caseless = p'.reword .caseless) :
    Outcome.Alike Typed.Program.folded (checkProgram ctx p) (checkProgram ctx p') := by
  have second := Typed.check_caseless ctx p'
  rw [← same] at second
  unfold checkProgram
  rcases (Typed.check_caseless ctx p).toMatches.both second.toMatches with
    ⟨typed, typed', ok, ok', folded⟩ | ⟨es, es', error, error', places⟩
  · rw [ok, ok']
    exact ⟨congrArg some folded, rfl⟩
  · rw [error, error']
    have outline (es : List Typed.CheckError) : (es.flatMap (·.reports)).map Report.outline =
        (es.map Typed.CheckError.places).flatMap fun e => (.error, e.1) :: e.2.map (Prod.mk .note) := by
      simp only [map_flatMap, flatMap_map, Typed.CheckError.reports, Typed.CheckError.places, map_cons, map_map]
      rfl
    refine ⟨rfl, ?_⟩
    simp only [Outcome.outline, outline, places]

theorem lowerProgram_alike (name : String) (same : p.folded = p'.folded) :
    Outcome.Alike id (lowerProgram name p) (lowerProgram name p') := by
  have second := Lowering.lower_folded p' name
  rw [← same] at second
  unfold lowerProgram
  rcases (Lowering.lower_folded p name).both second with ⟨m, m', ok, ok', modules⟩ | ⟨es, es', error, error', places⟩
  · rw [ok, ok']
    exact ⟨congrArg some modules, rfl⟩
  · rw [error, error']
    have outline (es : List Lowering.LowerError) : (es.map (·.report)).map Report.outline =
        (es.map (·.span)).map (Prod.mk .error) := by
      simp only [map_map]
      rfl
    refine ⟨rfl, ?_⟩
    simp only [Outcome.outline, outline, places]

/-- Files that differ in the case of letters alone, and have the same string literals, have
the same module, or none, and diagnostics that differ in their messages alone. -/
theorem compile_fold (ctx : Context) (name : String) {text text' : String} (same : fold text = fold text')
    (strings : (TokenStream.ofText text).strings = (TokenStream.ofText text').strings) :
    let file := SourceFile.mk name text
    let file' := SourceFile.mk name text'
    (compile ctx file).result = (compile ctx file').result ∧
      ((compile ctx file).reports.map file.diagnose).map Diagnostic.outline =
        ((compile ctx file').reports.map file'.diagnose).map Diagnostic.outline := by
  have checked : (checkText ctx text).Alike Typed.Program.folded (checkText ctx text') :=
    (Source.parseProgram_fold same strings).andThen fun _ _ trees => checkProgram_alike ctx trees
  obtain ⟨modules, places⟩ : (compile ctx ⟨name, text⟩).Alike id (compile ctx ⟨name, text'⟩) :=
    checked.andThen fun _ _ tables => lowerProgram_alike name tables
  refine ⟨by simpa only [Option.map_id, id] using modules, ?_⟩
  rw [SourceFile.map_diagnose_outline, SourceFile.map_diagnose_outline, show List.map Report.outline _ = _ from places]
  simp only [SourceFile.clamp_eq_of_fold same, SourceFile.location_eq_of_fold same]
  rfl

/-- A program in two spellings: keywords, a type, a member, a command, a hexadecimal digit and a
comment differ in case, and the string does not. -/
theorem recasedProgram_compiles :
    let text := "TYPE Pair\nFirst AS Integer\nENDTYPE\nP AS pair\nP.FIRST = 0xFF\nPrint \"Hi\" REM Done"
    let text' := "type pair\nfirst as integer\nendtype\np as PAIR\np.first = 0xff\nprint \"Hi\" rem done"
    (compile (.standard .bits64) ⟨"a", text⟩).result.isSome = true ∧
      (compile (.standard .bits64) ⟨"a", text⟩).result = (compile (.standard .bits64) ⟨"a", text'⟩).result := by
  refine ⟨by decide +kernel, (compile_fold _ _ ?_ ?_).1⟩
  · decide +kernel
  · decide +kernel

end BasicCompiler
