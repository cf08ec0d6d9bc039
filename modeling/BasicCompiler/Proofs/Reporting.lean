/-
# What fails is reported, and once

A file has a module exactly when no error is reported about it.
-/
import BasicCompiler.Compiler
import BasicCompiler.Proofs.Source.Names
import BasicCompiler.Proofs.Typed.Caseless

namespace BasicCompiler

open TokenStream List

/-! ## Stages -/

namespace Outcome

variable {o : Outcome α} {next : α → Outcome β}

def Accounts (o : Outcome α) : Prop := o.result.isSome = true ↔ o.hasErrors = false

def Explains (o : Outcome α) : Prop := o.result = none → o.hasErrors = true

theorem Accounts.explains (h : o.Accounts) : o.Explains := by
  intro isNone
  unfold Accounts at h
  rw [isNone] at h
  simpa using h

theorem hasErrors_andThen (reports : List Report) (b : Outcome β) :
    (⟨b.result, reports ++ b.reports⟩ : Outcome β).hasErrors = (reports.any (·.isError) || b.hasErrors) :=
  any_append

theorem Explains.andThen (first : o.Explains) (second : ∀ a, (next a).Accounts) : (o.andThen next).Accounts := by
  unfold Accounts Outcome.andThen accepted?
  cases errors : o.hasErrors with
  | true => simp [hasErrors, ← errors]
  | false =>
    cases made : o.result with
    | none => simp [first made] at errors
    | some a =>
      rw [if_neg (by simp), hasErrors_andThen, ← hasErrors, errors, Bool.false_or]
      exact second a

end Outcome

/-! ## Reading to the end -/

namespace Source

theorem items_takes_all (there : Arrives text r .topLevel) (ends : r.Ends) (ongoing : ∀ t ∈ r.rest, t.kind ≠ .eof)
    (run : Parse.items n r = .ok (p, r')) : r'.rest = [] := by
  induction n generalizing r p with
  | zero => cases run
  | succ n ih =>
    obtain ⟨ended, r1, looked, run⟩ := Parse.bind_ok.mp run
    obtain ⟨rfl, rfl⟩ : decide (r.peek.kind = .eof) = ended ∧ r = r1 := by
      cases looked
      exact ⟨rfl, rfl⟩
    split at run
    · next ended =>
      have isEnd : r.peek.kind = .eof := of_decide_eq_true ended
      unfold TokenReader.peek at isEnd
      cases run
      cases tokens : r'.rest with
      | nil => rfl
      | cons t rest =>
        rw [tokens, headD_cons] at isEnd
        exact absurd isEnd (ongoing t (tokens ▸ mem_cons_self))
    · obtain ⟨i, r2, first, run⟩ := Parse.bind_ok.mp run
      obtain ⟨rest, r3, others, run⟩ := Parse.bind_ok.mp run
      cases run
      obtain ⟨ends2, front, -, taken, -⟩ := (Takes.item there ends).1 i r2 first
      exact ih (.item there first) ends2 (fun t inside => ongoing t (taken ▸ mem_append_right _ inside)) others

theorem program_takes_all (run : Parse.program (TokenReader.ofStream (ofText text)) = .ok (p, r)) : r.rest = [] := by
  obtain ⟨n, r1, steps, run⟩ := Parse.bind_ok.mp run
  cases steps
  have lies := (ofText_lies text).1
  exact items_takes_all .start (ofText_named text).ends (fun t inside => (lies.stand t inside).ne_eof) run

/-! ## What the stages report -/

theorem faultsUpTo_end (s : TokenStream) : s.faultsUpTo (s.lexemes.length + 1) = s.faults := by
  unfold faultsUpTo faults
  rw [take_of_length_le (by simp [toList])]

theorem lexReports_none (s : TokenStream) : lexReports s (s.lexemes.length + 1) = [] := by
  simp [lexReports, faultsUpTo]

end Source

/-- One error, with its notes. -/
def IsStop (reports : List Report) : Prop :=
  ∃ fault notes, reports = fault :: notes ∧ fault.severity = .error ∧ ∀ note ∈ notes, note.severity = .note

/-- A text that is read has all its lexical faults reported and nothing else; one that is
not has some of them reported, and then the fault that stopped the reading. -/
theorem parseProgram_reports (text : String) :
    (∃ p, Source.parseProgram text = ⟨some p, (ofText text).faults.map Source.lexReport⟩) ∨
      ∃ seen stop, Source.parseProgram text =
        ⟨none, ((ofText text).faultsUpTo seen).map Source.lexReport ++ stop⟩ ∧ IsStop stop := by
  have told := (Source.Takes.program text (ofText_named text).ends).2
  unfold Source.parseProgram Source.runParse
  split
  · next p r run =>
    rw [run] at told
    have silent : r.reports = [] := told
    left
    rw [silent, Source.reportsOf, Source.program_takes_all run, Source.lexReports, length_nil, Nat.sub_zero,
      Source.faultsUpTo_end]
    exact ⟨p, rfl⟩
  · next es run =>
    rw [run] at told
    obtain ⟨e, rfl, -⟩ := told
    refine .inr ⟨(ofText text).lexemes.length + 1 - e.unseen, [e.report], ?_, _, [], rfl, rfl, by simp⟩
    simp only [Source.TokenReader.ofStream, nil_append, Source.reportsOf, Source.lexReports_none, drop_nil]
    rfl

/-- A program is accepted with nothing reported, or refused with one error. -/
theorem checkProgram_reports (ctx : Context) (p : Source.Program) :
    (∃ typed, Typed.check ctx p = .ok typed ∧ checkProgram ctx p = ⟨some typed, []⟩) ∨
      ∃ e, Typed.check ctx p = .error [e] ∧ checkProgram ctx p = ⟨none, e.reports⟩ ∧ IsStop e.reports := by
  have alike := Typed.check_caseless ctx p
  unfold checkProgram
  generalize Typed.check ctx p = run, Typed.check ctx.folded _ = run' at alike ⊢
  cases alike with
  | ok typed _ => exact .inl ⟨typed, rfl, rfl⟩
  | @error e =>
    refine .inr ⟨e, rfl, by simp, _, _, rfl, rfl, fun note inside => ?_⟩
    obtain ⟨n, -, rfl⟩ := mem_map.mp inside
    rfl

theorem IsStop.hasError (h : IsStop reports) (front : List Report) : (front ++ reports).any (·.isError) = true := by
  obtain ⟨fault, notes, rfl, isError, -⟩ := h
  exact any_eq_true.mpr ⟨fault, by simp, decide_eq_true isError⟩

theorem parseProgram_explains (text : String) : (Source.parseProgram text).Explains := by
  rcases parseProgram_reports text with ⟨p, read⟩ | ⟨seen, stop, failed, isStop⟩
  · rw [read]
    exact fun isNone => by cases isNone
  · rw [failed]
    exact fun _ => isStop.hasError _

theorem checkProgram_accounts (ctx : Context) (p : Source.Program) : (checkProgram ctx p).Accounts := by
  rcases checkProgram_reports ctx p with ⟨typed, -, accepted⟩ | ⟨e, -, refused, isStop⟩
  · rw [accepted]
    exact ⟨fun _ => rfl, fun _ => rfl⟩
  · have isError : (⟨none, e.reports⟩ : Outcome Typed.Program).hasErrors = true := isStop.hasError []
    rw [refused]
    simp [Outcome.Accounts, isError]

theorem lowerProgram_accounts (name : String) (p : Typed.Program) : (lowerProgram name p).Accounts := by
  unfold lowerProgram
  split
  · exact ⟨fun _ => rfl, fun _ => rfl⟩
  · next errors failed =>
    unfold Lowering.lower at failed
    dsimp only at failed
    split at failed
    · cases failed
    · next b errors' nonempty emitted =>
      cases failed
      cases errors with
      | nil => exact absurd rfl nonempty
      | cons e rest => simp [Outcome.Accounts, Outcome.hasErrors, Lowering.LowerError.report, Report.isError]

/-! ## Compilation -/

/-- The text is no program, or it is one without lexical faults that is not accepted. -/
def Refused (ctx : Context) (text : String) : Prop :=
  (Source.parseProgram text).result = none ∨
    ∃ p errors, (Source.parseProgram text).accepted? = some p ∧ Typed.check ctx p = .error errors

/-- What reading and checking report about a text: lexical faults, all of them if the text is
read to its end, and behind those one fault if the text is refused. -/
structure StopsOnce (ctx : Context) (text : String) (seen : Nat) (stop : List Report) : Prop where
  reports : (checkText ctx text).reports = ((ofText text).faultsUpTo seen).map Source.lexReport ++ stop
  all_seen : (Source.parseProgram text).result.isSome = true → (ofText text).faultsUpTo seen = (ofText text).faults
  once : IsStop stop ∧ Refused ctx text ∨ stop = [] ∧ ¬ Refused ctx text

theorem lexReports_anyError (faults : List (Spanned LexFault)) :
    (faults.map Source.lexReport).any (·.isError) = !faults.isEmpty := by
  cases faults with
  | nil => rfl
  | cons fault rest => simp [Source.lexReport, Report.isError]

theorem checkText_stopsOnce (ctx : Context) (text : String) : ∃ seen stop, StopsOnce ctx text seen stop := by
  rcases parseProgram_reports text with ⟨p, read⟩ | ⟨seen, stop, failed, isStop⟩
  · have all := Source.faultsUpTo_end (ofText text)
    have errors : (Source.parseProgram text).hasErrors = !(ofText text).faults.isEmpty := by
      rw [read]
      exact lexReports_anyError _
    cases faults : (ofText text).faults with
    | cons fault others =>
      -- lexical faults keep the checker from running
      have refused : (Source.parseProgram text).accepted? = none := by
        rw [Outcome.accepted?, errors, faults]
        rfl
      refine ⟨_, [], ?_, fun _ => all, .inr ⟨rfl, ?_⟩⟩
      · rw [checkText, Outcome.andThen, refused, read, all, append_nil]
      · rintro (isNone | ⟨q, e, accepted, -⟩)
        · rw [read] at isNone
          cases isNone
        · rw [refused] at accepted
          cases accepted
    | nil =>
      have accepted : (Source.parseProgram text).accepted? = some p := by
        rw [Outcome.accepted?, errors, faults, read]
        rfl
      have reports : (checkText ctx text).reports = (checkProgram ctx p).reports := by
        rw [checkText, Outcome.andThen, accepted, read, faults]
        rfl
      refine ⟨_, (checkProgram ctx p).reports, ?_, fun _ => all, ?_⟩
      · rw [reports, all, faults]
        rfl
      · rcases checkProgram_reports ctx p with ⟨typed, checked, silent⟩ | ⟨e, failed, told, isStop⟩
        · rw [silent]
          refine .inr ⟨rfl, ?_⟩
          rintro (isNone | ⟨q, e, accepted', failed⟩)
          · rw [read] at isNone
            cases isNone
          · cases accepted.symm.trans accepted'
            cases checked.symm.trans failed
        · rw [told]
          exact .inl ⟨isStop, .inr ⟨p, _, accepted, failed⟩⟩
  · have refused : (Source.parseProgram text).accepted? = none := by
      have errors : (Source.parseProgram text).hasErrors = true := by
        rw [failed]
        exact isStop.hasError _
      rw [Outcome.accepted?, errors]
      rfl
    refine ⟨seen, stop, ?_, ?_, .inl ⟨isStop, .inl (by rw [failed])⟩⟩
    · rw [checkText, Outcome.andThen, refused, failed]
    · rw [failed]
      exact fun nonempty => by cases nonempty

theorem checkText_accounts (ctx : Context) (text : String) : (checkText ctx text).Accounts :=
  (parseProgram_explains text).andThen (checkProgram_accounts ctx)

theorem compile_accounts (ctx : Context) (file : SourceFile) : (compile ctx file).Accounts :=
  (checkText_accounts ctx file.text).explains.andThen (lowerProgram_accounts file.name)

/-- A file has a module exactly when no error is reported about it. What is reported are
lexical faults, then one fault if the text is refused, and then, only if it is not, what
lowering reports. -/
theorem compile_reports (ctx : Context) (file : SourceFile) :
    ((compile ctx file).result.isSome = true ↔
        ∀ d ∈ (compile ctx file).reports.map file.diagnose, d.severity ≠ .error) ∧
      ∃ seen stop lowering, StopsOnce ctx file.text seen stop ∧
        (compile ctx file).reports = ((TokenStream.ofText file.text).faultsUpTo seen).map Source.lexReport ++
          stop ++ lowering ∧
        ((checkText ctx file.text).result = none → lowering = []) := by
  constructor
  · refine (compile_accounts ctx file).trans ?_
    rw [Outcome.hasErrors, List.any_eq_false]
    simp [Report.isError, SourceFile.diagnose]
  · obtain ⟨seen, stop, stops⟩ := checkText_stopsOnce ctx file.text
    refine ⟨seen, stop, ?_⟩
    rw [← stops.reports]
    unfold compile Outcome.andThen
    cases accepted : (checkText ctx file.text).accepted? with
    | none => exact ⟨[], stops, (List.append_nil _).symm, fun _ => rfl⟩
    | some p =>
      refine ⟨_, stops, rfl, fun isNone => ?_⟩
      unfold Outcome.accepted? at accepted
      rw [isNone, ite_self] at accepted
      cases accepted

end BasicCompiler
