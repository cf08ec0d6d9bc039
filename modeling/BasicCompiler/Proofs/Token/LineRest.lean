/-
# What is left of a line

Whether anything is left on a line decides what a colon, a `then` and a backslash mean.
-/
import BasicCompiler.Proofs.Token.Casing

namespace BasicCompiler

open Option Bool

/-- The step meets no fault, and no token but those that the end of a line implies. -/
def Step.IsQuiet (s : Step) : Prop := s.faults = [] ∧ ∀ t ∈ s.tokens, t.isVirtual = true

/-- Up to the next newline, or to the end, the scanner passes over blanks and comments only:
it meets no fault, no token, no separator and no `then`, which would change the state of the
line, and it does not join the next line to this one. -/
inductive PassesLine (line : LineState) : Nat → List Char → Prop where
  | ends {pos : Nat} : PassesLine line pos []
  | newline {pos : Nat} {rest : List Char} : PassesLine line pos ('\n' :: rest)
  /-- A comment with the newline in it. -/
  | across {pos : Nat} {c : Char} {rest : List Char} : c ≠ '\\' → (scanStep pos c rest line).IsQuiet →
      '\n' ∈ rest.take (scanStep pos c rest line).extent → PassesLine line pos (c :: rest)
  | pass {pos : Nat} {c : Char} {rest : List Char} : c ≠ '\\' → c ≠ ':' → (scanStep pos c rest line).IsQuiet →
      (scanStep pos c rest line).line = line →
      PassesLine line (pos + byteLength (c :: rest.take (scanStep pos c rest line).extent))
        (rest.drop (scanStep pos c rest line).extent) → PassesLine line pos (c :: rest)

/-- The comment with a closing mark that begins with `c`. -/
def beginsBlock (c : Char) (rest : List Char) : Bool :=
  c == '/' && rest.head? == some '*' || (wordAt? c rest).any (fold · == "remstart")

def beginsRemark (c : Char) (rest : List Char) : Bool :=
  c == '\x60' || c == '/' && rest.head? == some '/' || (wordAt? c rest).any (fold · == "rem")

/-- A name that is `rem` up to its suffix. -/
def beginsSuffixedRem (c : Char) (rest : List Char) : Bool :=
  hasSuffix rest && fold (String.ofList ((c :: rest).takeWhile isNameChar)) == "rem"

/-- Whether the first thing on the rest of the line that is no blank has a property. -/
def firstVisible (p : Char → List Char → Bool) (chars : List Char) : Bool :=
  match chars.dropWhile isBlank with
  | c :: rest => p c rest
  | [] => false

variable {pos : Nat} {c : Char} {rest chars : List Char} {line : LineState}

/-! ## Steps that are met -/

/-- The step is noticed: it meets a fault or a token, or it stays on the line and either is
that of a colon or changes the state of the line. -/
def Step.IsMet (c : Char) (rest : List Char) (line : LineState) (s : Step) : Prop :=
  ¬ s.IsQuiet ∨ '\n' ∉ rest.take s.extent ∧ (c = ':' ∨ s.line ≠ line)

namespace Step.IsMet

theorem token {extent : Nat} : (Step.token extent line' kind text span).IsMet c rest line :=
  .inl fun quiet => by simpa [Step.token] using quiet.2

theorem fault {extent : Nat} : (Step.fault extent line' f span).IsMet c rest line :=
  .inl fun quiet => by simpa [Step.fault] using quiet.1

theorem either [Decidable p] {s s' : Step} (first : p → s.IsMet c rest line) (second : ¬ p → s'.IsMet c rest line) :
    (if p then s else s').IsMet c rest line := by
  by_cases h : p
  · rw [if_pos h]
    exact first h
  · rw [if_neg h]
    exact second h

theorem thenStep {extent : Nat} (inside : '\n' ∉ rest.take extent) (after : List Char) (span : Span) :
    (thenStep extent after line span).IsMet c rest line := by
  unfold BasicCompiler.thenStep
  cases opener : line.opener with
  | none => exact fault
  | some opener' =>
    have changed {line' : LineState} (closed : line'.opener = none) : line' ≠ line := by
      rintro rfl
      rw [closed] at opener
      cases opener
    exact either (fun _ => .inr ⟨inside, .inr (changed rfl)⟩) fun _ => .inr ⟨inside, .inr (changed rfl)⟩

theorem wordStep {extent : Nat} (inside : '\n' ∉ rest.take extent) (after : List Char) (word : String) (span : Span) :
    (wordStep extent after line word span).IsMet c rest line := by
  by_cases isThen : Keyword.ofWord? word = some .kwThen
  · rw [BasicCompiler.wordStep, isThen]
    exact thenStep inside after span
  · rw [wordStep_token isThen]
    exact token

theorem newline_not_mem_word (rest : List Char) : '\n' ∉ rest.take (rest.takeWhile isNameChar).length := by
  rw [take_length_takeWhile]
  intro mem
  have isName := List.all_eq_true.mp List.all_takeWhile _ mem
  revert isName
  decide

theorem nameStep (name : isNameStart c = true) (noBlock : beginsBlock c rest = false)
    (noRemark : beginsRemark c rest = false) : (nameStep pos c rest line).IsMet c rest line := by
  cases suffix : hasSuffix rest with
  | true =>
    rw [nameStep_of_suffix suffix]
    exact token
  | false =>
    have word : wordAt? c rest = some (String.ofList (c :: rest.takeWhile isNameChar)) := by simp [wordAt?, name, suffix]
    simp only [beginsBlock, beginsRemark, word, any_some, or_eq_false_iff] at noBlock noRemark
    rw [nameStep_of_word suffix]
    simp only [noBlock.2, noRemark.2, false_eq_true, if_false]
    exact wordStep (newline_not_mem_word rest) _ _ _

theorem scanStep (noLine : c ≠ '\n') (noBlank : isBlank c = false) (noJoin : c ≠ '\\')
    (noBlock : beginsBlock c rest = false) (noRemark : beginsRemark c rest = false) :
    (scanStep pos c rest line).IsMet c rest line := by
  by_cases name : isNameStart c = true
  · rw [scanStep_of_nameStart name]
    exact nameStep name noBlock noRemark
  · have noWord : wordAt? c rest = none := by simp [wordAt?, name]
    simp only [beginsBlock, beginsRemark, noWord, any_none, Bool.or_false, Bool.or_eq_false_iff] at noBlock noRemark
    simp only [BasicCompiler.scanStep, beq_eq_false_iff_ne.mpr noLine, noBlank, beq_eq_false_iff_ne.mpr noJoin,
      noRemark.1, noRemark.2, noBlock, Bool.false_and, Bool.false_eq_true, if_false]
    refine either (fun isColon => ?_) fun _ => either (fun _ => ?_) fun _ => either (fun _ => ?_) fun _ => ?_
    · exact either (fun _ => token) fun _ => .inr ⟨by simp [Step.skip], .inl (eq_of_beq isColon)⟩
    · exact either (fun _ => token) fun _ => fault
    · unfold numberStep
      dsimp only
      split
      · exact token
      · exact fault
    · refine either (fun isName => absurd isName name) fun _ => ?_
      unfold signStep
      split
      · exact token
      · exact fault

end Step.IsMet

theorem not_passesLine_of_isMet (noLine : c ≠ '\n') (met : (scanStep pos c rest line).IsMet c rest line) :
    ¬ PassesLine line pos (c :: rest) := by
  intro passes
  cases passes with
  | newline => exact noLine rfl
  | across _ quiet inside =>
    rcases met with loud | ⟨outside, -⟩
    · exact loud quiet
    · exact outside inside
  | pass _ noColon quiet same _ =>
    rcases met with loud | ⟨-, isColon | changed⟩
    · exact loud quiet
    · exact noColon isColon
    · exact changed same

theorem not_passesLine_of_join : ¬ PassesLine line pos ('\\' :: rest) := by
  intro passes
  cases passes with
  | across noJoin | pass noJoin => exact noJoin rfl

/-! ## Steps that are passed -/

theorem passesLine_blank (blank : isBlank c = true) :
    PassesLine line pos (c :: rest) ↔ PassesLine line (pos + byteLength [c]) rest := by
  have step : scanStep pos c rest line = Step.skip 0 line := scanStep_blank blank rest line
  constructor
  · intro passes
    cases passes with
    | newline => cases blank
    | across _ _ inside =>
      rw [step] at inside
      cases inside
    | pass _ _ _ _ later =>
      rw [step] at later
      exact later
  · intro later
    have ne {d : Char} (visible : isBlank d = false) : c ≠ d := by
      rintro rfl
      rw [visible] at blank
      cases blank
    refine .pass (ne (by decide)) (ne (by decide)) ?_ ?_ ?_
    · rw [step]
      exact ⟨rfl, by simp [Step.skip]⟩
    · rw [step]
      rfl
    · rw [step]
      exact later

theorem passesLine_dropWhile (line : LineState) (chars : List Char) (pos : Nat) :
    ∃ pos', PassesLine line pos chars ↔ PassesLine line pos' (chars.dropWhile isBlank) := by
  induction chars generalizing pos with
  | nil => exact ⟨pos, Iff.rfl⟩
  | cons c rest ih =>
    cases blank : isBlank c with
    | true =>
      obtain ⟨pos', same⟩ := ih (pos + byteLength [c])
      rw [List.dropWhile_cons_of_pos blank]
      exact ⟨pos', (passesLine_blank blank).trans same⟩
    | false =>
      rw [List.dropWhile_cons_of_neg (by simp [blank])]
      exact ⟨pos, Iff.rfl⟩

theorem passesLine_lineEnd (skipped : Nat) (rest : List Char) :
    PassesLine line pos (rest.drop (skipped + lineLength (rest.drop skipped))) := by
  rw [← List.drop_drop]
  generalize rest.drop skipped = behind
  induction behind with
  | nil => exact .ends
  | cons d more ih =>
    by_cases isEnd : d = '\n'
    · subst isEnd
      exact .newline
    · simpa [lineLength, isEnd] using ih

theorem scanStep_remark (remark : beginsRemark c rest = true) (pos : Nat) (line : LineState) : ∃ skipped,
    c ≠ '\\' ∧ c ≠ ':' ∧ scanStep pos c rest line = Step.skip (skipped + lineLength (rest.drop skipped)) line := by
  simp only [beginsRemark, or_eq_true, and_eq_true, beq_iff_eq] at remark
  rcases remark with (rfl | ⟨rfl, second⟩) | word
  · exact ⟨0, by decide, by decide, by simp [scanStep, isBlank]⟩
  · exact ⟨0, by decide, by decide, by simp [scanStep, isBlank, second]⟩
  · obtain ⟨text, found, isRem⟩ := (any_eq_true _ _).mp word
    unfold wordAt? at found
    obtain ⟨plain, same⟩ := ite_none_right_eq_some.mp found
    cases same
    obtain ⟨name, noSuffix⟩ := (and_eq_true _ _).mp plain
    refine ⟨(rest.takeWhile isNameChar).length, ?_, ?_, ?_⟩
    · rintro rfl
      cases name
    · rintro rfl
      cases name
    · rw [scanStep_of_nameStart name, nameStep_of_word (by simpa using noSuffix), if_pos isRem]

theorem passesLine_of_remark (remark : beginsRemark c rest = true) : PassesLine line pos (c :: rest) := by
  obtain ⟨skipped, noJoin, noColon, step⟩ := scanStep_remark remark pos line
  refine .pass noJoin noColon ?_ ?_ ?_
  · rw [step]
    exact ⟨rfl, by simp [Step.skip]⟩
  · rw [step]
    rfl
  · rw [step]
    exact passesLine_lineEnd skipped rest

/-! ## The look-ahead -/

theorem isNameStart_of_rem (isRem : fold (String.ofList ((c :: rest).takeWhile isNameChar)) = "rem") :
    isNameStart c = true := by
  rw [fold_ofList, show "rem" = String.ofList ['r', 'e', 'm'] from rfl, String.ofList_inj] at isRem
  cases isName : isNameChar c with
  | false =>
    rw [List.takeWhile_cons_of_neg (by simp [isName])] at isRem
    cases isRem
  | true =>
    rw [List.takeWhile_cons_of_pos isName] at isRem
    have first : c.toLower = 'r' := (List.cons.inj isRem).1
    rw [← isNameStart_toLower, first]
    rfl

theorem takeWhile_of_isNameStart (name : isNameStart c = true) :
    (c :: rest).takeWhile isNameChar = c :: rest.takeWhile isNameChar :=
  List.takeWhile_cons_of_pos (by simp [isNameChar, name])

theorem restOfLineBlank_visible (behind : chars.dropWhile isBlank = c :: rest) :
    restOfLineBlank chars = (c == '\n' || beginsRemark c rest || beginsSuffixedRem c rest) := by
  rw [restOfLineBlank_cons behind, beginsRemark, beginsSuffixedRem]
  by_cases name : isNameStart c = true
  · rw [takeWhile_of_isNameStart name]
    cases suffix : hasSuffix rest <;> simp [wordAt?, name, suffix, Bool.or_assoc]
  · have noWord : wordAt? c rest = none := by simp [wordAt?, name]
    have noRem : (fold (String.ofList ((c :: rest).takeWhile isNameChar)) == "rem") = false :=
      beq_eq_false_iff_ne.mpr fun isRem => name (isNameStart_of_rem isRem)
    simp [noWord, noRem, Bool.or_assoc]

theorem unseen_of_beginsBlock (block : beginsBlock c rest = true) :
    (c == '\n' || beginsRemark c rest || beginsSuffixedRem c rest) = false := by
  simp only [beginsBlock, or_eq_true, and_eq_true, beq_iff_eq] at block
  rcases block with ⟨rfl, second⟩ | word
  · have noWord : wordAt? '/' rest = none := rfl
    have noName : ('/' :: rest).takeWhile isNameChar = [] := rfl
    simp [beginsRemark, beginsSuffixedRem, second, noWord, noName, fold]
  · obtain ⟨text, found, isMark⟩ := (any_eq_true _ _).mp word
    have plain := found
    unfold wordAt? at plain
    obtain ⟨plain, -⟩ := ite_none_right_eq_some.mp plain
    obtain ⟨name, noSuffix⟩ := (and_eq_true _ _).mp plain
    have ne {d : Char} (other : isNameChar d = false) : (c == d) = false :=
      isNameChar_ne (isNameChar_of_isNameStart name) other
    have noRem : (fold text == "rem") = false := by
      rw [eq_of_beq isMark]
      rfl
    simp [beginsRemark, beginsSuffixedRem, found, noRem, by simpa using noSuffix, ne (d := '\n') (by decide),
      ne (d := '\x60') (by decide), ne (d := '/') (by decide)]

theorem isMet_suffixedRem (suffixed : beginsSuffixedRem c rest = true) : (scanStep pos c rest line).IsMet c rest line := by
  obtain ⟨suffix, isRem⟩ := (and_eq_true _ _).mp suffixed
  rw [scanStep_of_nameStart (isNameStart_of_rem (eq_of_beq isRem)), nameStep_of_suffix suffix]
  exact .token

/-- The look-ahead says exactly whether the scanner passes over the rest of the line, unless
the first thing there is a comment with a closing mark, which it does not see, or a name that
is `rem` up to its suffix, which it takes for a comment. -/
theorem restOfLineBlank_iff (pos : Nat) (chars : List Char) (line : LineState) :
    (firstVisible beginsBlock chars = false → firstVisible beginsSuffixedRem chars = false →
      (restOfLineBlank chars = true ↔ PassesLine line pos chars)) ∧
    (firstVisible beginsBlock chars = true → restOfLineBlank chars = false) ∧
    (firstVisible beginsSuffixedRem chars = true → restOfLineBlank chars = true ∧ ¬ PassesLine line pos chars) := by
  obtain ⟨pos', same⟩ := passesLine_dropWhile line chars pos
  rw [same]
  unfold firstVisible
  cases behind : chars.dropWhile isBlank with
  | nil => simp [restOfLineBlank, behind, PassesLine.ends]
  | cons c rest =>
    have visible : isBlank c = false := by
      have stops := List.head?_dropWhile_not isBlank chars
      simpa [behind] using stops
    rw [restOfLineBlank_visible behind]
    refine ⟨fun noBlock noSuffixed => ?_, unseen_of_beginsBlock, fun suffixed => ?_⟩
    · dsimp only at noSuffixed
      rw [noSuffixed, Bool.or_false, Bool.or_eq_true, beq_iff_eq]
      refine ⟨fun seen => ?_, fun passes => ?_⟩
      · rcases seen with rfl | remark
        · exact .newline
        · exact passesLine_of_remark remark
      · cases remark : beginsRemark c rest with
        | true => exact .inr rfl
        | false =>
          by_cases isLine : c = '\n'
          · exact .inl isLine
          · by_cases join : c = '\\'
            · subst join
              exact absurd passes not_passesLine_of_join
            · exact absurd passes (not_passesLine_of_isMet isLine (.scanStep isLine visible join noBlock remark))
    · have isRem := isNameStart_of_rem (eq_of_beq ((Bool.and_eq_true _ _).mp suffixed).2)
      dsimp only at suffixed
      refine ⟨by rw [suffixed, Bool.or_true], not_passesLine_of_isMet ?_ (isMet_suffixedRem suffixed)⟩
      rintro rfl
      cases isRem

theorem slashes_passed : firstVisible beginsBlock " // done".toList = false ∧
    firstVisible beginsSuffixedRem " // done".toList = false ∧ PassesLine .start 0 " // done".toList :=
  ⟨rfl, rfl, ((restOfLineBlank_iff 0 " // done".toList .start).1 rfl rfl).mp rfl⟩

/-- Nothing but a comment stands behind the name of a label, and the look-ahead denies it; a
name is assigned to behind a `then`, and the look-ahead takes it for a comment. -/
theorem markedComment_unseen : PassesLine ⟨false, none, 0, true⟩ 5 " /* c */".toList ∧
    restOfLineBlank " /* c */".toList = false ∧
    restOfLineBlank " rem$ = a$".toList = true ∧ ¬ PassesLine ⟨false, some .ifWord, 0, false⟩ 9 " rem$ = a$".toList := by
  refine ⟨.pass (by decide) (by decide) ⟨rfl, by decide⟩ rfl ?_, rfl, rfl, ?_⟩
  · exact .pass (by decide) (by decide) ⟨rfl, by decide⟩ rfl .ends
  · change ¬ PassesLine _ 9 (' ' :: "rem$ = a$".toList)
    rw [passesLine_blank rfl]
    exact not_passesLine_of_isMet (by decide) (isMet_suffixedRem rfl)

end BasicCompiler
