/-
# What stands before a gap is read by itself

Names, numbers, strings and signs end at the latest where a blank or a newline follows, so what the scanner takes
there is the same whatever comes behind the gap.
-/
import BasicCompiler.Token.Stream

namespace BasicCompiler

open List

def Gap (tail : List Char) : Prop := ∀ d ∈ tail.head?, isBlank d = true ∨ d = '\n'

theorem Gap.nil : Gap [] := fun _ isNone => nomatch isNone

variable {tail : List Char}

theorem Gap.cons (blank : isBlank d = true ∨ d = '\n') : Gap (d :: tail) := by
  intro e first
  cases first
  exact blank

theorem Gap.cases (gap : Gap tail) :
    tail = [] ∨ ∃ d more, tail = d :: more ∧ (d = ' ' ∨ d = '\t' ∨ d = '\r' ∨ d = '\n') := by
  cases tail with
  | nil => exact .inl rfl
  | cons d more =>
    have four := gap d rfl
    simp only [isBlank, Bool.or_eq_true, beq_iff_eq, or_assoc] at four
    exact .inr ⟨d, more, rfl, four⟩

section Runs

variable (gap : Gap tail)
include gap

theorem takeWhile_gap (stops : p ' ' = false ∧ p '\t' = false ∧ p '\r' = false ∧ p '\n' = false) (chars : List Char) :
    (chars ++ tail).takeWhile p = chars.takeWhile p := by
  induction chars with
  | nil =>
    rcases gap.cases with rfl | ⟨d, more, rfl, rfl | rfl | rfl | rfl⟩
    · rfl
    all_goals simp [stops]
  | cons c chars ih => simp only [cons_append, takeWhile_cons, ih]

theorem names_gap (chars : List Char) : (chars ++ tail).takeWhile isNameChar = chars.takeWhile isNameChar :=
  takeWhile_gap gap (by decide) chars

theorem digits_gap (chars : List Char) : (chars ++ tail).takeWhile isDigit = chars.takeWhile isDigit :=
  takeWhile_gap gap (by decide) chars

end Runs

theorem length_takeWhile_le (p : Char → Bool) (chars : List Char) : (chars.takeWhile p).length ≤ chars.length :=
  (takeWhile_sublist p).length_le

theorem take_length_takeWhile (p : Char → Bool) (chars : List Char) :
    chars.take (chars.takeWhile p).length = chars.takeWhile p :=
  (prefix_iff_eq_take.mp ( takeWhile_prefix p)).symm

/-! ## Numbers -/

theorem fractionDigits_length (chars : List Char) (nonempty : ¬(fractionDigits chars).isEmpty) :
    (fractionDigits chars).length + 1 ≤ chars.length := by
  unfold fractionDigits at nonempty ⊢
  split at nonempty
  · exact Nat.succ_le_succ (takeWhile_sublist _).length_le
  · exact absurd rfl nonempty

theorem exponentPart_cons (mark s : Char) (digits : List Char) :
    exponentPart (mark :: s :: digits) =
      if mark == 'e' || mark == 'E' then
        let signed := s = '-' ∨ s = '+'
        let run := (if signed then digits else s :: digits).takeWhile isDigit
        if run.isEmpty then none
        else some (if s = '-' then -(digitsValue 10 run : Int) else digitsValue 10 run,
          1 + (if signed then 1 else 0) + run.length)
      else none := by
  unfold exponentPart
  by_cases minus : s = '-'
  · subst minus
    simp
  · by_cases plus : s = '+'
    · subst plus
      simp
    · simp [minus, plus]

theorem exponentPart_length {length : Nat} (found : exponentPart chars = some (value, length)) :
    length ≤ chars.length := by
  match chars with
  | [] => cases found
  | [mark] => simp [exponentPart] at found
  | mark :: s :: digits =>
    rw [exponentPart_cons] at found
    by_cases signed : s = '-' ∨ s = '+'
    · have := length_takeWhile_le isDigit digits
      simp only [signed, if_true, Option.ite_none_right_eq_some, Option.ite_none_left_eq_some, Option.some.injEq,
        Prod.mk.injEq] at found
      obtain ⟨-, -, -, rfl⟩ := found
      simp only [length_cons]
      omega
    · have := length_takeWhile_le isDigit (s :: digits)
      simp only [signed, if_false, Option.ite_none_right_eq_some, Option.ite_none_left_eq_some, Option.some.injEq,
        Prod.mk.injEq] at found
      obtain ⟨-, -, -, rfl⟩ := found
      simp only [length_cons] at this ⊢
      omega

theorem exponentPart_gap (gap : Gap tail) (chars : List Char) : exponentPart (chars ++ tail) = exponentPart chars := by
  match chars with
  | [] | [mark] =>
    rcases gap.cases with rfl | ⟨d, more, rfl, rfl | rfl | rfl | rfl⟩
    · rfl
    all_goals simp [exponentPart, isDigit]
  | mark :: s :: digits =>
    have run : (if s = '-' ∨ s = '+' then digits ++ tail else s :: (digits ++ tail)).takeWhile isDigit =
        (if s = '-' ∨ s = '+' then digits else s :: digits).takeWhile isDigit := by
      split
      · exact digits_gap gap digits
      · exact digits_gap gap (s :: digits)
    rw [cons_append, cons_append, exponentPart_cons, exponentPart_cons]
    simp only [run]

theorem fractionDigits_gap (gap : Gap tail) (chars : List Char) :
    fractionDigits (chars ++ tail) = fractionDigits chars := by
  match chars with
  | [] =>
    rcases gap.cases with rfl | ⟨d, more, rfl, rfl | rfl | rfl | rfl⟩
    all_goals rfl
  | c :: chars =>
    rw [cons_append]
    unfold fractionDigits
    split
    · next rest same =>
      cases same
      exact digits_gap gap chars
    · next other =>
      split
      · next rest same =>
        cases same
        exact absurd rfl (other _)
      · rfl

def mantissaLength (chars : List Char) : Nat :=
  let whole := chars.takeWhile isDigit
  let fraction := fractionDigits (chars.drop whole.length)
  whole.length + if fraction.isEmpty then 0 else fraction.length + 1

theorem mantissaLength_le (chars : List Char) : mantissaLength chars ≤ chars.length := by
  have whole := length_takeWhile_le isDigit chars
  unfold mantissaLength
  dsimp only
  split
  · exact whole
  · next nonempty =>
    have fraction := fractionDigits_length _ nonempty
    rw [length_drop] at fraction
    omega

theorem decimalNumeral_eq (chars : List Char) :
    decimalNumeral chars =
      let whole := chars.takeWhile isDigit
      let fraction := fractionDigits (chars.drop whole.length)
      match exponentPart (chars.drop (mantissaLength chars)) with
      | some (exponent, exponentLength) =>
          (.decimal whole fraction (some exponent), mantissaLength chars + exponentLength)
      | none => (.decimal whole fraction none, mantissaLength chars) := rfl

theorem decimalNumeral_length (chars : List Char) : (decimalNumeral chars).2 ≤ chars.length := by
  rw [decimalNumeral_eq]
  have mantissa := mantissaLength_le chars
  split
  · next found =>
    have exponent := exponentPart_length found
    rw [length_drop] at exponent
    dsimp only
    omega
  · exact mantissa

theorem decimalNumeral_gap (gap : Gap tail) (chars : List Char) :
    decimalNumeral (chars ++ tail) = decimalNumeral chars := by
  have fraction : fractionDigits ((chars ++ tail).drop (chars.takeWhile isDigit).length) =
      fractionDigits (chars.drop (chars.takeWhile isDigit).length) := by
    rw [drop_append_of_le_length (length_takeWhile_le _ _), fractionDigits_gap gap]
  have mantissa : mantissaLength (chars ++ tail) = mantissaLength chars := by
    simp only [mantissaLength, digits_gap gap, fraction]
  rw [decimalNumeral_eq, decimalNumeral_eq]
  simp only [mantissa, digits_gap gap, fraction, drop_append_of_le_length (mantissaLength_le chars),
    exponentPart_gap gap]

theorem numeral_length (chars : List Char) : (numeral chars).2 ≤ chars.length := by
  unfold numeral
  split
  · next mark rest =>
    dsimp only
    split
    · have := length_takeWhile_le isHexDigit rest
      simp only [length_cons]
      omega
    · split
      · have := length_takeWhile_le isBinaryDigit rest
        simp only [length_cons]
        omega
      · exact decimalNumeral_length _
  · exact decimalNumeral_length _

theorem numeral_cons (c mark : Char) (rest : List Char) :
    numeral (c :: mark :: rest) =
      if c = '0' ∧ (mark == 'x' || mark == 'X') then
        (.radix 16 (rest.takeWhile isHexDigit), 2 + (rest.takeWhile isHexDigit).length)
      else if c = '0' ∧ ((mark == 'b' || mark == 'B') && !(rest.takeWhile isBinaryDigit).isEmpty) then
        (.radix 2 (rest.takeWhile isBinaryDigit), 2 + (rest.takeWhile isBinaryDigit).length)
      else decimalNumeral (c :: mark :: rest) := by
  by_cases zero : c = '0'
  · subst zero
    simp [numeral]
  · simp [numeral, zero]

theorem numeral_gap (gap : Gap tail) (c : Char) (chars : List Char) :
    numeral (c :: chars ++ tail) = numeral (c :: chars) := by
  have decimal := decimalNumeral_gap gap (c :: chars)
  cases chars with
  | nil =>
    have alone : numeral [c] = decimalNumeral [c] := by simp [numeral]
    rw [alone, ← decimal]
    rcases gap.cases with rfl | ⟨d, more, rfl, rfl | rfl | rfl | rfl⟩
    · exact alone
    all_goals simp [numeral_cons]
  | cons mark rest =>
    simp only [cons_append] at decimal ⊢
    rw [numeral_cons, numeral_cons, decimal, takeWhile_gap gap (by decide), takeWhile_gap gap (by decide)]

theorem numberSuffix?_gap (gap : Gap tail) (n : Numeral) (chars : List Char) :
    numberSuffix? n (chars ++ tail) = numberSuffix? n chars := by
  cases chars with
  | nil =>
    rcases gap.cases with rfl | ⟨d, more, rfl, rfl | rfl | rfl | rfl⟩
    · rfl
    all_goals simp [numberSuffix?]
  | cons c chars => rfl

theorem numberSuffix?_length (n : Numeral) (chars : List Char) :
    (if (numberSuffix? n chars).isSome then 1 else 0) ≤ chars.length := by
  cases chars with
  | nil => simp [numberSuffix?]
  | cons c chars =>
    rw [length_cons]
    split <;> omega

def suffixedLength (chars : List Char) : Nat :=
  let n := numeral chars
  n.2 + if (numberSuffix? n.1 (chars.drop n.2)).isSome then 1 else 0

theorem suffixedLength_le (chars : List Char) : suffixedLength chars ≤ chars.length := by
  have digits := numeral_length chars
  have suffix := numberSuffix?_length (numeral chars).1 (chars.drop (numeral chars).2)
  rw [length_drop] at suffix
  unfold suffixedLength
  dsimp only
  omega

theorem scanNumber_eq (chars : List Char) :
    scanNumber chars =
      let n := (numeral chars).1
      let junk := (chars.drop (suffixedLength chars)).takeWhile isNameChar
      if junk.isEmpty && n.hasDigits then
        ⟨suffixedLength chars, numberLiteral n (numberSuffix? n (chars.drop (numeral chars).2))⟩
      else ⟨suffixedLength chars + junk.length, .error .malformed⟩ := rfl

theorem scanNumber_length (chars : List Char) : (scanNumber chars).length ≤ chars.length := by
  have digits := suffixedLength_le chars
  have junk := length_takeWhile_le isNameChar (chars.drop (suffixedLength chars))
  rw [length_drop] at junk
  rw [scanNumber_eq]
  dsimp only
  split <;> dsimp only <;> omega

theorem scanNumber_gap (gap : Gap tail) (c : Char) (chars : List Char) :
    scanNumber (c :: chars ++ tail) = scanNumber (c :: chars) := by
  have suffix : numberSuffix? (numeral (c :: chars)).1 ((c :: chars ++ tail).drop (numeral (c :: chars)).2) =
      numberSuffix? (numeral (c :: chars)).1 ((c :: chars).drop (numeral (c :: chars)).2) := by
    rw [drop_append_of_le_length (numeral_length _), numberSuffix?_gap gap]
  have length : suffixedLength (c :: chars ++ tail) = suffixedLength (c :: chars) := by
    simp only [suffixedLength, numeral_gap gap, suffix]
  rw [scanNumber_eq, scanNumber_eq]
  simp only [length, numeral_gap gap, suffix, drop_append_of_le_length (suffixedLength_le _), names_gap gap]

/-! ## Strings -/

theorem stringExtent_le (chars : List Char) : (stringExtent chars).1 ≤ chars.length := by
  fun_induction stringExtent chars with
  | case1 rest later ih => exact Nat.add_le_add_right ih 2
  | case2 => exact Nat.le_add_left 1 _
  | case3 => exact Nat.le_refl 0
  | case4 => exact Nat.zero_le _
  | case5 c rest quotes quote newline later ih => exact Nat.add_le_add_right ih 1

theorem stringExtent_gap (gap : Gap tail) (chars : List Char)
    (closed : (stringExtent chars).2 = true) : stringExtent (chars ++ tail) = stringExtent chars := by
  fun_induction stringExtent chars with
  | case1 rest later ih => simp only [cons_append, stringExtent, ih closed, later]
  | case2 rest single =>
    have quoteless : ∀ more, rest ++ tail ≠ '"' :: more := by
      intro more quoted
      cases rest with
      | nil => rcases gap.cases with rfl | ⟨d, more, rfl, rfl | rfl | rfl | rfl⟩ <;> cases quoted
      | cons d rest =>
        cases quoted
        exact single rest rfl
    rw [cons_append, stringExtent]
    exact quoteless
  | case3 | case4 => cases closed
  | case5 c rest quotes quote newline later ih =>
    rw [cons_append, stringExtent]
    · rw [ih closed]
    · exact fun _ isQuote _ => quote isQuote
    · exact quote
    · exact newline

/-! ## Signs -/

theorem sign?_single (single : ∀ e ∈ ['=', '^', '&', '|', '<', '>'], d ≠ e) : sign? c (d :: more) = sign? c [] := by
  simp only [forall_mem_cons, not_mem_nil, false_implies, implies_true, and_true] at single
  unfold sign?
  split <;> first | rfl | simp_all

theorem sign?_gap (gap : Gap tail) (c : Char) (rest : List Char) : sign? c (rest ++ tail) = sign? c rest := by
  cases rest with
  | cons d rest => rfl
  | nil =>
    rcases gap.cases with rfl | ⟨d, more, rfl, rfl | rfl | rfl | rfl⟩
    · rfl
    all_goals exact sign?_single (by simp)

theorem sign?_length (found : sign? c rest = some sign) : sign.text.length - 1 ≤ rest.length := by
  cases rest with
  | nil =>
    unfold sign? at found
    split at found <;> try contradiction
    all_goals cases found; decide
  | cons d rest =>
    have two : sign.text.length ≤ 2 := by cases sign <;> decide
    rw [length_cons]
    omega

/-! ## Words -/

def hasSuffix (rest : List Char) : Bool :=
  match rest.drop (rest.takeWhile isNameChar).length with
  | s :: _ => s == '#' || s == '$'
  | [] => false

def wordAt? (c : Char) (rest : List Char) : Option String :=
  if isNameStart c && !hasSuffix rest then some (String.ofList (c :: rest.takeWhile isNameChar)) else none

def keywordAt? (c : Char) (rest : List Char) : Option Keyword := (wordAt? c rest).bind Keyword.ofWord?

theorem hasSuffix_gap (gap : Gap tail) (rest : List Char) : hasSuffix (rest ++ tail) = hasSuffix rest := by
  unfold hasSuffix
  rw [names_gap gap, drop_append_of_le_length (length_takeWhile_le _ _)]
  cases rest.drop (rest.takeWhile isNameChar).length with
  | nil =>
    rcases gap.cases with rfl | ⟨d, more, rfl, rfl | rfl | rfl | rfl⟩
    all_goals rfl
  | cons s more => rfl

theorem hasSuffix_length (suffix : hasSuffix rest = true) : (rest.takeWhile isNameChar).length + 1 ≤ rest.length := by
  unfold hasSuffix at suffix
  split at suffix
  · next s more isAppend =>
    have := congrArg List.length isAppend
    rw [length_drop, length_cons] at this
    omega
  · cases suffix

theorem take_hasSuffix (suffix : hasSuffix rest = true) :
    ∃ s, (s = '#' ∨ s = '$') ∧
      rest.take ((rest.takeWhile isNameChar).length + 1) = rest.takeWhile isNameChar ++ [s] := by
  unfold hasSuffix at suffix
  split at suffix
  · next s more behind =>
    simp only [Bool.or_eq_true, beq_iff_eq] at suffix
    refine ⟨s, suffix, ?_⟩
    rw [take_add, take_length_takeWhile, behind]
    rfl
  · cases suffix

theorem nameStep_eq (pos : Nat) (c : Char) (rest : List Char) (line : LineState) :
    nameStep pos c rest line =
      let word := rest.takeWhile isNameChar
      let extent := if hasSuffix rest then word.length + 1 else word.length
      let chars := c :: rest.take extent
      let text := String.ofList chars
      let span := ⟨pos, pos + byteLength chars⟩
      if hasSuffix rest then Step.token extent line .ident text span
      else if fold text == "rem" then Step.skip (extent + lineLength (rest.drop extent)) line
      else if fold text == "remstart" then commentStep pos c rest line extent "remend".toList
      else wordStep extent (rest.drop extent) line text span := rfl

theorem nameStep_of_suffix (suffix : hasSuffix rest = true) (pos : Nat) (c : Char) (line : LineState) :
    let chars := c :: rest.take ((rest.takeWhile isNameChar).length + 1)
    nameStep pos c rest line = Step.token ((rest.takeWhile isNameChar).length + 1) line .ident
      (String.ofList chars) ⟨pos, pos + byteLength chars⟩ := by
  simp only [nameStep_eq, suffix, if_true]

theorem nameStep_of_word (plain : hasSuffix rest = false) (pos : Nat) (c : Char) (line : LineState) :
    let word := rest.takeWhile isNameChar
    let text := String.ofList (c :: word)
    nameStep pos c rest line =
      if fold text == "rem" then Step.skip (word.length + lineLength (rest.drop word.length)) line
      else if fold text == "remstart" then commentStep pos c rest line word.length "remend".toList
      else wordStep word.length (rest.drop word.length) line text ⟨pos, pos + byteLength (c :: word)⟩ := by
  simp only [nameStep_eq, plain, if_false, Bool.false_eq_true, take_length_takeWhile]

/-! ## What stands at a place -/

def beginsComment (c : Char) (rest : List Char) : Bool :=
  c == '\x60' || (c == '/' && (rest.head? == some '/' || rest.head? == some '*')) ||
    (wordAt? c rest).any fun word => fold word == "rem" || fold word == "remstart"

def joinsLines (c : Char) (rest : List Char) : Bool := c == '\\' && restOfLineBlank rest

def LineState.openedBy (line : LineState) : Option LineOpener → LineState
  | none => line
  | some opener => { line with opener := some opener }

/-- What stands at a place is read the same in every line and before every gap. -/
inductive StandsAlone (c : Char) (rest : List Char) : Prop
  | blank (is : isBlank c = true)
  | colon (is : c = ':')
  | token (extent : Nat) (kind : TokenKind) (text : String) (opener : Option LineOpener)
      (inside : extent ≤ rest.length)
      (isElse : kind = .keyword .kwElse → keywordAt? c rest = some .kwElse)
      (opens : opener ≠ none → keywordAt? c rest = some .kwIf ∨ keywordAt? c rest = some .kwElseIf)
      (read : ∀ pos tail line, Gap tail →
        scanStep pos c (rest ++ tail) line = Step.token extent (line.openedBy opener) kind text
          ⟨pos, pos + byteLength (c :: rest.take extent)⟩)

def wordKind : Option Keyword → TokenKind
  | none => .ident
  | some keyword =>
      match keyword.operator? with
      | some sign => .punct sign
      | none => .keyword keyword

def wordOpener : Option Keyword → Option LineOpener
  | some .kwIf => some .ifWord
  | some .kwElseIf => some .elseIfWord
  | _ => none

theorem wordStep_token (notThen : Keyword.ofWord? word ≠ some .kwThen) (extent : Nat) (after : List Char)
    (line : LineState) (span : Span) :
    wordStep extent after line word span =
      Step.token extent (line.openedBy (wordOpener (Keyword.ofWord? word))) (wordKind (Keyword.ofWord? word)) word
        span := by
  unfold wordStep
  revert notThen
  cases Keyword.ofWord? word with
  | none => exact fun _ => rfl
  | some keyword =>
    intro notThen
    cases keyword with
    | kwThen => exact absurd rfl notThen
    | _ => rfl

theorem wordKind_else (is : wordKind keyword = .keyword .kwElse) : keyword = some .kwElse := by
  cases keyword with
  | none => cases is
  | some keyword => cases keyword <;> first | rfl | cases is

theorem wordOpener_some (is : wordOpener keyword ≠ none) : keyword = some .kwIf ∨ keyword = some .kwElseIf := by
  unfold wordOpener at is
  split at is
  · exact .inl rfl
  · exact .inr rfl
  · exact absurd rfl is

theorem isNameChar_ne (name : isNameChar c = true) (other : isNameChar d = false) : (c == d) = false := by
  rw [beq_eq_false_iff_ne]
  rintro rfl
  rw [name] at other
  cases other

theorem isNameChar_of_isNameStart (name : isNameStart c = true) : isNameChar c = true :=
  Bool.or_eq_true_iff.mpr (.inl name)

theorem isDigit_of_isNameStart (name : isNameStart c = true) : isDigit c = false := by
  rw [Bool.eq_false_iff]
  intro digit
  simp only [isNameStart, isDigit, Bool.or_eq_true, Bool.and_eq_true, decide_eq_true_eq, beq_iff_eq, Char.le_def,
    UInt32.le_iff_toNat_le] at name digit
  rcases name with (letter | letter) | rfl
  · exact absurd (Nat.le_trans letter.1 digit.2) (by decide)
  · exact absurd (Nat.le_trans letter.1 digit.2) (by decide)
  · exact absurd digit.2 (by decide)

theorem scanStep_of_isNameChar (name : isNameChar c = true) (pos : Nat) (rest : List Char) (line : LineState) :
    scanStep pos c rest line = if isDigit c then numberStep pos c rest line else nameStep pos c rest line := by
  have ne {d : Char} (other : isNameChar d = false) := isNameChar_ne name other
  simp only [scanStep, isBlank, ne (d := '\n') (by decide), ne (d := ' ') (by decide), ne (d := '\t') (by decide),
    ne (d := '\r') (by decide), ne (d := '\\') (by decide), ne (d := '\x60') (by decide), ne (d := '/') (by decide),
    ne (d := ':') (by decide), ne (d := '"') (by decide), ne (d := '.') (by decide), Bool.or_false, Bool.false_and,
    Bool.false_eq_true, if_false]
  split
  · rfl
  · next noDigit => exact if_pos ((Bool.or_eq_true_iff.mp name).resolve_right noDigit)

theorem scanStep_of_nameStart (name : isNameStart c = true) (pos : Nat) (rest : List Char)
    (line : LineState) : scanStep pos c rest line = nameStep pos c rest line := by
  rw [scanStep_of_isNameChar (isNameChar_of_isNameStart name), isDigit_of_isNameStart name]
  rfl

theorem scanStep_word (c : Char) (word : List Char) (plain : isNameStart c = true ∧ word.takeWhile isNameChar = word ∧
      fold (String.ofList (c :: word)) ≠ "rem" ∧ fold (String.ofList (c :: word)) ≠ "remstart")
    (gap : Gap tail) (pos : Nat) (line : LineState) : scanStep pos c (word ++ tail) line =
      wordStep word.length tail line (String.ofList (c :: word)) ⟨pos, pos + byteLength (c :: word)⟩ := by
  obtain ⟨name, letters, noRem, noRemStart⟩ := plain
  have noSuffix : hasSuffix (word ++ tail) = false := by rw [hasSuffix_gap gap, hasSuffix, letters, drop_length]
  rw [scanStep_of_nameStart name, nameStep_of_word noSuffix, names_gap gap, letters, beq_false_of_ne noRem,
    beq_false_of_ne noRemStart, drop_left]
  rfl

theorem standsAlone_name (name : isNameStart c = true)
    (comment : beginsComment c rest = false) (notThen : keywordAt? c rest ≠ some .kwThen) : StandsAlone c rest := by
  cases suffix : hasSuffix rest with
  | true =>
    have inside := hasSuffix_length suffix
    refine .token _ .ident (String.ofList (c :: rest.take ((rest.takeWhile isNameChar).length + 1))) none inside nofun
      nofun fun pos tail line gap => ?_
    rw [scanStep_of_nameStart name, nameStep_of_suffix (by rwa [hasSuffix_gap gap]), names_gap gap,
      take_append_of_le_length inside]
    rfl
  | false =>
    have word : wordAt? c rest = some (String.ofList (c :: rest.takeWhile isNameChar)) := by
      simp only [wordAt?, name, suffix, Bool.not_false, Bool.and_true, if_true]
    have keyword : keywordAt? c rest = Keyword.ofWord? (String.ofList (c :: rest.takeWhile isNameChar)) := by
      rw [keywordAt?, word, Option.bind_some]
    simp only [beginsComment, word, Option.any_some, Bool.or_eq_false_iff] at comment
    refine .token (rest.takeWhile isNameChar).length (wordKind (keywordAt? c rest))
      (String.ofList (c :: rest.takeWhile isNameChar)) (wordOpener (keywordAt? c rest)) (length_takeWhile_le isNameChar rest)
      wordKind_else wordOpener_some
      fun pos tail line gap => ?_
    rw [keyword] at notThen ⊢
    rw [scanStep_of_nameStart name, nameStep_of_word (by rwa [hasSuffix_gap gap]), names_gap gap, comment.2.1,
      comment.2.2, take_length_takeWhile,
      ← wordStep_token notThen _ ((rest ++ tail).drop (rest.takeWhile isNameChar).length)]
    rfl

theorem head?_gap (gap : Gap tail) (rest : List Char) (visible : isBlank d = false)
    (same : d ≠ '\n') : ((rest ++ tail).head? == some d) = (rest.head? == some d) := by
  cases rest with
  | cons e rest => rfl
  | nil =>
    have other : ∀ e ∈ tail.head?, e ≠ d := by
      rintro e first rfl
      rcases gap e first with blank | newline
      · rw [blank] at visible
        cases visible
      · exact same newline
    cases tail with
    | nil => rfl
    | cons e tail => simpa using other e rfl

theorem startsWithDigit_gap (gap : Gap tail) (rest : List Char) :
    startsWithDigit (rest ++ tail) = startsWithDigit rest := by
  cases rest with
  | cons d rest => rfl
  | nil =>
    rcases gap.cases with rfl | ⟨d, more, rfl, rfl | rfl | rfl | rfl⟩
    all_goals rfl

/-- Neither a gap nor a comment nor a colon begins here. -/
structure IsVisible (c : Char) (rest : List Char) : Prop where
  newline : (c == '\n') = false
  blank : isBlank c = false
  join : (c == '\\') = false
  mark : (c == '\x60') = false
  line : (c == '/' && rest.head? == some '/') = false
  block : (c == '/' && rest.head? == some '*') = false
  colon : (c == ':') = false

variable {line : LineState}

namespace IsVisible

variable (visible : IsVisible c rest)
include visible

theorem gap (gap : Gap tail) : IsVisible c (rest ++ tail) where
  newline := visible.newline
  blank := visible.blank
  join := visible.join
  mark := visible.mark
  line := by rw [head?_gap gap rest (by decide) (by decide), visible.line]
  block := by rw [head?_gap gap rest (by decide) (by decide), visible.block]
  colon := visible.colon

theorem scanStep_eq (pos : Nat) (line : LineState) :
    scanStep pos c rest line =
      if c == '"' then stringStep pos c rest line
      else if isDigit c || (c == '.' && startsWithDigit rest) then numberStep pos c rest line
      else if isNameStart c then nameStep pos c rest line
      else signStep pos c rest line := by
  simp only [scanStep, visible.newline, visible.blank, visible.join, visible.mark, visible.line, visible.block,
    visible.colon, Bool.false_and, Bool.false_eq_true, if_false]

theorem standsAlone_string (quote : (c == '"') = true)
    (clean : (scanStep 0 c rest line).faults = []) : StandsAlone c rest := by
  have closed : (stringExtent rest).2 = true := by
    rw [visible.scanStep_eq, if_pos quote, stringStep] at clean
    cases closed : (stringExtent rest).2 with
    | true => rfl
    | false => simp [closed, Step.fault] at clean
  have inside := stringExtent_le rest
  let text := String.ofList (undoubled (rest.take (stringExtent rest).1).dropLast)
  refine .token (stringExtent rest).1 (.literal (.str text)) text none inside nofun nofun fun pos tail line gap => ?_
  rw [(visible.gap gap).scanStep_eq, if_pos quote]
  simp only [stringStep, stringExtent_gap gap rest closed, closed, if_true, take_append_of_le_length inside]
  rfl

theorem standsAlone_number (quote : (c == '"') = false)
    (number : (isDigit c || (c == '.' && startsWithDigit rest)) = true)
    (clean : (scanStep 0 c rest line).faults = []) : StandsAlone c rest := by
  have inside : (scanNumber (c :: rest)).length - 1 ≤ rest.length :=
    Nat.sub_le_of_le_add (scanNumber_length (c :: rest))
  cases found : (scanNumber (c :: rest)).result with
  | error fault =>
    simp [visible.scanStep_eq, quote, number, numberStep, found, Step.fault] at clean
  | ok value =>
    refine .token ((scanNumber (c :: rest)).length - 1) (.literal value)
      (String.ofList (c :: rest.take ((scanNumber (c :: rest)).length - 1))) none inside nofun nofun
      fun pos tail line gap => ?_
    have same := scanNumber_gap gap c rest
    rw [cons_append] at same
    simp only [(visible.gap gap).scanStep_eq, startsWithDigit_gap gap, quote, number, Bool.false_eq_true, if_false,
      if_true, numberStep, same, found, take_append_of_le_length inside]
    rfl

theorem standsAlone_sign (quote : (c == '"') = false)
    (number : (isDigit c || (c == '.' && startsWithDigit rest)) = false) (name : isNameStart c = false)
    (clean : (scanStep 0 c rest line).faults = []) : StandsAlone c rest := by
  cases found : sign? c rest with
  | none => simp [visible.scanStep_eq, quote, number, name, signStep, found, Step.fault] at clean
  | some sign =>
    have inside := sign?_length found
    refine .token (sign.text.length - 1) (.punct sign) (String.ofList (c :: rest.take (sign.text.length - 1))) none
      inside nofun nofun fun pos tail line gap => ?_
    simp only [(visible.gap gap).scanStep_eq, startsWithDigit_gap gap, quote, number, name, Bool.false_eq_true,
      if_false, signStep, sign?_gap gap, found, take_append_of_le_length inside]
    rfl

end IsVisible

/-- What is read without a fault stands alone, but for newlines, joined lines, comments and
`then`, which the scanner reads with a view to what follows. -/
theorem standsAlone (newline : c ≠ '\n') (join : joinsLines c rest = false) (comment : beginsComment c rest = false)
    (notThen : keywordAt? c rest ≠ some .kwThen) (clean : (scanStep 0 c rest line).faults = []) :
    StandsAlone c rest := by
  by_cases blank : isBlank c = true
  · exact .blank blank
  by_cases colon : c = ':'
  · exact .colon colon
  by_cases name : isNameStart c = true
  · exact standsAlone_name name comment notThen
  have backslash : c ≠ '\\' := by
    rintro rfl
    have goesOn : restOfLineBlank rest = false := join
    rw [scanStep, goesOn] at clean
    cases clean
  simp only [beginsComment, Bool.or_eq_false_iff, Bool.and_or_distrib_left] at comment
  have visible : IsVisible c rest :=
    ⟨beq_eq_false_iff_ne.mpr newline, Bool.eq_false_iff.mpr blank, beq_eq_false_iff_ne.mpr backslash, comment.1.1,
      comment.1.2.1, comment.1.2.2, beq_eq_false_iff_ne.mpr colon⟩
  cases quote : c == '"' with
  | true => exact visible.standsAlone_string quote clean
  | false =>
    cases number : isDigit c || (c == '.' && startsWithDigit rest) with
    | true => exact visible.standsAlone_number quote number clean
    | false => exact visible.standsAlone_sign quote number (Bool.eq_false_iff.mpr name) clean

end BasicCompiler
