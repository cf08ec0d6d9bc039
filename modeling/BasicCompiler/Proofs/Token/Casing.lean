/-
# Scanning ignores case

A text in small letters is scanned like the text itself: the same stretches of it are taken, at the same places and
with the same faults, and the tokens differ in the case of their texts alone (`ofText_fold`).
-/
import BasicCompiler.Proofs.Token.Outline

namespace BasicCompiler

open List

/-! ## Characters -/

def capital (k : Nat) : Char := Char.ofNat (65 + k)

theorem toLower_invariant (f : Char → α)
    (same : ∀ k < 26, f (capital k).toLower = f (capital k)) (c : Char) : f c.toLower = f c := by
  by_cases isCapital : 65 ≤ c.toNat ∧ c.toNat ≤ 90
  · have named : capital (c.toNat - 65) = c := by
      rw [capital, Nat.add_sub_cancel' isCapital.1, Char.ofNat_toNat]
    have inRange : c.toNat - 65 < 26 := by omega
    have sameHere := same (c.toNat - 65) inRange
    rwa [named] at sameHere
  · have kept : c.toLower = c := dif_neg isCapital
    rw [kept]

section

variable (c : Char)

theorem isDigit_toLower : isDigit c.toLower = isDigit c := toLower_invariant _ (by decide) c

theorem isHexDigit_toLower : isHexDigit c.toLower = isHexDigit c := toLower_invariant _ (by decide) c

theorem isBinaryDigit_toLower : isBinaryDigit c.toLower = isBinaryDigit c := toLower_invariant _ (by decide) c

theorem isBlank_toLower : isBlank c.toLower = isBlank c := toLower_invariant _ (by decide) c

theorem isNameStart_toLower : isNameStart c.toLower = isNameStart c := toLower_invariant _ (by decide) c

theorem isNameChar_toLower : isNameChar c.toLower = isNameChar c := toLower_invariant _ (by decide) c

theorem digitValue_toLower : digitValue c.toLower = digitValue c := toLower_invariant _ (by decide) c

theorem utf8Size_toLower : c.toLower.utf8Size = c.utf8Size := toLower_invariant Char.utf8Size (by decide) c

theorem toLower_toLower : c.toLower.toLower = c.toLower := toLower_invariant Char.toLower (by decide) c

end

def IsUncased (d : Char) : Prop := ∀ k < 26, (capital k).toLower ≠ d ∧ capital k ≠ d

instance (d : Char) : Decidable (IsUncased d) := by
  unfold IsUncased
  infer_instance

theorem toLower_eq_iff (uncased : IsUncased d) (c : Char) : c.toLower = d ↔ c = d := by
  have same := toLower_invariant (fun c => decide (c = d)) (fun k small => by simp [uncased k small]) c
  simpa using same

theorem toLower_beq (uncased : IsUncased d) (c : Char) : (c.toLower == d) = (c == d) := by
  rw [Bool.eq_iff_iff, beq_iff_eq, beq_iff_eq, toLower_eq_iff uncased]

theorem toLower_mark
    (pair : ∀ k < 26, ((capital k).toLower == small || (capital k).toLower == large) = (capital k == small || capital k == large))
    (c : Char) : (c.toLower == small || c.toLower == large) = (c == small || c == large) :=
  toLower_invariant (fun c => c == small || c == large) pair c

theorem toLower_of_not_isNameStart (other : isNameStart c = false) : c.toLower = c := by
  have kept := toLower_invariant (fun c => isNameStart c || c.toLower == c) (by decide) c
  have small : c.toLower.toLower = c.toLower := toLower_toLower c
  simp only [isNameStart_toLower, other, small, beq_self_eq_true, Bool.false_or] at kept
  exact beq_iff_eq.mp kept.symm

/-! ## Runs of characters -/

def lowered (chars : List Char) : List Char := chars.map Char.toLower

theorem fold_ofList (chars : List Char) : fold (String.ofList chars) = String.ofList (lowered chars) := by
  rw [fold, String.toList_ofList, lowered]

theorem lowered_lowered (chars : List Char) : lowered (lowered chars) = lowered chars := by
  rw [lowered, lowered, map_map]
  exact map_congr_left fun c _ => toLower_toLower c

theorem fold_fold (text : String) : fold (fold text) = fold text := by
  conv => lhs; arg 1; rw [fold]
  rw [fold_ofList]
  exact congrArg String.ofList (lowered_lowered _)

theorem byteLength_lowered (chars : List Char) : byteLength (lowered chars) = byteLength chars := by
  induction chars with
  | nil => rfl
  | cons c rest ih =>
    rw [lowered, map_cons, byteLength, byteLength, utf8Size_toLower]
    exact congrArg _ ih

theorem takeWhile_lowered (same : ∀ c, p c.toLower = p c) (chars : List Char) :
    (lowered chars).takeWhile p = lowered (chars.takeWhile p) := by
  rw [lowered, takeWhile_map]
  exact congrArg _ (congrArg (List.takeWhile · chars) (funext same))

theorem dropWhile_lowered (same : ∀ c, p c.toLower = p c) (chars : List Char) :
    (lowered chars).dropWhile p = lowered (chars.dropWhile p) := by
  rw [lowered, dropWhile_map]
  exact congrArg _ (congrArg (List.dropWhile · chars) (funext same))

@[simp] theorem lowered_nil : lowered [] = [] := rfl

@[simp] theorem lowered_cons (c : Char) (rest : List Char) : lowered (c :: rest) = c.toLower :: lowered rest := rfl

@[simp] theorem length_lowered (chars : List Char) : (lowered chars).length = chars.length := length_map _

@[simp] theorem take_lowered (n : Nat) (chars : List Char) : (lowered chars).take n = lowered (chars.take n) :=
  map_take.symm

@[simp] theorem drop_lowered (n : Nat) (chars : List Char) : (lowered chars).drop n = lowered (chars.drop n) :=
  map_drop.symm

@[simp] theorem isEmpty_lowered (chars : List Char) : (lowered chars).isEmpty = chars.isEmpty := isEmpty_map

theorem digitsValue_lowered (base : Nat) (chars : List Char) :
    digitsValue base (lowered chars) = digitsValue base chars := by
  rw [digitsValue, lowered, foldl_map]
  simp only [digitValue_toLower]
  rfl

theorem lineLength_lowered (chars : List Char) : lineLength (lowered chars) = lineLength chars := by
  have same (c : Char) : (c.toLower != '\n') = (c != '\n') := by rw [bne, bne, toLower_beq (by decide)]
  rw [lineLength, takeWhile_lowered same, length_lowered, lineLength]

theorem contains_newline_lowered (chars : List Char) : (lowered chars).contains '\n' = chars.contains '\n' := by
  induction chars with
  | nil => rfl
  | cons c rest ih =>
    rw [lowered_cons, contains_cons, contains_cons, ih, BEq.comm, toLower_beq (by decide), BEq.comm]

theorem indexOfMark?_lowered (mark chars : List Char) : indexOfMark? mark (lowered chars) = indexOfMark? mark chars := by
  induction chars with
  | nil => rfl
  | cons c rest ih =>
    have same : ((lowered (c :: rest)).take mark.length).map Char.toLower =
        ((c :: rest).take mark.length).map Char.toLower := by
      rw [take_lowered]
      exact lowered_lowered _
    rw [lowered_cons] at same ⊢
    rw [indexOfMark?, indexOfMark?, same, ih]

/-! ## Numbers -/

theorem fractionDigits_lowered (chars : List Char) :
    fractionDigits (lowered chars) = lowered (fractionDigits chars) := by
  match chars with
  | [] => rfl
  | c :: rest =>
    by_cases point : c = '.'
    · subst point
      exact takeWhile_lowered isDigit_toLower rest
    · have point' : c.toLower ≠ '.' := by rwa [ne_eq, toLower_eq_iff (by decide)]
      simp [fractionDigits, point, point']

theorem exponentPart_lowered (chars : List Char) : exponentPart (lowered chars) = exponentPart chars := by
  match chars with
  | [] => rfl
  | [mark] => simp [exponentPart]
  | mark :: s :: digits =>
    have run : (if s = '-' ∨ s = '+' then lowered digits else s.toLower :: lowered digits).takeWhile isDigit =
        lowered ((if s = '-' ∨ s = '+' then digits else s :: digits).takeWhile isDigit) := by
      split
      · exact takeWhile_lowered isDigit_toLower digits
      · exact takeWhile_lowered isDigit_toLower (s :: digits)
    rw [lowered_cons, lowered_cons, exponentPart_cons, exponentPart_cons, toLower_mark (by decide)]
    simp only [toLower_eq_iff (show IsUncased '-' by decide), toLower_eq_iff (show IsUncased '+' by decide), run,
      isEmpty_lowered, length_lowered, digitsValue_lowered]

def Numeral.lowered : Numeral → Numeral
  | .decimal whole fraction exponent => .decimal (whole.map Char.toLower) (fraction.map Char.toLower) exponent
  | .radix base digits => .radix base (digits.map Char.toLower)

namespace Numeral

theorem isFraction_lowered (n : Numeral) : n.lowered.isFraction = n.isFraction := by
  cases n with
  | decimal whole fraction exponent => simp only [lowered, isFraction, isEmpty_map]
  | radix base digits => rfl

theorem isDecimal_lowered (n : Numeral) : n.lowered.isDecimal = n.isDecimal := by cases n <;> rfl

theorem hasDigits_lowered (n : Numeral) : n.lowered.hasDigits = n.hasDigits := by
  cases n with
  | decimal whole fraction exponent => rfl
  | radix base digits => simp only [lowered, hasDigits, isEmpty_map]

theorem toNat_lowered (n : Numeral) : n.lowered.toNat = n.toNat := by
  cases n <;> exact digitsValue_lowered _ _

theorem toDouble_lowered (n : Numeral) : n.lowered.toDouble = n.toDouble := by
  cases n with
  | decimal whole fraction exponent =>
    simp only [lowered, toDouble, ← map_append, length_map]
    exact congrArg (Double.ofScientific · _) (digitsValue_lowered 10 (whole ++ fraction))
  | radix base digits => exact congrArg (Double.ofScientific · 0) (digitsValue_lowered base digits)

end Numeral

theorem decimalNumeral_lowered (chars : List Char) :
    decimalNumeral (lowered chars) = ((decimalNumeral chars).1.lowered, (decimalNumeral chars).2) := by
  have whole := takeWhile_lowered isDigit_toLower chars
  have mantissa : mantissaLength (lowered chars) = mantissaLength chars := by
    simp only [mantissaLength, whole, length_lowered, drop_lowered, fractionDigits_lowered, isEmpty_lowered]
  rw [decimalNumeral_eq, decimalNumeral_eq]
  simp only [whole, mantissa, length_lowered, drop_lowered, fractionDigits_lowered, exponentPart_lowered]
  cases exponentPart (chars.drop (mantissaLength chars)) <;> rfl

theorem numeral_lowered (chars : List Char) :
    numeral (lowered chars) = ((numeral chars).1.lowered, (numeral chars).2) := by
  match chars with
  | [] => rfl
  | [c] =>
    have alone (c : Char) : numeral [c] = decimalNumeral [c] := by simp [numeral]
    rw [alone, ← decimalNumeral_lowered]
    exact alone _
  | c :: mark :: rest =>
    rw [numeral_cons, lowered_cons, lowered_cons, numeral_cons, toLower_mark (by decide), toLower_mark (by decide),
      takeWhile_lowered isHexDigit_toLower, takeWhile_lowered isBinaryDigit_toLower, isEmpty_lowered]
    simp only [toLower_eq_iff (show IsUncased '0' by decide)]
    split
    · rw [length_lowered]
      rfl
    · split
      · rw [length_lowered]
        rfl
      · exact decimalNumeral_lowered (c :: mark :: rest)

theorem numberSuffix?_lowered (n : Numeral) (chars : List Char) :
    numberSuffix? n.lowered (lowered chars) = numberSuffix? n chars := by
  cases chars with
  | nil => rfl
  | cons c rest =>
    rw [lowered_cons, numberSuffix?, numberSuffix?, n.isFraction_lowered, n.isDecimal_lowered,
      toLower_mark (by decide), toLower_mark (by decide), toLower_mark (by decide)]

theorem numberLiteral_lowered (n : Numeral) (suffix : Option NumberSuffix) :
    numberLiteral n.lowered suffix = numberLiteral n suffix := by
  have integer (make : UInt64 → Literal) : integerLiteral n.lowered make = integerLiteral n make := by
    rw [integerLiteral, integerLiteral, n.toNat_lowered]
  cases suffix with
  | none => rw [numberLiteral, numberLiteral, n.isFraction_lowered, n.toDouble_lowered, integer]
  | some suffix =>
    cases suffix with
    | unsigned => exact integer .uint
    | float | double => rw [numberLiteral, numberLiteral, n.toDouble_lowered]

theorem scanNumber_lowered (chars : List Char) : scanNumber (lowered chars) = scanNumber chars := by
  have length : suffixedLength (lowered chars) = suffixedLength chars := by
    simp only [suffixedLength, numeral_lowered, drop_lowered, numberSuffix?_lowered]
  rw [scanNumber_eq, scanNumber_eq]
  simp only [length, numeral_lowered, drop_lowered, numberSuffix?_lowered, takeWhile_lowered isNameChar_toLower,
    isEmpty_lowered, length_lowered, Numeral.hasDigits_lowered, numberLiteral_lowered]

/-! ## Strings, signs and the rest of a line -/

theorem quote_of_lowered (quoted : lowered chars = '"' :: more) : ∃ rest, chars = '"' :: rest := by
  cases chars with
  | nil => cases quoted
  | cons d rest =>
    have quote := (toLower_eq_iff (show IsUncased '"' by decide) d).mp (cons.inj quoted).1
    exact ⟨rest, by rw [quote]⟩

theorem stringExtent_lowered (chars : List Char) : stringExtent (lowered chars) = stringExtent chars := by
  fun_induction stringExtent chars with
  | case1 rest later ih =>
    change stringExtent ('"' :: '"' :: lowered rest) = _
    rw [stringExtent, ih]
  | case2 rest single =>
    change stringExtent ('"' :: lowered rest) = _
    rw [stringExtent]
    intro more quoted
    obtain ⟨rest', same⟩ := quote_of_lowered quoted
    exact single rest' same
  | case3 | case4 => rfl
  | case5 c rest quotes quote newline later ih =>
    have quote' : c.toLower ≠ '"' := by rwa [ne_eq, toLower_eq_iff (by decide)]
    have newline' : c.toLower ≠ '\n' := by rwa [ne_eq, toLower_eq_iff (by decide)]
    rw [lowered_cons, stringExtent]
    · rw [ih]
    · exact fun _ isQuote _ => quote' isQuote
    · exact quote'
    · exact newline'

theorem undoubled_lowered (chars : List Char) : undoubled (lowered chars) = lowered (undoubled chars) := by
  fun_induction undoubled chars with
  | case1 rest ih => exact congrArg ('"' :: ·) ih
  | case2 c rest single ih =>
    rw [lowered_cons, undoubled, ih, lowered_cons]
    intro more quote quoted
    obtain ⟨rest', same⟩ := quote_of_lowered quoted
    exact single rest' ((toLower_eq_iff (by decide) c).mp quote) same
  | case3 => rfl

theorem sign?_of_isNameStart (name : isNameStart c = true) (rest : List Char) : sign? c rest = none := by
  unfold sign?
  split <;> first | rfl | exact absurd name (by decide)

theorem isNameStart_capital : ∀ k < 26, isNameStart (capital k).toLower = true ∧ isNameStart (capital k) = true := by
  decide

theorem sign?_before_letter (letter : isNameStart d = true) : sign? c (d :: more) = sign? c [] := by
  refine sign?_single fun e mark same => ?_
  subst same
  simp only [mem_cons, not_mem_nil, or_false] at mark
  rcases mark with rfl | rfl | rfl | rfl | rfl | rfl
  all_goals exact absurd letter (by decide)

theorem sign?_lowered (c : Char) (rest : List Char) : sign? c.toLower (lowered rest) = sign? c rest := by
  have behind : sign? c (lowered rest) = sign? c rest := by
    cases rest with
    | nil => rfl
    | cons d more =>
      refine toLower_invariant (fun d => sign? c (d :: more)) (fun k small => ?_) d
      obtain ⟨lower, upper⟩ := isNameStart_capital k small
      rw [sign?_before_letter lower, sign?_before_letter upper]
  rw [← behind]
  refine toLower_invariant (fun c => sign? c (lowered rest)) (fun k small => ?_) c
  obtain ⟨lower, upper⟩ := isNameStart_capital k small
  rw [sign?_of_isNameStart lower, sign?_of_isNameStart upper]

theorem head?_lowered (uncased : IsUncased d) (chars : List Char) :
    ((lowered chars).head? == some d) = (chars.head? == some d) := by
  cases chars with
  | nil => rfl
  | cons c rest => exact toLower_beq uncased c

theorem restOfLineBlank_lowered (chars : List Char) : restOfLineBlank (lowered chars) = restOfLineBlank chars := by
  have blanks := dropWhile_lowered isBlank_toLower chars
  cases behind : chars.dropWhile isBlank with
  | nil =>
    rw [behind] at blanks
    simp only [restOfLineBlank, behind, blanks, lowered_nil]
  | cons d more =>
    rw [behind, lowered_cons] at blanks
    rw [restOfLineBlank_cons behind, restOfLineBlank_cons blanks, ← lowered_cons,
      takeWhile_lowered isNameChar_toLower, ← fold_ofList, fold_fold, head?_lowered (by decide),
      toLower_beq (by decide), toLower_beq (by decide), toLower_beq (by decide)]

theorem startsWithDigit_lowered (chars : List Char) : startsWithDigit (lowered chars) = startsWithDigit chars := by
  cases chars with
  | nil => rfl
  | cons c rest => exact isDigit_toLower c

theorem hasSuffix_lowered (rest : List Char) : hasSuffix (lowered rest) = hasSuffix rest := by
  rw [hasSuffix, takeWhile_lowered isNameChar_toLower, length_lowered, drop_lowered, hasSuffix]
  cases rest.drop (rest.takeWhile isNameChar).length with
  | nil => rfl
  | cons s more => simp only [lowered_cons, toLower_beq (show IsUncased '#' by decide),
      toLower_beq (show IsUncased '$' by decide)]

/-! ## Steps -/

def Literal.lowered : Literal → Literal
  | .str text => .str (fold text)
  | value => value

def TokenKind.lowered : TokenKind → TokenKind
  | .literal value => .literal value.lowered
  | kind => kind

def Token.lowered (t : Token) : Token := { t with kind := t.kind.lowered, text := fold t.text }

theorem Token.lowered_impliedEndIf (pos : Nat) : (impliedEndIf pos).lowered = impliedEndIf pos := by
  simp only [lowered, impliedEndIf, show fold "endif" = "endif" by decide]
  rfl

theorem Token.lowered_endOfInput (pos : Nat) : (endOfInput pos).lowered = endOfInput pos := by
  simp only [lowered, endOfInput, show fold "" = "" by decide]
  rfl

def Step.lowered (s : Step) : Step := { s with tokens := s.tokens.map Token.lowered }

namespace Step

theorem lowered_token (same : kind' = kind.lowered) (extent : Nat) (line : LineState) (text : String) (span : Span) :
    token extent line kind' (fold text) span = (token extent line kind text span).lowered := by
  subst same
  cases kind <;> rfl

theorem lowered_lineEnd (extent : Nat) (line : LineState) (pos : Nat) (faults : List (Spanned LexFault)) :
    (lineEnd extent line pos faults).lowered = lineEnd extent line pos faults := by
  simp only [lowered, lineEnd, map_replicate, Token.lowered_impliedEndIf]

theorem lowered_ite [Decidable c] {s t s' t' : Step} (yes : s' = s.lowered) (no : t' = t.lowered) :
    (if c then s' else t') = (if c then s else t).lowered := by
  split
  · exact yes
  · exact no

end Step

section Lowering

variable (pos : Nat) (c : Char) (rest : List Char) (line : LineState)

theorem commentStep_lowered (opening : Nat) (mark : List Char) :
    commentStep pos c.toLower (lowered rest) line opening mark =
      (commentStep pos c rest line opening mark).lowered := by
  have opened : byteLength (c.toLower :: lowered (rest.take opening)) = byteLength (c :: rest.take opening) :=
    byteLength_lowered (c :: rest.take opening)
  simp only [commentStep, drop_lowered, take_lowered, indexOfMark?_lowered, contains_newline_lowered, length_lowered,
    opened]
  exact Step.lowered_ite (Step.lowered_lineEnd _ _ _ _).symm rfl

theorem thenStep_lowered (extent : Nat) (after : List Char) (span : Span) :
    thenStep extent (lowered after) line span = (thenStep extent after line span).lowered := by
  simp only [thenStep, restOfLineBlank_lowered]
  cases line.opener with
  | none => rfl
  | some opener => exact Step.lowered_ite rfl rfl

theorem wordStep_lowered (extent : Nat) (after : List Char) (word : String) (span : Span) :
    wordStep extent (lowered after) line (fold word) span = (wordStep extent after line word span).lowered := by
  unfold wordStep
  rw [show Keyword.ofWord? (fold word) = Keyword.ofWord? word by rw [Keyword.ofWord?, fold_fold, Keyword.ofWord?]]
  split
  · exact Step.lowered_token (by rfl) _ _ _ _
  · exact thenStep_lowered _ _ _ _
  · exact Step.lowered_token (by rfl) _ _ _ _
  · exact Step.lowered_token (by rfl) _ _ _ _
  · split
    · exact Step.lowered_token (by rfl) _ _ _ _
    · exact Step.lowered_token (by rfl) _ _ _ _

theorem nameStep_lowered : nameStep pos c.toLower (lowered rest) line = (nameStep pos c rest line).lowered := by
  rw [nameStep_eq, nameStep_eq]
  simp only [takeWhile_lowered isNameChar_toLower, hasSuffix_lowered, length_lowered, take_lowered, drop_lowered,
    lineLength_lowered, ← lowered_cons, ← fold_ofList, fold_fold, byteLength_lowered]
  refine Step.lowered_ite (Step.lowered_token (by rfl) _ _ _ _) (Step.lowered_ite rfl (Step.lowered_ite ?_ ?_))
  · exact commentStep_lowered _ _ _ _ _ _
  · exact wordStep_lowered _ _ _ _ _

theorem numberLiteral_ok (number : numberLiteral n suffix = .ok value) : value.lowered = value := by
  have integer {make : UInt64 → Literal} (kept : ∀ i, (make i).lowered = make i)
      (number : integerLiteral n make = .ok value) : value.lowered = value := by
    unfold integerLiteral at number
    split at number
    · cases number
      exact kept _
    · cases number
  unfold numberLiteral at number
  split at number
  · exact integer (fun _ => rfl) number
  · cases number
    rfl
  · cases number
    rfl
  · split at number
    · cases number
      rfl
    · exact integer (fun _ => rfl) number

theorem scanNumber_ok (number : (scanNumber chars).result = .ok value) : value.lowered = value := by
  rw [scanNumber_eq] at number
  dsimp only at number
  split at number
  · exact numberLiteral_ok number
  · cases number

theorem numberStep_lowered : numberStep pos c.toLower (lowered rest) line = (numberStep pos c rest line).lowered := by
  simp only [numberStep, ← lowered_cons, scanNumber_lowered, take_lowered, byteLength_lowered, ← fold_ofList]
  cases number : (scanNumber (c :: rest)).result with
  | error e => rfl
  | ok value => exact Step.lowered_token (by rw [TokenKind.lowered, scanNumber_ok number]) _ _ _ _

theorem stringStep_lowered : stringStep pos c.toLower (lowered rest) line = (stringStep pos c rest line).lowered := by
  have dropped (chars : List Char) : (lowered chars).dropLast = lowered chars.dropLast := map_dropLast.symm
  simp only [stringStep, stringExtent_lowered, take_lowered, dropped, undoubled_lowered, ← lowered_cons,
    byteLength_lowered, ← fold_ofList]
  exact Step.lowered_ite (Step.lowered_token (by rfl) _ _ _ _) rfl

theorem colonStep_lowered : colonStep pos (lowered rest) line = (colonStep pos rest line).lowered := by
  rw [colonStep, colonStep, restOfLineBlank_lowered]
  refine Step.lowered_ite ?_ rfl
  exact Step.lowered_token (by rfl) 0 line ":" _

theorem signStep_lowered (other : isNameStart c = false) :
    signStep pos c.toLower (lowered rest) line = (signStep pos c rest line).lowered := by
  simp only [signStep, sign?_lowered, take_lowered, ← lowered_cons, byteLength_lowered, ← fold_ofList]
  cases sign? c rest with
  | none => simp only [toLower_of_not_isNameStart other]; rfl
  | some sign => exact Step.lowered_token (by rfl) _ _ _ _

/-- A step on a text in small letters takes the same characters, and gives the same tokens
with their texts in small letters. -/
theorem scanStep_lowered : scanStep pos c.toLower (lowered rest) line = (scanStep pos c rest line).lowered := by
  unfold scanStep
  simp only [toLower_beq (show IsUncased '\n' by decide), toLower_beq (show IsUncased '\\' by decide),
    toLower_beq (show IsUncased '\x60' by decide), toLower_beq (show IsUncased '/' by decide),
    toLower_beq (show IsUncased ':' by decide), toLower_beq (show IsUncased '"' by decide),
    toLower_beq (show IsUncased '.' by decide), head?_lowered (show IsUncased '/' by decide),
    head?_lowered (show IsUncased '*' by decide), isBlank_toLower, isDigit_toLower, isNameStart_toLower,
    restOfLineBlank_lowered, startsWithDigit_lowered, lineLength_lowered]
  refine Step.lowered_ite (Step.lowered_lineEnd _ _ _ _).symm ?_
  refine Step.lowered_ite rfl (Step.lowered_ite rfl (Step.lowered_ite rfl (Step.lowered_ite rfl ?_)))
  refine Step.lowered_ite (commentStep_lowered _ _ _ _ _ _) ?_
  refine Step.lowered_ite (colonStep_lowered _ _ _) ?_
  refine Step.lowered_ite (stringStep_lowered _ _ _ _) ?_
  refine Step.lowered_ite (numberStep_lowered _ _ _ _) ?_
  cases name : isNameStart c with
  | true => exact nameStep_lowered _ _ _ _
  | false => exact signStep_lowered _ _ _ _ name

end Lowering

/-! ## Streams -/

def Lexeme.lowered (l : Lexeme) : Lexeme := ⟨l.faults, l.token.lowered⟩

namespace TokenStream

def lowered (s : TokenStream) : TokenStream := ⟨s.lexemes.map Lexeme.lowered, s.eof.lowered⟩

theorem withFaults_lowered (faults : List (Spanned LexFault)) (tokens : List Token) :
    withFaults faults (tokens.map Token.lowered) = (withFaults faults tokens).map Lexeme.lowered := by
  cases tokens with
  | nil => rfl
  | cons t ts =>
    simp only [withFaults, map_cons, map_map]
    rfl

/-- Scanning a text in small letters finds the same faults, and the same tokens with their
texts in small letters. -/
theorem scanFrom_lowered (pos : Nat) (chars : List Char) (line : LineState) (faults : List (Spanned LexFault)) :
    scanFrom pos (BasicCompiler.lowered chars) line faults = (scanFrom pos chars line faults).lowered := by
  match chars with
  | [] =>
    have closing := withFaults_lowered faults (replicate line.openIfs (Token.impliedEndIf pos))
    rw [map_replicate, Token.lowered_impliedEndIf] at closing
    rw [BasicCompiler.lowered_nil, scanFrom]
    cases found : withFaults faults (replicate line.openIfs (Token.impliedEndIf pos)) with
    | nil => simp only [lowered, map_nil, Lexeme.lowered, Token.lowered_endOfInput]
    | cons l ls =>
      rw [found] at closing
      simp only [lowered, ← closing, Lexeme.lowered, Token.lowered_endOfInput]
  | c :: rest =>
    have taken (n : Nat) : byteLength (c.toLower :: BasicCompiler.lowered (rest.take n)) = byteLength (c :: rest.take n) :=
      byteLength_lowered (c :: rest.take n)
    have later (faults : List (Spanned LexFault)) := scanFrom_lowered
      (pos + byteLength (c :: rest.take (scanStep pos c rest line).extent))
      (rest.drop (scanStep pos c rest line).extent) (scanStep pos c rest line).line faults
    rw [lowered_cons, scanFrom, scanFrom, scanStep_lowered]
    simp only [Step.lowered, take_lowered, drop_lowered, taken]
    cases found : (scanStep pos c rest line).tokens with
    | nil => exact later _
    | cons t ts =>
      simp only [map_cons, later]
      rw [← map_cons, withFaults_lowered]
      simp only [prepend, lowered, map_append]
termination_by chars.length
decreasing_by
  simp only [length_drop, length_cons]
  omega

theorem ofText_fold (text : String) : ofText (fold text) = (ofText text).lowered := by
  rw [ofText, fold, String.toList_ofList]
  exact scanFrom_lowered _ _ _ _

end TokenStream

end BasicCompiler
