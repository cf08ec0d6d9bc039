/-
# Integers are read exactly or refused

An integer is written in one of three bases, with any number of leading zeros and maybe with the suffix of the unsigned
ones. If neither a name nor a fraction can go on behind it, it is one token with the number that its digits denote, or
one fault if this is too large.
-/
import BasicCompiler.Proofs.Token.Gaps
import Mathlib.Data.List.Induction
import Mathlib.Data.Nat.Digits.Defs

namespace BasicCompiler

open List TokenStream

/-! ## Integers as they are written -/

inductive Radix where
  | decimal
  | hexadecimal
  | binary

namespace Radix

def base : Radix → Nat
  | decimal => 10
  | hexadecimal => 16
  | binary => 2

def isDigit : Radix → Char → Bool
  | decimal => BasicCompiler.isDigit
  | hexadecimal => isHexDigit
  | binary => isBinaryDigit

/-- What may stand before the digits. -/
def marks : Radix → List (List Char)
  | decimal => [[]]
  | hexadecimal => [['0', 'x'], ['0', 'X']]
  | binary => [['0', 'b'], ['0', 'B']]

def numeral (r : Radix) (digits : List Char) : Numeral :=
  match r with
  | decimal => .decimal digits [] none
  | hexadecimal => .radix 16 digits
  | binary => .radix 2 digits

theorem not_isFraction (r : Radix) (digits : List Char) : (r.numeral digits).isFraction = false := by
  cases r <;> rfl

theorem isNameChar_of_isDigit (r : Radix) (digit : r.isDigit c = true) : isNameChar c = true := by
  have hex (digit : isHexDigit c = true) : isNameChar c = true := by
    have small : 'f'.val.toNat = 102 ∧ 'z'.val.toNat = 122 := ⟨rfl, rfl⟩
    have capital : 'F'.val.toNat = 70 ∧ 'Z'.val.toNat = 90 := ⟨rfl, rfl⟩
    simp only [isHexDigit, isNameChar, isNameStart, BasicCompiler.isDigit, Bool.or_eq_true, Bool.and_eq_true,
      decide_eq_true_eq, beq_iff_eq, Char.le_def, UInt32.le_iff_toNat_le] at *
    omega
  cases r with
  | decimal => exact Bool.or_eq_true_iff.mpr (.inr digit)
  | hexadecimal => exact hex digit
  | binary =>
    rcases Bool.or_eq_true_iff.mp digit with is | is <;> rw [beq_iff_eq.mp is] <;> rfl

end Radix

structure WrittenInteger where
  radix : Radix
  mark : List Char
  digits : List Char
  suffix : List Char
  isMark : mark ∈ radix.marks
  nonempty : digits ≠ []
  all : ∀ d ∈ digits, radix.isDigit d = true
  isSuffix : suffix ∈ [[], ['u'], ['U']]

namespace WrittenInteger

variable (n : WrittenInteger)

def text : List Char := n.mark ++ (n.digits ++ n.suffix)

/-- The number that the digits denote. -/
def value : Nat := Nat.ofDigits n.radix.base (n.digits.reverse.map digitValue)

def literal (value : UInt64) : Literal := if n.suffix = [] then .int value else .uint value

/-- No letter, digit or underscore follows, and no fraction where there might be one. -/
structure EndsBefore (rest : List Char) : Prop where
  name : ∀ c ∈ rest.head?, isNameChar c = false
  fraction : n.radix = .decimal → ∀ d more, rest = '.' :: d :: more → isDigit d = false

end WrittenInteger

/-! ## The number -/

theorem digitsValue_eq_ofDigits (base : Nat) (digits : List Char) :
    digitsValue base digits = Nat.ofDigits base (digits.reverse.map digitValue) := by
  induction digits using reverseRecOn with
  | nil => rfl
  | append_singleton digits d ih =>
    rw [digitsValue, foldl_append, ← digitsValue, ih, reverse_append, map_append]
    simp [Nat.ofDigits_cons, Nat.mul_comm, Nat.add_comm]

theorem scanStep_of_digit (digit : isDigit c = true) (pos : Nat) (rest : List Char) (line : LineState) :
    scanStep pos c rest line = numberStep pos c rest line := by
  rw [scanStep_of_isNameChar (Bool.or_eq_true_iff.mpr (.inr digit)), if_pos digit]

theorem takeWhile_eq_of_head {P : Char → Bool} {front back : List Char} (all : ∀ c ∈ front, P c = true)
    (ends : ∀ c ∈ back.head?, P c = false) : (front ++ back).takeWhile P = front := by
  rw [takeWhile_append_of_pos all]
  cases back with
  | nil => simp
  | cons c more => simp [ends c rfl]

namespace WrittenInteger

theorem suffix_cases (n : WrittenInteger) : n.suffix = [] ∨ n.suffix = ['u'] ∨ n.suffix = ['U'] := by
  simpa using n.isSuffix

variable {n : WrittenInteger} {rest : List Char}

section

variable (ends : n.EndsBefore rest)
include ends

/-- Behind the digits nothing begins that could belong to them. -/
theorem EndsBefore.head {P : Char → Bool} (letters : P 'u' = false ∧ P 'U' = false)
    (inName : ∀ c, P c = true → isNameChar c = true) : ∀ c ∈ (n.suffix ++ rest).head?, P c = false := by
  intro c first
  rcases n.suffix_cases with bare | small | capital
  · rw [bare] at first
    refine Bool.eq_false_iff.mpr fun is => ?_
    cases (ends.name c first).symm.trans (inName c is)
  · rw [small] at first
    cases first
    exact letters.1
  · rw [capital] at first
    cases first
    exact letters.2

theorem EndsBefore.takeDigits : (n.digits ++ (n.suffix ++ rest)).takeWhile n.radix.isDigit = n.digits :=
  takeWhile_eq_of_head n.all
    (ends.head (by cases n.radix <;> exact ⟨rfl, rfl⟩) fun _ digit => n.radix.isNameChar_of_isDigit digit)

theorem EndsBefore.fractionDigits (decimal : n.radix = .decimal) : fractionDigits (n.suffix ++ rest) = [] := by
  rcases n.suffix_cases with bare | letter | letter
  · rw [bare, nil_append]
    unfold BasicCompiler.fractionDigits
    split
    · next more =>
      cases more with
      | nil => rfl
      | cons d more => simp [ends.fraction decimal d more rfl]
    · rfl
  all_goals rw [letter]; rfl

theorem EndsBefore.decimalNumeral (decimal : n.radix = .decimal) :
    decimalNumeral (n.digits ++ (n.suffix ++ rest)) = (.decimal n.digits [] none, n.digits.length) := by
  have taken : (n.digits ++ (n.suffix ++ rest)).takeWhile Radix.decimal.isDigit = n.digits := decimal ▸ ends.takeDigits
  have exponent : exponentPart (n.suffix ++ rest) = none := by
    have other := ends.head (P := fun c => c == 'e' || c == 'E') ⟨rfl, rfl⟩ fun c is => by
      rcases Bool.or_eq_true_iff.mp is with is | is <;> rw [beq_iff_eq.mp is] <;> rfl
    generalize n.suffix ++ rest = tail at other
    cases tail with
    | nil => rfl
    | cons c more => exact if_neg (Bool.eq_false_iff.mp (other c rfl))
  rw [Radix.isDigit] at taken
  simp [BasicCompiler.decimalNumeral, taken, ends.fractionDigits decimal, exponent]

theorem EndsBefore.numeral :
    numeral (n.text ++ rest) = (n.radix.numeral n.digits, n.mark.length + n.digits.length) := by
  have taken := ends.takeDigits
  have isMark := n.isMark
  rw [text, append_assoc, append_assoc]
  cases radix : n.radix with
  | hexadecimal | binary =>
    rw [radix, Radix.isDigit] at taken
    rw [radix] at isMark
    simp only [Radix.marks, mem_cons, not_mem_nil, or_false] at isMark
    rcases isMark with mark | mark <;> rw [mark] <;> simp [numeral_cons, taken, Radix.numeral, n.nonempty]
  | decimal =>
    rw [radix] at isMark
    have whole := ends.decimalNumeral radix
    rw [mem_singleton.mp isMark, nil_append, length_nil, Nat.zero_add]
    obtain ⟨d, ds, digits⟩ := exists_cons_of_ne_nil n.nonempty
    -- the second character is no mark of another base
    have second : ∀ c ∈ (ds ++ (n.suffix ++ rest)).head?, ['x', 'X', 'b', 'B'].contains c = false := by
      cases ds with
      | nil =>
        refine ends.head ⟨rfl, rfl⟩ fun c is => ?_
        simp only [contains_eq_mem, mem_cons, not_mem_nil, or_false, decide_eq_true_eq] at is
        rcases is with rfl | rfl | rfl | rfl <;> rfl
      | cons e more =>
        rintro c ⟨⟩
        have digit := n.all e (by simp [digits])
        rw [radix] at digit
        refine Bool.eq_false_iff.mpr fun is => ?_
        simp only [contains_eq_mem, mem_cons, not_mem_nil, or_false, decide_eq_true_eq] at is
        rcases is with rfl | rfl | rfl | rfl <;> cases digit
    rw [digits, cons_append] at whole ⊢
    generalize ds ++ (n.suffix ++ rest) = more at second whole ⊢
    cases more with
    | nil => simpa [BasicCompiler.numeral, Radix.numeral] using whole
    | cons m more =>
      have other := second m rfl
      simp only [contains_eq_mem, mem_cons, not_mem_nil, or_false, decide_eq_false_iff_not, not_or] at other
      simpa [numeral_cons, other, Radix.numeral] using whole

theorem EndsBefore.numberSuffix? :
    numberSuffix? (n.radix.numeral n.digits) (n.suffix ++ rest) = if n.suffix = [] then none else some .unsigned := by
  rcases n.suffix_cases with bare | letter | letter
  · rw [bare, nil_append, if_pos rfl]
    cases rest with
    | nil => rfl
    | cons c more =>
      have ne {d : Char} (inName : isNameChar d = true) : (c == d) = false :=
        BEq.comm.trans (isNameChar_ne inName (ends.name c rfl))
      simp [BasicCompiler.numberSuffix?, ne (d := 'u') rfl, ne (d := 'U') rfl, ne (d := 'f') rfl, ne (d := 'F') rfl,
        ne (d := 'd') rfl, ne (d := 'D') rfl]
  all_goals simp [letter, BasicCompiler.numberSuffix?, n.radix.not_isFraction]

theorem EndsBefore.scanNumber : scanNumber (n.text ++ rest) = ⟨n.text.length,
    if n.value < UInt64.size then .ok (n.literal (.ofNat n.value)) else .error .tooLarge⟩ := by
  have behind : (n.text ++ rest).drop (n.mark.length + n.digits.length) = n.suffix ++ rest := by
    rw [text, append_assoc, append_assoc, ← append_assoc, ← length_append, drop_left]
  have clean : rest.takeWhile isNameChar = [] := @takeWhile_eq_of_head _ [] _ (by simp) ends.name
  have length : n.mark.length + n.digits.length +
      (if (if n.suffix = [] then none else some NumberSuffix.unsigned).isSome then 1 else 0) = n.text.length := by
    rcases n.suffix_cases with same | same | same <;> simp [text, same, Nat.add_assoc]
  have hasDigits : (n.radix.numeral n.digits).hasDigits = true := by
    cases n.radix <;> simp [Radix.numeral, Numeral.hasDigits, n.nonempty]
  have toNat : (n.radix.numeral n.digits).toNat = n.value := by
    rw [value, ← digitsValue_eq_ofDigits]
    cases n.radix <;> rfl
  unfold BasicCompiler.scanNumber
  simp only [ends.numeral, behind, ends.numberSuffix?, length, drop_left, clean, hasDigits, isEmpty_nil, Bool.and_self,
    if_true]
  congr 1
  unfold literal
  split <;> simp [numberLiteral, integerLiteral, toNat, n.radix.not_isFraction]

end

theorem text_cons (n : WrittenInteger) : ∃ c more, n.text = c :: more ∧ isDigit c = true := by
  have isMark := n.isMark
  cases radix : n.radix with
  | decimal =>
    rw [radix] at isMark
    obtain ⟨d, ds, digits⟩ := exists_cons_of_ne_nil n.nonempty
    refine ⟨d, ds ++ n.suffix, by simp [text, mem_singleton.mp isMark, digits], ?_⟩
    have digit := n.all d (by simp [digits])
    rwa [radix] at digit
  | hexadecimal | binary =>
    rw [radix] at isMark
    simp only [Radix.marks, mem_cons, not_mem_nil, or_false] at isMark
    rcases isMark with mark | mark <;> exact ⟨'0', _, by rw [text, mark]; rfl, rfl⟩

end WrittenInteger

/-! ## Scanning -/

variable {n : WrittenInteger} {rest : List Char}

theorem scanFrom_integer (ends : n.EndsBefore rest) (pos : Nat) (line : LineState) (faults : List (Spanned LexFault)) :
    scanFrom pos (n.text ++ rest) line faults =
      if n.value < UInt64.size then
        (scanFrom (pos + byteLength n.text) rest { line with atStart := false, afterLineName := false } []).prepend
          [⟨faults, .literal (n.literal (.ofNat n.value)), String.ofList n.text, ⟨pos, pos + byteLength n.text⟩,
            line.atStart, false⟩]
      else
        scanFrom (pos + byteLength n.text) rest line
          (faults ++ [⟨.number .tooLarge, ⟨pos, pos + byteLength n.text⟩⟩]) := by
  obtain ⟨c, more, split, digit⟩ := n.text_cons
  have scanned := ends.scanNumber
  rw [split, cons_append] at scanned ⊢
  rw [scanFrom, scanStep_of_digit digit, numberStep, scanned]
  by_cases fits : n.value < UInt64.size
  · simp [fits, Step.token, withFaults, Token.isLineName]
  · simp [fits, Step.fault]

/-- An integer behind which neither a name nor a fraction goes on is one token with the number
that it denotes, or one fault if this has more than 64 bits. Either way what follows is read
from right behind it. -/
theorem integers_exact (ends : n.EndsBefore rest) (pos : Nat) (line : LineState) (faults : List (Spanned LexFault)) :
    (n.value < 2 ^ 64 → ∃ t line', scanFrom pos (n.text ++ rest) line faults =
        (scanFrom (pos + byteLength n.text) rest line' []).prepend [⟨faults, t⟩] ∧
      t.text = String.ofList n.text ∧ t.span = ⟨pos, pos + byteLength n.text⟩ ∧
      ∃ v : UInt64, v.toNat = n.value ∧ t.kind = .literal (if n.suffix = [] then .int v else .uint v)) ∧
    (2 ^ 64 ≤ n.value → ∃ fault : Spanned LexFault, scanFrom pos (n.text ++ rest) line faults =
        scanFrom (pos + byteLength n.text) rest line (faults ++ [fault]) ∧
      fault.span = ⟨pos, pos + byteLength n.text⟩ ∧ fault.node.message = "Integer literal too large") := by
  have scanned := scanFrom_integer ends pos line faults
  constructor
  · intro fits
    rw [if_pos (show n.value < UInt64.size from fits)] at scanned
    exact ⟨_, _, scanned, rfl, rfl, .ofNat n.value, UInt64.toNat_ofNat_of_lt fits, rfl⟩
  · intro large
    rw [if_neg (show ¬n.value < UInt64.size from Nat.not_lt.mpr large)] at scanned
    exact ⟨_, scanned, rfl, rfl⟩

/-- 255 with zeros before it. -/
def paddedHex : WrittenInteger where
  radix := .hexadecimal
  mark := ['0', 'X']
  digits := ['0', '0', 'f', 'F']
  suffix := ['u']
  isMark := by decide
  nonempty := by decide
  all := all_eq_true.mp rfl
  isSuffix := by decide

theorem paddedHex_exact : paddedHex.EndsBefore ['.', '5'] ∧ ∃ t line',
    scanFrom 3 "0X00fFu.5".toList .start [] = (scanFrom 10 ['.', '5'] line' []).prepend [⟨[], t⟩] ∧
      t.span = ⟨3, 10⟩ ∧ ∃ v : UInt64, v.toNat = 255 ∧ t.kind = .literal (.uint v) := by
  have ends : paddedHex.EndsBefore ['.', '5'] := by
    refine ⟨fun c first => ?_, fun decimal => by cases decimal⟩
    cases first
    rfl
  obtain ⟨t, line', scanned, -, span, v, value, kind⟩ := (integers_exact ends 3 .start []).1 (by decide)
  exact ⟨ends, t, line', scanned, span, v, value, kind⟩

end BasicCompiler
