/-
# Numeric literals

A number is written in base ten, with an optional fraction and exponent, or in base sixteen or two after `0x` or `0b`.
-/
import BasicCompiler.Text.Digits
import BasicCompiler.Token.Kind

namespace BasicCompiler

def isNameStart (c : Char) : Bool :=
  ('a' ≤ c && c ≤ 'z') || ('A' ≤ c && c ≤ 'Z') || c == '_'

def isNameChar (c : Char) : Bool := isNameStart c || isDigit c

/-- Why a run of characters that begins like a number is none. -/
inductive NumberFault where
  | malformed
  | tooLarge
deriving DecidableEq

/-- The digits of a number before its suffix. -/
inductive Numeral where
  /-- Digits in base ten, as written: the whole part, the fraction and the exponent. -/
  | decimal (whole : List Char) (fraction : List Char) (exponent : Option Int)
  /-- Digits in base sixteen or two. -/
  | radix (base : Nat) (digits : List Char)

namespace Numeral

def isFraction : Numeral → Bool
  | .decimal _ fraction exponent => !fraction.isEmpty || exponent.isSome
  | .radix _ _ => false

def isDecimal : Numeral → Bool
  | .decimal _ _ _ => true
  | .radix _ _ => false

def hasDigits : Numeral → Bool
  | .decimal _ _ _ => true
  | .radix _ digits => !digits.isEmpty

def toDouble : Numeral → Double
  | .decimal whole fraction exponent =>
      Double.ofScientific (digitsValue 10 (whole ++ fraction))
        (exponent.getD 0 - fraction.length)
  | .radix base digits => Double.ofScientific (digitsValue base digits) 0

def toNat : Numeral → Nat
  | .decimal whole _ _ => digitsValue 10 whole
  | .radix base digits => digitsValue base digits

end Numeral

/-- The numeral at the head of `chars` and its length. -/
def decimalNumeral (chars : List Char) : Numeral × Nat :=
  let whole := chars.takeWhile isDigit
  let rest := chars.drop whole.length
  let fraction := fractionDigits rest
  let fractionLength := if fraction.isEmpty then 0 else fraction.length + 1
  let length := whole.length + fractionLength
  match exponentPart (chars.drop length) with
  | some (exponent, exponentLength) =>
      (.decimal whole fraction (some exponent), length + exponentLength)
  | none => (.decimal whole fraction none, length)

/-- The numeral at the head of `chars` and its length, where `chars` begins with a
digit, or with a point and a digit. -/
def numeral (chars : List Char) : Numeral × Nat :=
  match chars with
  | '0' :: mark :: rest =>
      let digits := rest.takeWhile isBinaryDigit
      if mark == 'x' || mark == 'X' then
        let digits := rest.takeWhile isHexDigit
        (.radix 16 digits, 2 + digits.length)
      else if (mark == 'b' || mark == 'B') && !digits.isEmpty then
        (.radix 2 digits, 2 + digits.length)
      else decimalNumeral chars
  | _ => decimalNumeral chars

/-- What the suffix letter of a number makes of it. -/
inductive NumberSuffix where
  | unsigned
  | float
  | double
deriving DecidableEq

/-- The suffix at the head of `chars`, if `n` admits it. -/
def numberSuffix? (n : Numeral) (chars : List Char) : Option NumberSuffix :=
  match chars with
  | [] => none
  | c :: _ =>
      if (c == 'u' || c == 'U') && !n.isFraction then some .unsigned
      else if (c == 'f' || c == 'F') && n.isDecimal then some .float
      else if (c == 'd' || c == 'D') && n.isDecimal then some .double
      else none

def integerLiteral (n : Numeral) (make : UInt64 → Literal) : Except NumberFault Literal :=
  if n.toNat < UInt64.size then .ok (make (UInt64.ofNat n.toNat)) else .error .tooLarge

def numberLiteral (n : Numeral) : Option NumberSuffix → Except NumberFault Literal
  | some .unsigned => integerLiteral n .uint
  | some .float => .ok (.float n.toDouble)
  | some .double => .ok (.double n.toDouble)
  | none => if n.isFraction then .ok (.float n.toDouble) else integerLiteral n .int

/-- A scanned number: how many characters it takes and what it is. -/
structure ScannedNumber where
  length : Nat
  result : Except NumberFault Literal

/-- Scans the number at the head of `chars`, which begins with a digit, or with a
point and a digit. -/
def scanNumber (chars : List Char) : ScannedNumber :=
  let (n, digitsLength) := numeral chars
  let suffix := numberSuffix? n (chars.drop digitsLength)
  let length := digitsLength + (if suffix.isSome then 1 else 0)
  let junk := (chars.drop length).takeWhile isNameChar
  if junk.isEmpty && n.hasDigits then ⟨length, numberLiteral n suffix⟩
  else ⟨length + junk.length, .error .malformed⟩

end BasicCompiler
