/-
# Binary floating-point numbers of 64 bits

A finite double is `mantissa * 2 ^ exponent` with a mantissa below `2 ^ 53`. It is held in its one normal form: the
mantissa has 53 bits, or the exponent is the least there is.
-/
namespace BasicCompiler

inductive Double where
  | nan
  | infinite (negative : Bool)
  | finite (negative : Bool) (mantissa : Nat) (exponent : Int)
deriving DecidableEq

namespace Double

/-- The least exponent of a double; the numbers that have it are evenly spaced around zero. -/
def leastExponent : Int := -1074

def greatestExponent : Int := 971

def zero : Double := .finite false 0 leastExponent

def leastNormalMantissa : Nat := Nat.pow 2 52

def one : Double := .finite false leastNormalMantissa (-52)

def negate : Double → Double
  | .nan => .nan
  | .infinite negative => .infinite !negative
  | .finite negative mantissa exponent => .finite (!negative) mantissa exponent

end Double

/-- The quotient rounded to the nearest integer, a half to the even one. -/
def roundDivHalfEven (num den : Nat) : Nat :=
  let q := num / den
  let twice := 2 * (num % den)
  if twice < den then q
  else if den < twice then q + 1
  else if q % 2 = 0 then q else q + 1

/-- The fraction `num / den` times `2 ^ shift`, as a numerator and a denominator. -/
def scaleByPowerOfTwo (num den : Nat) (shift : Int) : Nat × Nat :=
  if 0 ≤ shift then (num * Nat.pow 2 shift.toNat, den)
  else (num, den * Nat.pow 2 (-shift).toNat)

/-- The greatest `k` with `2 ^ k ≤ num / den`, for positive `num` and `den`. -/
def floorLog2 (num den : Nat) : Int :=
  let k : Int := (num.log2 : Int) - (den.log2 : Int)
  let (a, b) := scaleByPowerOfTwo num den (-k)
  if a < b then k - 1 else k

namespace Double

/-- The double nearest to the positive fraction `num / den`. -/
def ofFraction (num den : Nat) : Double :=
  let exponent := max leastExponent (floorLog2 num den - 52)
  let (a, b) := scaleByPowerOfTwo num den (-exponent)
  let mantissa := roundDivHalfEven a b
  let (mantissa, exponent) :=
    if mantissa = 2 * leastNormalMantissa then (leastNormalMantissa, exponent + 1)
    else (mantissa, exponent)
  if greatestExponent < exponent then .infinite false else .finite false mantissa exponent

/-- The double nearest to `digits * 10 ^ exponent`. Magnitudes far outside the range
of doubles are settled by the number of digits alone. -/
def ofScientific (digits : Nat) (exponent : Int) : Double :=
  if digits = 0 then zero
  else
    let magnitude := exponent + (Nat.toDigits 10 digits).length
    if 310 < magnitude then .infinite false
    else if magnitude < -330 then zero
    else if 0 ≤ exponent then ofFraction (digits * Nat.pow 10 exponent.toNat) 1
    else ofFraction digits (Nat.pow 10 (-exponent).toNat)

end Double

end BasicCompiler
