/-
# The shortest decimal that reads back

`Double.shortest` looks for the fewest digits whose decimal rounds to the given double, and among those for the
decimal nearest to it; the larger one wins a tie.
-/
import BasicCompiler.Decimal.Double

namespace BasicCompiler

/-- The greatest `k` with `10 ^ k ≤ num / den` in the range searched: `fuel` steps
downwards from `k`. -/
def floorLog10From (num den : Nat) : Nat → Int → Int
  | 0, k => k
  | fuel + 1, k =>
      let holds :=
        if 0 ≤ k then den * Nat.pow 10 k.toNat ≤ num else den ≤ num * Nat.pow 10 (-k).toNat
      if holds then k else floorLog10From num den fuel (k - 1)

/-- The greatest `k` with `10 ^ k ≤ num / den`, for a positive fraction. The binary
logarithm bounds it from above to within two. -/
def floorLog10 (num den : Nat) : Int :=
  floorLog10From num den 4 ((floorLog2 num den + 1) * 30103 / 100000 + 1)

/-- `digits * 10 ^ exponent`. -/
structure Decimal where
  digits : Nat
  exponent : Int

/-- The reals that round to a double, with the double itself, over one denominator.
The ends belong to the interval when the mantissa is even. -/
structure RoundingInterval where
  low : Nat
  value : Nat
  high : Nat
  den : Nat
  closed : Bool

namespace RoundingInterval

/-- The interval of `mantissa * 2 ^ exponent`. Below a power of two the next double
is only half as far away. -/
def ofFinite (mantissa : Nat) (exponent : Int) : RoundingInterval :=
  let below :=
    if mantissa = Double.leastNormalMantissa ∧ Double.leastExponent < exponent then 1 else 2
  let (unit, den) := scaleByPowerOfTwo 1 1 (exponent - 2)
  { low := (4 * mantissa - below) * unit
    value := 4 * mantissa * unit
    high := (4 * mantissa + 2) * unit
    den := den
    closed := mantissa % 2 = 0 }

/-- Whether `digits * 10 ^ exponent` lies in the interval. -/
def holds (i : RoundingInterval) (d : Decimal) : Bool :=
  let (scale, point) : Nat × Nat :=
    if 0 ≤ d.exponent then (1, d.digits * Nat.pow 10 d.exponent.toNat * i.den)
    else (Nat.pow 10 (-d.exponent).toNat, d.digits * i.den)
  if i.closed then i.low * scale ≤ point && point ≤ i.high * scale
  else i.low * scale < point && point < i.high * scale

/-- The decimal on the grid of `10 ^ exponent` that lies in the interval and is
nearest to the value; of two equally near, the larger. -/
def nearest? (i : RoundingInterval) (exponent : Int) : Option Decimal :=
  let (num, den) : Nat × Nat :=
    if 0 ≤ exponent then (i.value, i.den * Nat.pow 10 exponent.toNat)
    else (i.value * Nat.pow 10 (-exponent).toNat, i.den)
  let below : Decimal := ⟨num / den, exponent⟩
  let above : Decimal := ⟨num / den + 1, exponent⟩
  let aboveIsNearer := den ≤ 2 * (num % den)
  match i.holds below, i.holds above with
  | true, true => some (if aboveIsNearer then above else below)
  | true, false => some below
  | false, true => some above
  | false, false => none

/-- Tries grids with one more digit each, from the leading digit at `10 ^ top`. -/
def shortestFrom (i : RoundingInterval) (top : Int) : Nat → Nat → Decimal
  | 0, count => (i.nearest? (top - count)).getD ⟨0, 0⟩
  | fuel + 1, count =>
      match i.nearest? (top - count) with
      | some d => d
      | none => shortestFrom i top fuel (count + 1)

end RoundingInterval

/-- The shortest decimal that reads back as the positive double
`mantissa * 2 ^ exponent`. Seventeen digits always suffice. -/
def shortestDecimal (mantissa : Nat) (exponent : Int) : Decimal :=
  let i := RoundingInterval.ofFinite mantissa exponent
  i.shortestFrom (floorLog10 i.value i.den) 17 0

def dropTrailingZeros (digits : List Char) : List Char :=
  (digits.reverse.dropWhile (· = '0')).reverse

/-- Lays out the digits of a positive number below one times `10 ^ point`. -/
def layoutDecimal (digits : List Char) (point : Int) : List Char :=
  if -3 ≤ point ∧ point ≤ 16 then
    if point ≤ 0 then '0' :: '.' :: (List.replicate (-point).toNat '0' ++ digits)
    else
      let whole := point.toNat
      if digits.length ≤ whole then
        digits ++ List.replicate (whole - digits.length) '0' ++ ['.', '0']
      else digits.take whole ++ '.' :: digits.drop whole
  else
    let fraction := digits.drop 1
    digits.take 1 ++ (if fraction.isEmpty then [] else '.' :: fraction) ++
      'e' :: (toString (point - 1)).toList

def Double.text : Double → String
  | .nan => "NaN"
  | .infinite negative => if negative then "-inf" else "inf"
  | .finite negative mantissa exponent =>
      let sign := if negative then "-" else ""
      if mantissa = 0 then sign ++ "0.0"
      else
        let d := shortestDecimal mantissa exponent
        let all := Nat.toDigits 10 d.digits
        sign ++ String.ofList (layoutDecimal (dropTrailingZeros all) (d.exponent + all.length))

end BasicCompiler
