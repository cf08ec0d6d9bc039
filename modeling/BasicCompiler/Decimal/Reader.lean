/-
# Doubles from their text

Reads a decimal with or without a sign, a point and an exponent, and the words `inf`, `infinity` and `nan` in any
case.
-/
import BasicCompiler.Decimal.Double
import BasicCompiler.Text.CaseFold
import BasicCompiler.Text.Digits

namespace BasicCompiler.Double

/-- A decimal without a sign; the point may stand at its beginning or its end. -/
def decimal? (chars : List Char) : Option Double :=
  let whole := chars.takeWhile isDigit
  let rest := chars.drop whole.length
  let fraction := fractionDigits rest
  let rest := if rest.head? = some '.' then rest.drop (fraction.length + 1) else rest
  if whole.isEmpty && fraction.isEmpty then none
  else
    let digits := digitsValue 10 (whole ++ fraction)
    match rest, exponentPart rest with
    | [], _ => some (ofScientific digits (-fraction.length))
    | rest, some (exponent, length) =>
        if length = rest.length then some (ofScientific digits (exponent - fraction.length))
        else none
    | _, none => none

def unsigned? (text : String) : Option Double :=
  match fold text with
  | "inf" | "infinity" => some (.infinite false)
  | "nan" => some .nan
  | folded => decimal? folded.toList

def ofText? (text : String) : Option Double :=
  match text.toList with
  | '-' :: rest => (unsigned? (String.ofList rest)).map negate
  | '+' :: rest => unsigned? (String.ofList rest)
  | _ => unsigned? text

end BasicCompiler.Double
