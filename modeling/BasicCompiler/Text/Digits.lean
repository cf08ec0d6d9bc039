/-
# Numbers in digits

The value of a digit string in a base, and the two parts that may follow the whole part of a decimal number: a
fraction and an exponent.
-/
namespace BasicCompiler

def isDigit (c : Char) : Bool := '0' ≤ c && c ≤ '9'

def isHexDigit (c : Char) : Bool :=
  isDigit c || ('a' ≤ c && c ≤ 'f') || ('A' ≤ c && c ≤ 'F')

def isBinaryDigit (c : Char) : Bool := c == '0' || c == '1'

def digitValue (c : Char) : Nat :=
  if isDigit c then c.toNat - '0'.toNat
  else if 'a' ≤ c then c.toNat - 'a'.toNat + 10
  else c.toNat - 'A'.toNat + 10

/-- The number that a digit string denotes, most significant digit first. -/
def digitsValue (base : Nat) (digits : List Char) : Nat :=
  digits.foldl (fun value c => value * base + digitValue c) 0

/-- The fraction at the head of `chars`: a point and at least one digit. -/
def fractionDigits : List Char → List Char
  | '.' :: rest => rest.takeWhile isDigit
  | _ => []

/-- The exponent at the head of `chars` and its length: the letter, an optional sign
and at least one digit. -/
def exponentPart (chars : List Char) : Option (Int × Nat) :=
  match chars with
  | mark :: rest =>
      if mark == 'e' || mark == 'E' then
        let (negative, signLength, rest) : Bool × Nat × List Char :=
          match rest with
          | '-' :: digits => (true, 1, digits)
          | '+' :: digits => (false, 1, digits)
          | digits => (false, 0, digits)
        let digits := rest.takeWhile isDigit
        if digits.isEmpty then none
        else
          let value : Int := digitsValue 10 digits
          some (if negative then -value else value, 1 + signLength + digits.length)
      else none
  | [] => none

end BasicCompiler
