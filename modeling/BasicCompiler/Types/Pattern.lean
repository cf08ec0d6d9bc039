/-
# Signatures in letters

A type pattern lists the types of a command, the result first: `G G L L?` is a string command that takes a string, an
integer and perhaps another integer.
-/
import BasicCompiler.Text.Digits
import BasicCompiler.Text.Words
import BasicCompiler.Types.Ty

namespace BasicCompiler

inductive PatternType where
  | builtin (t : BuiltinType)
  | array (elem : PatternType)
deriving DecidableEq

def PatternType.toTy : PatternType → Ty
  | .builtin t => .builtin t
  | .array elem => .arrayOf elem.toTy

/-- How an argument reaches the command. -/
inductive PassBy where
  | value
  | constRef
  | outRef
  | inOutRef
deriving DecidableEq

/-- References that may be written through need something to write to. -/
def PassBy.needsLvalue : PassBy → Bool
  | .outRef | .inOutRef => true
  | _ => false

/-- How often a parameter is given. -/
inductive Repeat where
  | once
  | variadic
  | oneOrMore
  | optional
deriving DecidableEq

/-- Whether the parameter takes every argument that is left. -/
def Repeat.isRepeated : Repeat → Bool
  | .variadic | .oneOrMore => true
  | _ => false

structure PatternMember where
  type : PatternType
  pass : PassBy
  count : Repeat
deriving DecidableEq

inductive PatternFault where
  | unexpectedEnd
  | incompleteComposite
  | badDimensions (cols rows : String)
  | noVectorType (component : String) (cols rows : Nat)
  | unknownCode (code : String)
  | suffixWithoutType (part : String)
  | missingReturnType
  | suffixedReturnType
  | repeatedNotLast
deriving DecidableEq

def PatternFault.message : PatternFault → String
  | .unexpectedEnd => "unexpected end of pattern"
  | .incompleteComposite => "incomplete 'E' member"
  | .badDimensions cols rows => s!"bad dimensions '{cols} {rows}'"
  | .noVectorType component cols rows => s!"no vector type 'E {component} {cols} {rows}'"
  | .unknownCode code => s!"unknown type code '{code}'"
  | .suffixWithoutType part => s!"suffix without a type in '{part}'"
  | .missingReturnType => "missing return type"
  | .suffixedReturnType => "return type cannot carry suffixes"
  | .repeatedNotLast => "repeated parameter must come last"

/-- A fault together with the pattern it was found in. -/
structure PatternError where
  pattern : String
  fault : PatternFault

def PatternError.message (e : PatternError) : String :=
  s!"invalid type pattern '{e.pattern}': " ++ e.fault.message

/-! ## The codes -/

def scalarCodes : List (String × BuiltinType) := [
  ("X", .void), ("A", .any), ("Y", .bool), ("C", .int8), ("B", .uint8), ("N", .int16),
  ("W", .uint16), ("L", .int32), ("D", .uint32), ("R", .int64), ("U", .uint64),
  ("K", .float16), ("F", .float32), ("O", .float64), ("P", .intptr), ("Pu", .uintptr),
  ("M", .pointer), ("G", .string), ("Q", .quatf), ("Bn", .unorm8), ("Cn", .snorm8),
  ("Wn", .unorm16), ("Nn", .snorm16), ("Dn", .unorm32), ("Ln", .snorm32)
]

/-- Component, columns and rows of the vectors and matrices. -/
def compositeCodes : List ((String × Nat × Nat) × BuiltinType) := [
  (("L", 2, 1), .vec2i), (("L", 3, 1), .vec3i), (("L", 4, 1), .vec4i),
  (("F", 2, 1), .vec2f), (("F", 3, 1), .vec3f), (("F", 4, 1), .vec4f),
  (("O", 2, 1), .vec2d), (("O", 3, 1), .vec3d), (("O", 4, 1), .vec4d),
  (("F", 2, 2), .mat2f), (("F", 3, 3), .mat3f), (("F", 4, 4), .mat4f),
  (("O", 2, 2), .mat2d), (("O", 3, 3), .mat3d), (("O", 4, 4), .mat4d)
]

/-! ## Reading -/

def repeatOfSuffix? : Char → Option Repeat
  | '~' => some .variadic
  | '+' => some .oneOrMore
  | '?' => some .optional
  | _ => none

def passOfSuffix? : Char → Option PassBy
  | '<' => some .constRef
  | '>' => some .outRef
  | '*' => some .inOutRef
  | _ => none

/-- Takes the last character off `chars` if `read` knows it. -/
def splitLast {α : Type} (read : Char → Option α) (default : α) (chars : List Char) :
    List Char × α :=
  match chars.getLast?.bind read with
  | some value => (chars.dropLast, value)
  | none => (chars, default)

def splitSuffixes (part : String) : Except PatternFault (String × PassBy × Repeat) :=
  let (code, count) := splitLast repeatOfSuffix? .once part.toList
  let (code, pass) := splitLast passOfSuffix? .value code
  if code.isEmpty then .error (.suffixWithoutType part)
  else .ok (String.ofList code, pass, count)

/-- A number below 256 in decimal digits, with or without a plus sign in front. -/
def dimension? (text : String) : Option Nat :=
  let digits :=
    match text.toList with
    | '+' :: rest => rest
    | chars => chars
  if digits.isEmpty || !digits.all isDigit then none
  else if digitsValue 10 digits < 256 then some (digitsValue 10 digits)
  else none

def PatternType.nest (elem : PatternType) : Nat → PatternType
  | 0 => elem
  | depth + 1 => .array (elem.nest depth)

def compositeMember (component cols rows : String) : Except PatternFault PatternMember := do
  let (rows, pass, count) ← splitSuffixes rows
  match dimension? cols, dimension? rows with
  | some c, some r =>
      match compositeCodes.lookup (component, c, r) with
      | some t => .ok ⟨.builtin t, pass, count⟩
      | none => .error (.noVectorType component c r)
  | _, _ => .error (.badDimensions cols rows)

def scalarMember (part : String) : Except PatternFault PatternMember := do
  let (code, pass, count) ← splitSuffixes part
  match scalarCodes.lookup code with
  | some t => .ok ⟨.builtin t, pass, count⟩
  | none => .error (.unknownCode code)

/-- The members that the parts spell, where `depth` array marks have just been read. -/
def readMembers (depth : Nat) : List String → Except PatternFault (List PatternMember)
  | [] => if depth = 0 then .ok [] else .error .unexpectedEnd
  | "H" :: rest => readMembers (depth + 1) rest
  | "E" :: component :: cols :: rows :: rest => do
      let m ← compositeMember component cols rows
      let ms ← readMembers 0 rest
      .ok ({ m with type := m.type.nest depth } :: ms)
  | part :: rest =>
      if part = "E" then .error .incompleteComposite
      else do
        let m ← scalarMember part
        let ms ← readMembers 0 rest
        .ok ({ m with type := m.type.nest depth } :: ms)

/-- Whether a parameter that is repeated stands before another one. -/
def hasRepeatedBeforeLast (parameters : List PatternMember) : Bool :=
  parameters.dropLast.any (·.count.isRepeated)

def checkMembers : List PatternMember → Except PatternFault (List PatternMember)
  | [] => .error .missingReturnType
  | result :: parameters =>
      if result.pass ≠ .value ∨ result.count ≠ .once then .error .suffixedReturnType
      else if hasRepeatedBeforeLast parameters then .error .repeatedNotLast
      else .ok (result :: parameters)

/-- Reads a pattern; the first member is the type of the result. -/
def parsePattern (pattern : String) : Except PatternError (List PatternMember) :=
  match readMembers 0 (words pattern) >>= checkMembers with
  | .ok members => .ok members
  | .error fault => .error ⟨pattern, fault⟩

/-! ## Writing -/

def PatternType.code : PatternType → String
  | .array elem => "H " ++ elem.code
  | .builtin t =>
      match scalarCodes.find? (·.2 = t), compositeCodes.find? (·.2 = t) with
      | some (code, _), _ => code
      | none, some ((component, cols, rows), _) => s!"E {component} {cols} {rows}"
      | none, none => ""

def PassBy.suffix : PassBy → String
  | .value => ""
  | .constRef => "<"
  | .outRef => ">"
  | .inOutRef => "*"

def Repeat.suffix : Repeat → String
  | .once => ""
  | .variadic => "~"
  | .oneOrMore => "+"
  | .optional => "?"

def PatternMember.text (m : PatternMember) : String :=
  m.type.code ++ m.pass.suffix ++ m.count.suffix

def formatPattern (members : List PatternMember) : String :=
  " ".intercalate (members.map PatternMember.text)

end BasicCompiler
