/-
# One step of reading tokens

A step starts at a character and takes it together with `extent` characters behind it: a blank, a comment, a token, or
something that is none.
-/
import BasicCompiler.Token.Number

namespace BasicCompiler

/-- What is wrong with a stretch of text that is no token. -/
inductive LexFault where
  | unexpectedChar (c : Char)
  | unterminatedString
  | unterminatedComment
  | number (fault : NumberFault)
  | thenWithoutIf
deriving DecidableEq

def LexFault.message : LexFault → String
  | .unexpectedChar c => "Unexpected character '" ++ String.singleton c ++ "'"
  | .unterminatedString => "Unterminated string"
  | .unterminatedComment => "Unterminated block comment"
  | .number .malformed => "Malformed number literal"
  | .number .tooLarge => "Integer literal too large"
  | .thenWithoutIf => "'then' without a preceding 'if'"

/-- The word that a `then` on the same line belongs to. -/
inductive LineOpener where
  | ifWord
  | elseIfWord
deriving DecidableEq

/-- What the scanner remembers about the current line. -/
structure LineState where
  /-- The next token begins a statement. -/
  atStart : Bool
  /-- The `if` or `elseif` that may still be followed by `then`. -/
  opener : Option LineOpener
  /-- Single-line `if`s that wait for their implied `endif`. -/
  openIfs : Nat
  /-- The last token was a name that begins a statement. -/
  afterLineName : Bool

namespace LineState

def start : LineState := ⟨true, none, 0, false⟩

def newline (s : LineState) : LineState :=
  { s with atStart := true, opener := none, openIfs := 0 }

end LineState

/-! ## Runs of characters -/

def isBlank (c : Char) : Bool := c == ' ' || c == '\t' || c == '\r'

/-- Length of the run of characters before the next newline. -/
def lineLength (chars : List Char) : Nat :=
  (chars.takeWhile (· != '\n')).length

/-- Whether nothing but blanks or a comment up to the line's end remains on the line. -/
def restOfLineBlank (chars : List Char) : Bool :=
  match chars.dropWhile isBlank with
  | [] => true
  | '\n' :: _ => true
  | '\x60' :: _ => true
  | '/' :: '/' :: _ => true
  | rest => fold (String.ofList (rest.takeWhile isNameChar)) == "rem"

/-- How many characters stand before the first occurrence of `mark`, ignoring case. -/
def indexOfMark? (mark : List Char) : List Char → Option Nat
  | [] => if mark.isEmpty then some 0 else none
  | c :: rest =>
      if ((c :: rest).take mark.length).map Char.toLower = mark then some 0
      else (indexOfMark? mark rest).map (· + 1)

/-- How many characters a string literal takes behind its opening quote, and whether the closing
quote is one of them. -/
def stringExtent : List Char → Nat × Bool
  | '"' :: '"' :: rest =>
      let later := stringExtent rest
      (later.1 + 2, later.2)
  | '"' :: _ => (1, true)
  | [] => (0, false)
  | '\n' :: _ => (0, false)
  | _ :: rest =>
      let later := stringExtent rest
      (later.1 + 1, later.2)

/-- A text with one quote for each doubled one. -/
def undoubled : List Char → List Char
  | '"' :: '"' :: rest => '"' :: undoubled rest
  | c :: rest => c :: undoubled rest
  | [] => []

/-! ## Steps -/

/-- What one step of the scanner contributes. -/
structure Step where
  /-- How many characters it takes behind the first. -/
  extent : Nat
  line : LineState
  tokens : List Token
  faults : List (Spanned LexFault)

namespace Step

def skip (extent : Nat) (line : LineState) : Step := ⟨extent, line, [], []⟩

/-- A token scanned from the source. In a line with a single-line `if`, `else` ends
one statement and begins another. -/
def token (extent : Nat) (line : LineState) (kind : TokenKind) (text : String) (span : Span) :
    Step :=
  let splits := kind = .keyword .kwElse ∧ 0 < line.openIfs
  let t : Token := ⟨kind, text, span, line.atStart || decide splits, false⟩
  ⟨extent, { line with atStart := decide splits, afterLineName := t.isLineName }, [t], []⟩

/-- The end of a line, where each open single-line `if` is closed. -/
def lineEnd (extent : Nat) (line : LineState) (pos : Nat) (faults : List (Spanned LexFault)) :
    Step :=
  let implied := List.replicate line.openIfs (Token.impliedEndIf pos)
  ⟨extent, { line.newline with afterLineName := line.afterLineName && implied.isEmpty },
    implied, faults⟩

def fault (extent : Nat) (line : LineState) (fault : LexFault) (span : Span) : Step :=
  ⟨extent, line, [], [⟨fault, span⟩]⟩

end Step

/-- A comment closed by `mark`, whose opening took `opening` characters behind the
first. One that holds a newline also ends the line. -/
def commentStep (pos : Nat) (c : Char) (rest : List Char) (line : LineState)
    (opening : Nat) (mark : List Char) : Step :=
  let body := rest.drop opening
  let (bodyLength, extent, faults) : Nat × Nat × List (Spanned LexFault) :=
    match indexOfMark? mark body with
    | some n => (n, opening + n + mark.length, [])
    | none =>
        let openingSpan := ⟨pos, pos + byteLength (c :: rest.take opening)⟩
        (body.length, rest.length, [⟨.unterminatedComment, openingSpan⟩])
  if (body.take bodyLength).contains '\n' then Step.lineEnd extent line pos faults
  else ⟨extent, line, [], faults⟩

/-- A `then`: with a statement behind it on the line it begins a single-line body. -/
def thenStep (extent : Nat) (after : List Char) (line : LineState) (span : Span) : Step :=
  match line.opener with
  | none => Step.fault extent line .thenWithoutIf span
  | some opener =>
      let line := { line with opener := none }
      if restOfLineBlank after then Step.skip extent line
      else
        let opened := if opener = .ifWord then 1 else 0
        Step.skip extent { line with atStart := true, openIfs := line.openIfs + opened }

/-- A word that is a keyword or a name without a suffix. -/
def wordStep (extent : Nat) (after : List Char) (line : LineState) (word : String)
    (span : Span) : Step :=
  match Keyword.ofWord? word with
  | none => Step.token extent line .ident word span
  | some .kwThen => thenStep extent after line span
  | some .kwIf =>
      Step.token extent { line with opener := some .ifWord } (.keyword .kwIf) word span
  | some .kwElseIf =>
      Step.token extent { line with opener := some .elseIfWord } (.keyword .kwElseIf) word span
  | some keyword =>
      match keyword.operator? with
      | some sign => Step.token extent line (.punct sign) word span
      | none => Step.token extent line (.keyword keyword) word span

/-- A name, a keyword, or a comment that a word begins. A name may end in `#` or `$`,
and then it is no keyword. -/
def nameStep (pos : Nat) (c : Char) (rest : List Char) (line : LineState) : Step :=
  let wordExtent := (rest.takeWhile isNameChar).length
  let hasSuffix :=
    match rest.drop wordExtent with
    | s :: _ => s == '#' || s == '$'
    | [] => false
  let extent := if hasSuffix then wordExtent + 1 else wordExtent
  let chars := c :: rest.take extent
  let text := String.ofList chars
  let span := ⟨pos, pos + byteLength chars⟩
  if hasSuffix then Step.token extent line .ident text span
  else if fold text == "rem" then
    Step.skip (extent + lineLength (rest.drop extent)) line
  else if fold text == "remstart" then commentStep pos c rest line extent "remend".toList
  else wordStep extent (rest.drop extent) line text span

def numberStep (pos : Nat) (c : Char) (rest : List Char) (line : LineState) : Step :=
  let number := scanNumber (c :: rest)
  let extent := number.length - 1
  let chars := c :: rest.take extent
  let span := ⟨pos, pos + byteLength chars⟩
  match number.result with
  | .ok value => Step.token extent line (.literal value) (String.ofList chars) span
  | .error e => Step.fault extent line (.number e) span

def stringStep (pos : Nat) (c : Char) (rest : List Char) (line : LineState) : Step :=
  let (extent, closed) := stringExtent rest
  let literal := rest.take extent
  let span := ⟨pos, pos + byteLength (c :: literal)⟩
  if closed then
    let text := String.ofList (undoubled literal.dropLast)
    Step.token extent line (.literal (.str text)) text span
  else Step.fault extent line .unterminatedString span

def colonStep (pos : Nat) (rest : List Char) (line : LineState) : Step :=
  if line.afterLineName && !line.atStart && restOfLineBlank rest then
    Step.token 0 line (.punct .colon) ":" ⟨pos, pos + 1⟩
  else Step.skip 0 { line with atStart := true }

/-- The sign at the head of a text, the longest there is, given its first character
and the text behind it. -/
def sign? (c : Char) (rest : List Char) : Option Punct :=
  match c, rest.head? with
  | '(', _ => some .openParen
  | ')', _ => some .closeParen
  | '[', _ => some .openSquare
  | ']', _ => some .closeSquare
  | ',', _ => some .comma
  | '.', _ => some .dot
  | '+', some '=' => some .plusEq
  | '+', _ => some .plus
  | '-', some '=' => some .minusEq
  | '-', _ => some .minus
  | '*', some '=' => some .starEq
  | '*', _ => some .star
  | '/', some '=' => some .slashEq
  | '/', _ => some .slash
  | '%', _ => some .percent
  | '^', some '^' => some .caretCaret
  | '^', _ => some .caret
  | '&', some '&' => some .andAnd
  | '&', _ => some .amp
  | '|', some '|' => some .orOr
  | '|', _ => some .pipe
  | '~', _ => some .tilde
  | '!', some '=' => some .ne
  | '!', _ => some .not
  | '=', some '=' => some .eqEq
  | '=', _ => some .eq
  | '<', some '=' => some .le
  | '<', some '>' => some .ne
  | '<', some '<' => some .shl
  | '<', _ => some .lt
  | '>', some '=' => some .ge
  | '>', some '>' => some .shr
  | '>', _ => some .gt
  | _, _ => none

/-- Every sign is as many characters long as its spelling. -/
def signStep (pos : Nat) (c : Char) (rest : List Char) (line : LineState) : Step :=
  match sign? c rest with
  | some sign =>
      let extent := sign.text.length - 1
      let chars := c :: rest.take extent
      Step.token extent line (.punct sign) (String.ofList chars) ⟨pos, pos + byteLength chars⟩
  | none => Step.fault 0 line (.unexpectedChar c) ⟨pos, pos + c.utf8Size⟩

def startsWithDigit (chars : List Char) : Bool :=
  match chars with
  | c :: _ => isDigit c
  | [] => false

/-- The step at offset `pos`, where the text is `c :: rest`. -/
def scanStep (pos : Nat) (c : Char) (rest : List Char) (line : LineState) : Step :=
  if c == '\n' then Step.lineEnd 0 line pos []
  else if isBlank c then Step.skip 0 line
  else if c == '\\' && restOfLineBlank rest then Step.skip (lineLength rest + 1) line
  else if c == '\x60' then Step.skip (lineLength rest) line
  else if c == '/' && rest.head? == some '/' then Step.skip (lineLength rest) line
  else if c == '/' && rest.head? == some '*' then commentStep pos c rest line 1 ['*', '/']
  else if c == ':' then colonStep pos rest line
  else if c == '"' then stringStep pos c rest line
  else if isDigit c || (c == '.' && startsWithDigit rest) then numberStep pos c rest line
  else if isNameStart c then nameStep pos c rest line
  else signStep pos c rest line

end BasicCompiler
