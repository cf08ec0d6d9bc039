/-
# The tokens of a source text

`TokenStream.ofText` reads a text from end to end.
-/
import BasicCompiler.Token.Scan

namespace BasicCompiler

/-- A token and the faults between the token before it and itself. -/
structure Lexeme where
  faults : List (Spanned LexFault)
  token : Token

/-- The lexemes of a text; the end of input stands apart from the tokens before it. -/
structure TokenStream where
  lexemes : List Lexeme
  eof : Lexeme

/-- Pairs each token with the faults before it: all of `faults` belong to the first. -/
def withFaults (faults : List (Spanned LexFault)) : List Token → List Lexeme
  | [] => []
  | t :: ts => ⟨faults, t⟩ :: ts.map (⟨[], ·⟩)

namespace TokenStream

def prepend (front : List Lexeme) (s : TokenStream) : TokenStream :=
  { s with lexemes := front ++ s.lexemes }

/-- Reads the text `chars`, which begins at offset `pos`. `faults` are those met since
the last token. -/
def scanFrom (pos : Nat) (chars : List Char) (line : LineState)
    (faults : List (Spanned LexFault)) : TokenStream :=
  match chars with
  | [] =>
      match withFaults faults (List.replicate line.openIfs (Token.impliedEndIf pos)) with
      | [] => ⟨[], ⟨faults, Token.endOfInput pos⟩⟩
      | implied => ⟨implied, ⟨[], Token.endOfInput pos⟩⟩
  | c :: rest =>
      let step := scanStep pos c rest line
      let next := pos + byteLength (c :: rest.take step.extent)
      let faults := faults ++ step.faults
      match step.tokens with
      | [] => scanFrom next (rest.drop step.extent) step.line faults
      | tokens =>
          (scanFrom next (rest.drop step.extent) step.line []).prepend
            (withFaults faults tokens)
termination_by chars.length
decreasing_by
  all_goals simp only [List.length_drop, List.length_cons]; omega

def ofText (text : String) : TokenStream :=
  scanFrom 0 text.toList LineState.start []

def toList (s : TokenStream) : List Lexeme := s.lexemes ++ [s.eof]

def tokens (s : TokenStream) : List Token := s.toList.map (·.token)

/-- The faults met when the first `count` tokens have been read. -/
def faultsUpTo (s : TokenStream) (count : Nat) : List (Spanned LexFault) :=
  (s.toList.take count).flatMap (·.faults)

def faults (s : TokenStream) : List (Spanned LexFault) := s.toList.flatMap (·.faults)

/-- The token at an index; the end of input from the last on. -/
def get (s : TokenStream) (index : Nat) : Token :=
  (s.lexemes.getD index s.eof).token

end TokenStream

/-- A place in a token stream. `looked` counts the tokens that were ever looked at. -/
structure TokenCursor where
  stream : TokenStream
  index : Nat
  looked : Nat

namespace TokenCursor

def ofText (text : String) : TokenCursor := ⟨TokenStream.ofText text, 0, 0⟩

/-- The token `ahead` places behind the next one, and the cursor that knows of it. -/
def lookAhead (c : TokenCursor) (ahead : Nat) : Token × TokenCursor :=
  (c.stream.get (c.index + ahead), { c with looked := max c.looked (c.index + ahead + 1) })

def peek (c : TokenCursor) : Token × TokenCursor := c.lookAhead 0

def next (c : TokenCursor) : Token × TokenCursor :=
  let (t, c) := c.peek
  (t, { c with index := c.index + 1 })

def back? (c : TokenCursor) : Option TokenCursor :=
  if c.index = 0 then none else some { c with index := c.index - 1 }

def faults (c : TokenCursor) : List (Spanned LexFault) := c.stream.faultsUpTo c.looked

end TokenCursor

end BasicCompiler
