/-
# Reading tokens in order

A `TokenReader` has the tokens still to come, the place of the one read last, and what has been reported so far. The
end of input is read for ever. A parser takes tokens off a reader, or it stops. To report a fault and to stop are two
steps: a stop says nothing by itself, and leaves behind what was reported before it.
-/
import BasicCompiler.Source.ParseError
import BasicCompiler.Token.Stream

namespace BasicCompiler.Source

structure TokenReader where
  rest : List Token
  eof : Token
  /-- The place of the token read last. -/
  last : Span
  reports : List ParseError

def TokenReader.ofStream (s : TokenStream) : TokenReader :=
  ⟨s.lexemes.map (·.token), s.eof.token, Span.none, []⟩

def TokenReader.peek (r : TokenReader) : Token := r.rest.headD r.eof

def TokenReader.advance (r : TokenReader) : TokenReader :=
  { r with rest := r.rest.tail, last := r.peek.span }

abbrev Parse := StateT TokenReader (Except (List ParseError))

namespace Parse

def peek : Parse Token := fun r => .ok (r.peek, r)

def advance : Parse Token := fun r => .ok (r.peek, r.advance)

def lastSpan : Parse Span := fun r => .ok (r.last, r)

/-- Reports a fault. Of the tokens to come `hidden` more than usual were not looked at. -/
def report (fault : ParseFault) (span : Span) (hidden : Nat) : Parse Unit :=
  fun r => .ok ((), { r with reports := r.reports ++ [⟨fault, span, r.rest.length + hidden⟩] })

def stop {α : Type} : Parse α := fun r => .error r.reports

def fail {α : Type} (fault : ParseFault) (span : Span) : Parse α := do
  report fault span 0
  stop

/-- Stops at a place behind which nothing was looked at. -/
def failBefore {α : Type} (fault : ParseFault) (span : Span) : Parse α := do
  report fault span 1
  stop

def failNext {α : Type} (fault : Token → ParseFault) : Parse α := do
  let t ← peek
  report (fault t) t.span 0
  stop

def expected {α : Type} (what : Expectation) : Parse α :=
  failNext fun t => .expected what t.kind

def nextIs (kind : TokenKind) : Parse Bool := fun r => .ok (decide (r.peek.kind = kind), r)

def eat (kind : TokenKind) : Parse Bool := fun r =>
  if r.peek.kind = kind then .ok (true, r.advance) else .ok (false, r)

def eatPunct (sign : Punct) : Parse Bool := eat (.punct sign)

def eatWord (word : Keyword) : Parse Bool := eat (.keyword word)

/-- Takes the next token, which has to be of this kind. -/
def consume (kind : TokenKind) (what : Expectation) : Parse Token := fun r =>
  if r.peek.kind = kind then .ok (r.peek, r.advance) else expected what r

def consumePunct (sign : Punct) (what : Expectation) : Parse Token := consume (.punct sign) what

def ident (what : Expectation) : Parse Ident := do
  let t ← consume .ident what
  return ⟨t.text, t.span⟩

def atStatementEnd : Parse Bool := fun r =>
  .ok (r.peek.startsLine || decide (r.peek.kind = .eof), r)

def endOfStatement : Parse Unit := do
  if ← atStatementEnd then return () else expected .endOfStatement

def spanFrom (start : Span) : Parse Span := return start.join (← lastSpan)

/-- Steps that suffice for what is left to read: no chain of calls that takes no
token is longer than eight. -/
def steps : Parse Nat := fun r => .ok (8 * (r.rest.length + 2), r)

end Parse

end BasicCompiler.Source
