/-
# Tokens on demand

A `Lexer` scans no further than it is asked to.
-/
import BasicCompiler.Token.Stream

namespace BasicCompiler

/-- How far a text has been scanned: what is left of it and where that begins, the state of
the line there, and tokens that wait to be handed out. -/
structure Scanner where
  pos : Nat
  rest : List Char
  line : LineState
  queued : List Token

namespace Scanner

def ofText (text : String) : Scanner := ⟨0, text.toList, LineState.start, []⟩

/-- Scans up to the next token. `faults` are those met since the last one. -/
def scanOn (pos : Nat) (chars : List Char) (line : LineState) (faults : List (Spanned LexFault)) :
    Lexeme × Scanner :=
  match chars with
  | [] =>
      match List.replicate line.openIfs (Token.impliedEndIf pos) with
      | [] => (⟨faults, Token.endOfInput pos⟩, ⟨pos, [], line, []⟩)
      | t :: queued => (⟨faults, t⟩, ⟨pos, [], { line with openIfs := 0 }, queued⟩)
  | c :: rest =>
      let step := scanStep pos c rest line
      let next := pos + byteLength (c :: rest.take step.extent)
      let faults := faults ++ step.faults
      match step.tokens with
      | [] => scanOn next (rest.drop step.extent) step.line faults
      | t :: queued => (⟨faults, t⟩, ⟨next, rest.drop step.extent, step.line, queued⟩)
termination_by chars.length
decreasing_by
  simp only [List.length_drop, List.length_cons]; omega

/-- The next token with the faults before it. Behind the end of input it comes again. -/
def produce (s : Scanner) : Lexeme × Scanner :=
  match s.queued with
  | t :: queued => (⟨[], t⟩, { s with queued })
  | [] => scanOn s.pos s.rest s.line []

end Scanner

structure Lexer where
  scanner : Scanner
  /-- The tokens that were made, in order. -/
  made : List Token
  /-- Number of the tokens that are behind the reader. -/
  cursor : Nat
  reported : List (Spanned LexFault)

namespace Lexer

def ofText (text : String) : Lexer := ⟨Scanner.ofText text, [], 0, []⟩

def extend (l : Lexer) : Lexer :=
  let (x, scanner) := l.scanner.produce
  { l with scanner, made := l.made ++ [x.token], reported := l.reported ++ x.faults }

/-- Takes the next token, which is made if it is not there. -/
def next (l : Lexer) : Token × Lexer :=
  let l := if l.cursor = l.made.length then l.extend else l
  (l.made.getD l.cursor (Token.endOfInput 0), { l with cursor := l.cursor + 1 })

/-- Goes back over the token taken last; before the first there is none. -/
def unget? (l : Lexer) : Option Lexer :=
  if l.cursor = 0 then none else some { l with cursor := l.cursor - 1 }

def nextAfter : Nat → Lexer → Token × Lexer
  | 0, l => l.next
  | count + 1, l => nextAfter count l.next.2

def ungetMany? : Nat → Lexer → Option Lexer
  | 0, l => some l
  | count + 1, l => l.unget?.bind (ungetMany? count)

/-- The token `dist` places ahead, the next one being at 1; nothing is at 0. -/
def lookAhead? (l : Lexer) : Nat → Option (Token × Lexer)
  | 0 => none
  | count + 1 =>
      let (t, l) := nextAfter count l
      (ungetMany? (count + 1) l).map (t, ·)

def peek? (l : Lexer) : Option (Token × Lexer) := l.lookAhead? 1

end Lexer

/-! ## Sequences of steps -/

/-- What is asked of a reader of tokens. -/
inductive CursorStep where
  | next
  | peek
  | look (dist : Nat)
  | unget
deriving DecidableEq

/-- Takes steps in order, with the answer to each, as long as every step can be taken. -/
def takeSteps {σ : Type} (step? : σ → CursorStep → Option (Option Token × σ)) (s : σ) :
    List CursorStep → Option (List (Option Token) × σ)
  | [] => some ([], s)
  | a :: rest => do
      let (answer, s) ← step? s a
      let (answers, s) ← takeSteps step? s rest
      return (answer :: answers, s)

def Lexer.step? (l : Lexer) : CursorStep → Option (Option Token × Lexer)
  | .next => some (l.next.1, l.next.2)
  | .peek => l.peek?.map fun (t, l) => (some t, l)
  | .look dist => (l.lookAhead? dist).map fun (t, l) => (some t, l)
  | .unget => l.unget?.map (none, ·)

def TokenCursor.step? (c : TokenCursor) : CursorStep → Option (Option Token × TokenCursor)
  | .next => some (c.next.1, c.next.2)
  | .peek => some (c.peek.1, c.peek.2)
  | .look 0 => none
  | .look (ahead + 1) => some ((c.lookAhead ahead).1, (c.lookAhead ahead).2)
  | .unget => c.back?.map (none, ·)

end BasicCompiler
