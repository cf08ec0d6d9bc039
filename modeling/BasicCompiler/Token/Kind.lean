/-
# The kinds of token

Punctuation, keywords, names, literals and the end of input. The keyword table is case-insensitive.
-/
import BasicCompiler.Decimal.Shortest
import BasicCompiler.Text.CaseFold
import BasicCompiler.Text.Span

namespace BasicCompiler

inductive Punct where
  | openParen | closeParen | openSquare | closeSquare | comma | dot | colon | plus | minus | star
  | slash | percent | caret | amp | pipe | tilde | not | andAnd | orOr | caretCaret | shl | shr
  | eq | eqEq | ne | lt | gt | le | ge | plusEq | minusEq | starEq | slashEq
deriving DecidableEq

namespace Punct

def text : Punct → String
  | .openParen => "("
  | .closeParen => ")"
  | .openSquare => "["
  | .closeSquare => "]"
  | .comma => ","
  | .dot => "."
  | .colon => ":"
  | .plus => "+"
  | .minus => "-"
  | .star => "*"
  | .slash => "/"
  | .percent => "%"
  | .caret => "^"
  | .amp => "&"
  | .pipe => "|"
  | .tilde => "~"
  | .not => "!"
  | .andAnd => "&&"
  | .orOr => "||"
  | .caretCaret => "^^"
  | .shl => "<<"
  | .shr => ">>"
  | .eq => "="
  | .eqEq => "=="
  | .ne => "<>"
  | .lt => "<"
  | .gt => ">"
  | .le => "<="
  | .ge => ">="
  | .plusEq => "+="
  | .minusEq => "-="
  | .starEq => "*="
  | .slashEq => "/="

def tag : Punct → String
  | .openParen => "OpenParen"
  | .closeParen => "CloseParen"
  | .openSquare => "OpenSquare"
  | .closeSquare => "CloseSquare"
  | .comma => "Comma"
  | .dot => "Dot"
  | .colon => "Colon"
  | .plus => "Plus"
  | .minus => "Minus"
  | .star => "Star"
  | .slash => "Slash"
  | .percent => "Percent"
  | .caret => "Caret"
  | .amp => "Amp"
  | .pipe => "Pipe"
  | .tilde => "Tilde"
  | .not => "Not"
  | .andAnd => "AndAnd"
  | .orOr => "OrOr"
  | .caretCaret => "CaretCaret"
  | .shl => "Shl"
  | .shr => "Shr"
  | .eq => "Eq"
  | .eqEq => "EqEq"
  | .ne => "Ne"
  | .lt => "Lt"
  | .gt => "Gt"
  | .le => "Le"
  | .ge => "Ge"
  | .plusEq => "PlusEq"
  | .minusEq => "MinusEq"
  | .starEq => "StarEq"
  | .slashEq => "SlashEq"

end Punct

inductive Keyword where
  | kwIf | kwThen | kwElseIf | kwElse | kwEndIf | kwSelect | kwCase | kwDefault | kwEndCase
  | kwEndSelect | kwFallthrough | kwDo | kwLoop | kwWhile | kwEndWhile | kwRepeat | kwUntil
  | kwFor | kwTo | kwStep | kwNext | kwExit | kwContinue | kwGoto | kwReturn | kwFunction
  | kwEndFunction | kwType | kwEndType | kwAs | kwByRef | kwLocal | kwGlobal | kwDim | kwTrue
  | kwFalse | kwEnd | kwAnd | kwOr | kwXor | kwNot | kwMod | kwShl | kwShr
deriving DecidableEq

namespace Keyword

def spellings : List (String × Keyword) := [
  ("if", .kwIf),
  ("then", .kwThen),
  ("elseif", .kwElseIf),
  ("else", .kwElse),
  ("endif", .kwEndIf),
  ("select", .kwSelect),
  ("case", .kwCase),
  ("default", .kwDefault),
  ("endcase", .kwEndCase),
  ("endselect", .kwEndSelect),
  ("fallthrough", .kwFallthrough),
  ("do", .kwDo),
  ("loop", .kwLoop),
  ("while", .kwWhile),
  ("endwhile", .kwEndWhile),
  ("repeat", .kwRepeat),
  ("until", .kwUntil),
  ("for", .kwFor),
  ("to", .kwTo),
  ("step", .kwStep),
  ("next", .kwNext),
  ("exit", .kwExit),
  ("continue", .kwContinue),
  ("goto", .kwGoto),
  ("return", .kwReturn),
  ("function", .kwFunction),
  ("endfunction", .kwEndFunction),
  ("type", .kwType),
  ("endtype", .kwEndType),
  ("as", .kwAs),
  ("byref", .kwByRef),
  ("local", .kwLocal),
  ("global", .kwGlobal),
  ("dim", .kwDim),
  ("true", .kwTrue),
  ("false", .kwFalse),
  ("end", .kwEnd),
  ("and", .kwAnd),
  ("or", .kwOr),
  ("xor", .kwXor),
  ("not", .kwNot),
  ("mod", .kwMod),
  ("shl", .kwShl),
  ("shr", .kwShr)
]

def ofWord? (word : String) : Option Keyword :=
  spellings.lookup (fold word)

def spelling (keyword : Keyword) : String :=
  ((spellings.find? (·.2 = keyword)).map (·.1)).getD "?"

def tag : Keyword → String
  | .kwIf => "If"
  | .kwThen => "Then"
  | .kwElseIf => "ElseIf"
  | .kwElse => "Else"
  | .kwEndIf => "EndIf"
  | .kwSelect => "Select"
  | .kwCase => "Case"
  | .kwDefault => "Default"
  | .kwEndCase => "EndCase"
  | .kwEndSelect => "EndSelect"
  | .kwFallthrough => "Fallthrough"
  | .kwDo => "Do"
  | .kwLoop => "Loop"
  | .kwWhile => "While"
  | .kwEndWhile => "EndWhile"
  | .kwRepeat => "Repeat"
  | .kwUntil => "Until"
  | .kwFor => "For"
  | .kwTo => "To"
  | .kwStep => "Step"
  | .kwNext => "Next"
  | .kwExit => "Exit"
  | .kwContinue => "Continue"
  | .kwGoto => "Goto"
  | .kwReturn => "Return"
  | .kwFunction => "Function"
  | .kwEndFunction => "EndFunction"
  | .kwType => "Type"
  | .kwEndType => "EndType"
  | .kwAs => "As"
  | .kwByRef => "ByRef"
  | .kwLocal => "Local"
  | .kwGlobal => "Global"
  | .kwDim => "Dim"
  | .kwTrue => "True"
  | .kwFalse => "False"
  | .kwEnd => "End"
  | .kwAnd => "KwAnd"
  | .kwOr => "KwOr"
  | .kwXor => "KwXor"
  | .kwNot => "KwNot"
  | .kwMod => "KwMod"
  | .kwShl => "KwShl"
  | .kwShr => "KwShr"

/-- The punctuation that an operator written in letters stands for. -/
def operator? : Keyword → Option Punct
  | .kwAnd => some .andAnd
  | .kwOr => some .orOr
  | .kwXor => some .caretCaret
  | .kwNot => some .not
  | .kwMod => some .percent
  | .kwShl => some .shl
  | .kwShr => some .shr
  | _ => none

end Keyword

/-- A literal with its value. Integers fit 64 bits; a plain or `f` fraction is a
`float`, one with `d` a `double`. -/
inductive Literal where
  | str (text : String)
  | int (value : UInt64)
  | uint (value : UInt64)
  | float (value : Double)
  | double (value : Double)
deriving DecidableEq

inductive TokenKind where
  | punct (sign : Punct)
  | keyword (word : Keyword)
  | ident
  | literal (value : Literal)
  | eof
deriving DecidableEq

def Literal.describe : Literal → String
  | .str _ => "string literal"
  | _ => "number"

/-- The name of the literal's kind in a token listing. -/
def Literal.tag : Literal → String
  | .str _ => "Str"
  | .int _ => "Int"
  | .uint _ => "UInt"
  | .float _ => "Float"
  | .double _ => "Double"

namespace TokenKind

def isKeyword : TokenKind → Bool
  | .keyword _ => true
  | _ => false

def describe : TokenKind → String
  | .punct sign => sign.text
  | .keyword word => "'" ++ word.spelling ++ "'"
  | .ident => "identifier"
  | .literal value => value.describe
  | .eof => "end of input"

def tag : TokenKind → String
  | .punct sign => sign.tag
  | .keyword word => word.tag
  | .ident => "Ident"
  | .literal value => "Literal \x7b kind: " ++ value.tag ++ " \x7d"
  | .eof => "Eof"

end TokenKind

/-- A token of the source. `startsLine` marks the first token of a statement;
`isVirtual` one that is not written in the source but implied by it. -/
structure Token where
  kind : TokenKind
  text : String
  span : Span
  startsLine : Bool
  isVirtual : Bool

namespace Token

/-- The `endif` implied at the end of a line with a single-line `if`. -/
def impliedEndIf (pos : Nat) : Token :=
  ⟨.keyword .kwEndIf, "endif", ⟨pos, pos⟩, true, true⟩

def endOfInput (pos : Nat) : Token :=
  ⟨.eof, "", ⟨pos, pos⟩, true, false⟩

/-- Whether the token is a name that begins a statement, as a label does. -/
def isLineName (t : Token) : Bool := t.kind = .ident && t.startsLine

end Token

end BasicCompiler
