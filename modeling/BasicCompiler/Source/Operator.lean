/-
# The operators of expressions

Binary operators bind by precedence, from 1 to 12, and group to the left, the power alone to the right. The prefix
operators have precedences of their own.
-/
import BasicCompiler.Token.Kind

namespace BasicCompiler

inductive BinaryOp where
  | add | sub | mul | div | mod | pow
  | bitOr | bitXor | bitAnd | shl | shr
  | eq | ne | lt | gt | le | ge
  | and | or | xor
deriving DecidableEq

namespace BinaryOp

def isComparison : BinaryOp → Bool
  | .eq | .ne | .lt | .gt | .le | .ge => true
  | _ => false

def isLogical : BinaryOp → Bool
  | .and | .or | .xor => true
  | _ => false

def isBitwise : BinaryOp → Bool
  | .bitOr | .bitXor | .bitAnd | .shl | .shr => true
  | _ => false

def text : BinaryOp → String
  | .add => "+"
  | .sub => "-"
  | .mul => "*"
  | .div => "/"
  | .mod => "%"
  | .pow => "^"
  | .bitOr => "|"
  | .bitXor => "~"
  | .bitAnd => "&"
  | .shl => "<<"
  | .shr => ">>"
  | .eq => "="
  | .ne => "<>"
  | .lt => "<"
  | .gt => ">"
  | .le => "<="
  | .ge => ">="
  | .and => "&&"
  | .or => "||"
  | .xor => "^^"

def precedence : BinaryOp → Nat
  | .or | .xor => 1
  | .and => 2
  | .eq | .ne | .lt | .gt | .le | .ge => 4
  | .bitOr => 5
  | .bitXor => 6
  | .bitAnd => 7
  | .shl | .shr => 8
  | .add | .sub => 9
  | .mul | .div | .mod => 10
  | .pow => 12

/-- The least precedence of an operator inside the right operand. -/
def rightLevel (op : BinaryOp) : Nat :=
  if op = .pow then op.precedence else op.precedence + 1

/-- The operator that a sign stands for between two operands. -/
def ofPunct? : Punct → Option BinaryOp
  | .orOr => some .or
  | .caretCaret => some .xor
  | .andAnd => some .and
  | .eq | .eqEq => some .eq
  | .ne => some .ne
  | .lt => some .lt
  | .gt => some .gt
  | .le => some .le
  | .ge => some .ge
  | .pipe => some .bitOr
  | .tilde => some .bitXor
  | .amp => some .bitAnd
  | .shl => some .shl
  | .shr => some .shr
  | .plus => some .add
  | .minus => some .sub
  | .star => some .mul
  | .slash => some .div
  | .percent => some .mod
  | .caret => some .pow
  | _ => none

def ofToken? (t : Token) : Option BinaryOp :=
  match t.kind with
  | .punct sign => ofPunct? sign
  | _ => none

def ofAssignment? (t : Token) : Option BinaryOp :=
  match t.kind with
  | .punct .plusEq => some .add
  | .punct .minusEq => some .sub
  | .punct .starEq => some .mul
  | .punct .slashEq => some .div
  | _ => none

end BinaryOp

inductive UnaryOp where
  | neg | not | bitNot
deriving DecidableEq

namespace UnaryOp

def text : UnaryOp → String
  | .neg => "-"
  | .not => "!"
  | .bitNot => "~"

def precedence : UnaryOp → Nat
  | .not => 3
  | .neg | .bitNot => 11

/-- The operator that a token stands for in front of an operand. -/
def ofToken? (t : Token) : Option UnaryOp :=
  match t.kind with
  | .punct .not => some .not
  | .punct .minus => some .neg
  | .punct .tilde => some .bitNot
  | _ => none

end UnaryOp

end BasicCompiler
