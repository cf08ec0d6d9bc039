/-
# Reading expressions

Precedence climbing: an operand, then every operator that binds at least as tightly as asked for, with its right
operand.
-/
import BasicCompiler.Source.Parser.Reader

namespace BasicCompiler.Source.Parse

/-- The binary operator that the next token is, if it binds tightly enough and does
not begin a statement. -/
def nextBinaryOp? (least : Nat) : Parse (Option (Spanned BinaryOp)) := do
  let t ← peek
  if t.startsLine then return none
  match BinaryOp.ofToken? t with
  | some op => return if least ≤ op.precedence then some ⟨op, t.span⟩ else none
  | none => return none

def simpleTerm? (t : Token) : Option Expr :=
  match t.kind with
  | .keyword .kwTrue => some (.literal t.span (.bool true))
  | .keyword .kwFalse => some (.literal t.span (.bool false))
  | .literal value => some (.literal t.span (.token value))
  | .ident => some (.name t.span ⟨t.text, t.span⟩)
  | _ => none

def memberOf (base : Expr) : Parse Expr := do
  let id ← ident .memberName
  return .member (base.span.join id.span) base id

mutual

/-- An expression whose operators have at least the precedence `least`. -/
def exprAtLevel : Nat → Nat → Parse Expr
  | 0, _ => failNext fun _ => .exhausted
  | n + 1, least => do
      let left ← operand n
      binaryTail n least left

def binaryTail : Nat → Nat → Expr → Parse Expr
  | 0, _, _ => failNext fun _ => .exhausted
  | n + 1, least, left => do
      match ← nextBinaryOp? least with
      | none => return left
      | some op =>
          let _ ← advance
          let right ← exprAtLevel n op.node.rightLevel
          binaryTail n least (.binary (left.span.join right.span) op left right)

def operand : Nat → Parse Expr
  | 0 => failNext fun _ => .exhausted
  | n + 1 => do
      let t ← peek
      match UnaryOp.ofToken? t with
      | some op =>
          let _ ← advance
          let e ← exprAtLevel n op.precedence
          return .unary (t.span.join e.span) ⟨op, t.span⟩ e
      | none =>
          let e ← term n
          suffixTail n e

/-- A literal, a name, or an expression in parentheses. -/
def term : Nat → Parse Expr
  | 0 => failNext fun _ => .exhausted
  | n + 1 => do
      let t ← peek
      match simpleTerm? t with
      | some e =>
          let _ ← advance
          return e
      | none =>
          if t.kind = .punct .openParen then
            let _ ← advance
            let e ← exprAtLevel n 1
            let close ← consumePunct .closeParen .closeParenthesis
            return e.withSpan (t.span.join close.span)
          else expected .expression

def suffixTail : Nat → Expr → Parse Expr
  | 0, _ => failNext fun _ => .exhausted
  | n + 1, e => do
      let t ← peek
      if t.startsLine then return e
      match t.kind with
      | .punct .dot =>
          let _ ← advance
          suffixTail n (← memberOf e)
      | .punct .openSquare =>
          let _ ← advance
          let place ← exprAtLevel n 1
          let close ← consumePunct .closeSquare .closeIndex
          suffixTail n (.index (e.span.join close.span) e place)
      | .punct .openParen =>
          match e.asName? with
          | none => failNext fun _ => .calleeNotName
          | some callee =>
              let _ ← advance
              let args ← arguments n t.span
              suffixTail n (.call (e.span.join args.span) callee args.exprs args.span)
      | _ => return e

/-- Arguments behind an opening parenthesis, up to the closing one. -/
def arguments : Nat → Span → Parse ExprList
  | 0, _ => failNext fun _ => .exhausted
  | n + 1, openSpan => do
      let exprs ← if ← nextIs (.punct .closeParen) then pure [] else commaSeparated n
      let close ← consumePunct .closeParen .closeArguments
      return ⟨exprs, openSpan.join close.span⟩

def commaSeparated : Nat → Parse (List Expr)
  | 0 => failNext fun _ => .exhausted
  | n + 1 => do
      let e ← exprAtLevel n 1
      if ← eatPunct .comma then
        let rest ← commaSeparated n
        return e :: rest
      else return [e]

end

def expression : Parse Expr := do exprAtLevel (← steps) 1

def expressions : Parse (List Expr) := do commaSeparated (← steps)

/-- Arguments of a call behind the opening parenthesis at `openSpan`. -/
def callArguments (openSpan : Span) : Parse ExprList := do arguments (← steps) openSpan

end BasicCompiler.Source.Parse
