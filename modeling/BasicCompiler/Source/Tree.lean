/-
# A program as it is written

Expressions, statements, functions and type declarations, each with the place it was written at.
-/
import BasicCompiler.Source.Operator

namespace BasicCompiler

abbrev Ident := Spanned String

/-- A literal in an expression: a literal token, or `true` or `false`. -/
inductive SourceLiteral where
  | token (value : Literal)
  | bool (value : Bool)
deriving DecidableEq

namespace Source

/-- An expression. A pair of parentheses widens the span and leaves no other trace. -/
inductive Expr where
  | literal (span : Span) (value : SourceLiteral)
  | name (span : Span) (name : Ident)
  | member (span : Span) (base : Expr) (member : Ident)
  | index (span : Span) (base : Expr) (index : Expr)
  | call (span : Span) (callee : Ident) (args : List Expr) (argsSpan : Span)
  | unary (span : Span) (op : Spanned UnaryOp) (operand : Expr)
  | binary (span : Span) (op : Spanned BinaryOp) (left right : Expr)

namespace Expr

def span : Expr → Span
  | .literal span _ | .name span _ | .member span _ _ | .index span _ _
  | .call span _ _ _ | .unary span _ _ | .binary span _ _ _ => span

def withSpan (span : Span) : Expr → Expr
  | .literal _ value => .literal span value
  | .name _ id => .name span id
  | .member _ base id => .member span base id
  | .index _ base place => .index span base place
  | .call _ callee args argsSpan => .call span callee args argsSpan
  | .unary _ op operand => .unary span op operand
  | .binary _ op left right => .binary span op left right

/-- The name of an expression that is nothing but a name. -/
def asName? : Expr → Option Ident
  | .name _ id => some id
  | _ => none

end Expr

/-- Expressions between commas, with the place of the whole list. -/
structure ExprList where
  exprs : List Expr
  span : Span

/-- The name of a type, perhaps with `[]` behind it. -/
structure TypeName where
  name : Ident
  isArray : Bool
  span : Span

/-- Where a declared variable lives: `automatic` is global at the top level and local
inside a function. -/
inductive DeclScope where
  | automatic
  | localVar
  | globalVar
deriving DecidableEq

structure VarDecl where
  scope : DeclScope
  name : Ident
  /-- Without a type the last character of the name decides. -/
  type : Option TypeName
  /-- The number of elements of a `dim` array. -/
  dim : Option Expr
  init : Option Expr

mutual

/-- Statements that belong together. -/
inductive Block where
  | mk (span : Span) (stmts : List Stmt)

/-- A condition and what is run when it holds. -/
inductive Branch where
  | mk (cond : Expr) (body : Block)

/-- A case of a selection; the default case has no values. -/
inductive Case where
  | mk (span : Span) (values : Option ExprList) (body : Block)

inductive Stmt where
  | label (span : Span) (name : Ident)
  | declare (span : Span) (decl : VarDecl)
  | assign (span : Span) (target : Expr) (op : Option (Spanned BinaryOp)) (value : Expr)
  | call (span : Span) (callee : Ident) (args : ExprList)
  | ifChain (span : Span) (branches : List Branch) (otherwise : Option Block)
  | select (span : Span) (selector : Expr) (cases : List Case)
  | doLoop (span : Span) (body : Block)
  | whileLoop (span : Span) (cond : Expr) (body : Block)
  | repeatLoop (span : Span) (body : Block) (cond : Expr)
  /-- `inclusive` tells `to` from `until`. -/
  | forLoop (span : Span) (var : Ident) (start bound : Expr) (inclusive : Bool)
      (step : Option Expr) (body : Block)
  | goto (span : Span) (label : Ident)
  | ret (span : Span) (value : Option Expr)
  | exitLoop (span : Span)
  | continueLoop (span : Span)
  | fallthrough (span : Span)
  | stop (span : Span)

end

namespace Block

def span : Block → Span
  | .mk span _ => span

def stmts : Block → List Stmt
  | .mk _ stmts => stmts

end Block

namespace Branch

def cond : Branch → Expr
  | .mk cond _ => cond

def body : Branch → Block
  | .mk _ body => body

end Branch

namespace Case

def span : Case → Span
  | .mk span _ _ => span

def values : Case → Option ExprList
  | .mk _ values _ => values

def body : Case → Block
  | .mk _ _ body => body

end Case

def Stmt.span : Stmt → Span
  | .label span _ | .declare span _ | .assign span _ _ _ | .call span _ _
  | .ifChain span _ _ | .select span _ _ | .doLoop span _ | .whileLoop span _ _
  | .repeatLoop span _ _ | .forLoop span _ _ _ _ _ _ | .goto span _ | .ret span _
  | .exitLoop span | .continueLoop span | .fallthrough span | .stop span => span

structure Param where
  name : Ident
  type : Option TypeName
  byRef : Bool

structure Function where
  name : Ident
  params : List Param
  result : Option TypeName
  body : Block
  /-- The value written behind `endfunction`. -/
  endValue : Option Expr
  span : Span

structure Field where
  name : Ident
  type : TypeName

structure TypeDecl where
  name : Ident
  fields : List Field
  span : Span

structure Program where
  functions : List Function
  types : List TypeDecl
  stmts : List Stmt

end Source

end BasicCompiler
