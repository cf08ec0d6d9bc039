/-
# A program with its types

Every expression has a type, every name is resolved to its symbol, and every conversion is a node of its own. An
argument is passed as a value or, where the parameter is written through, as a place.
-/
import BasicCompiler.Scope
import BasicCompiler.Source.Operator
import BasicCompiler.Types.Layout
import BasicCompiler.Types.Overload

namespace BasicCompiler

abbrev FunctionId := Nat

/-- Where a variable lives. -/
inductive Storage where
  | global
  | localVar
  | param (index : Nat) (byRef : Bool)
  | member (index : Nat)
deriving DecidableEq

structure Variable where
  type : Ty
  storage : Storage

/-- What a name stands for. -/
inductive SymbolKind where
  | variable (v : Variable)
  | function (overloads : List Overload)
  | label (index : Nat)
  | userType (id : UserTypeId)

namespace SymbolKind

def describe : SymbolKind → String
  | .variable _ => "variable"
  | .function _ => "function"
  | .label _ => "label"
  | .userType _ => "type"

def asVariable? : SymbolKind → Option Variable
  | .variable v => some v
  | _ => none

def isLabel : SymbolKind → Bool
  | .label _ => true
  | _ => false

end SymbolKind

namespace Typed

inductive Const where
  | int (value : UInt64)
  | float (value : Double)
  | bool (value : Bool)
  | str (value : String)

/-- The type of an expression and its place. -/
structure Info where
  ty : Ty
  span : Span

mutual

inductive Expr where
  | const (info : Info) (value : Const)
  | var (info : Info) (id : SymbolId)
  /-- The member of a number in a value of a declared type. -/
  | member (info : Info) (base : Expr) (index : Nat)
  /-- Components of a vector, in the order of `axes`. -/
  | swizzle (info : Info) (base : Expr) (axes : List Nat)
  | index (info : Info) (base : Expr) (index : Expr)
  | call (info : Info) (callee : Callee) (args : List Arg)
  /-- A vector or matrix built from its components. -/
  | construct (info : Info) (parts : List Expr)
  | unary (info : Info) (op : UnaryOp) (operand : Expr)
  | binary (info : Info) (op : BinaryOp) (left right : Expr)
  | convert (info : Info) (conversion : Conversion) (operand : Expr)
  /-- What the target of the enclosing compound assignment holds. -/
  | target (info : Info)

inductive Arg where
  | value (expr : Expr)
  /-- Passed as an address. -/
  | place (expr : Expr)

end

namespace Expr

def info : Expr → Info
  | .const info _ | .var info _ | .member info _ _ | .swizzle info _ _ | .index info _ _
  | .call info _ _ | .construct info _ | .unary info _ _ | .binary info _ _ _
  | .convert info _ _ | .target info => info

def ty (e : Expr) : Ty := e.info.ty

def span (e : Expr) : Span := e.info.span

def withSpan (span : Span) : Expr → Expr
  | .const info value => .const { info with span } value
  | .var info id => .var { info with span } id
  | .member info base place => .member { info with span } base place
  | .swizzle info base axes => .swizzle { info with span } base axes
  | .index info base place => .index { info with span } base place
  | .call info callee args => .call { info with span } callee args
  | .construct info parts => .construct { info with span } parts
  | .unary info op operand => .unary { info with span } op operand
  | .binary info op left right => .binary { info with span } op left right
  | .convert info conversion operand => .convert { info with span } conversion operand
  | .target info => .target { info with span }

def componentCount (e : Expr) : Nat :=
  match e.ty.builtin? with
  | some t => t.info.components
  | none => 0

/-- Whether the expression is a place that can be written to: components of a vector
are one if none is named twice. -/
def isLvalue : Expr → Bool
  | .var _ _ | .index _ _ _ => true
  | .member _ base _ => base.isLvalue
  | .swizzle _ base axes =>
      decide axes.Nodup && decide (axes.length ≤ base.componentCount) && base.isLvalue
  | _ => false

/-- The value of an assignment's target without evaluating the target again: of
components the whole vector is read. -/
def reread : Expr → Expr
  | .swizzle info base axes => .swizzle info (.target base.info) axes
  | e => .target e.info

/-- Whether evaluation makes a new string, which has to be released. -/
def isFresh : Expr → Bool
  | .const _ (.str _) | .call _ _ _ | .binary _ _ _ _ => true
  | .convert _ conversion _ => conversion = .toString
  | _ => false

end Expr

mutual

inductive Block where
  | mk (span : Span) (stmts : List Stmt)

inductive Branch where
  | mk (cond : Expr) (body : Block)

/-- A case of a selection; the default case has no values. -/
inductive Case where
  | mk (values : List Expr) (body : Block)

inductive Stmt where
  | label (span : Span) (id : SymbolId)
  | declare (span : Span) (var : SymbolId) (dim : Option Expr) (init : Option Expr)
  | assign (span : Span) (target value : Expr)
  | eval (span : Span) (expr : Expr)
  | ifChain (span : Span) (branches : List Branch) (otherwise : Option Block)
  | select (span : Span) (selector : Expr) (cases : List Case)
  | doLoop (span : Span) (body : Block)
  | whileLoop (span : Span) (cond : Expr) (body : Block)
  | repeatLoop (span : Span) (body : Block) (cond : Expr)
  | forLoop (span : Span) (var start bound : Expr) (inclusive : Bool) (step : Option Expr)
      (body : Block)
  | goto (span : Span) (label : SymbolId)
  | ret (span : Span) (value : Option Expr)
  | exitLoop (span : Span)
  | continueLoop (span : Span)
  | fallthrough (span : Span)
  | stop (span : Span)

end

namespace Block

def span : Block → Span
  | .mk span _ => span

def stmts : Block → List Stmt
  | .mk _ stmts => stmts

end Block

namespace Case

def values : Case → List Expr
  | .mk values _ => values

def body : Case → Block
  | .mk _ body => body

end Case

structure Function where
  name : String
  linkName : String
  symbol : Option SymbolId
  params : List SymbolId
  result : Ty
  /-- The variables of the body, parameters left out. -/
  locals : List SymbolId
  labels : List SymbolId
  scope : ScopeId
  body : Block
  /-- What is returned when control reaches the end. -/
  endValue : Option Expr
  span : Span

structure Command where
  name : String
  linkName : String
  params : List Param
  result : Ty

structure Program where
  scopes : ScopeTree SymbolKind
  types : TypeTable
  commands : List Command
  globals : List SymbolId
  functions : List Function
  main : Function

def Program.asVariable? (p : Program) (id : SymbolId) : Option Variable :=
  (p.scopes.get? id).bind (·.kind.asVariable?)

end Typed

end BasicCompiler
