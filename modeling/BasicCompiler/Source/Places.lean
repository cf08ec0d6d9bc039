/-
# Where the parts of a program stand

Lists the place of every part of a tree, each part before the parts it is made of, in the order of the tree.
-/
import BasicCompiler.Source.Tree

namespace BasicCompiler.Source

/-- What stands at a place. -/
inductive Part where
  | typeDecl
  | name
  | field
  | typeName
  | function
  | param
  | block
  | stmt
  | op
  | args
  | case
  | expr
deriving DecidableEq

def Part.text : Part → String
  | .typeDecl => "type"
  | .name => "name"
  | .field => "field"
  | .typeName => "typename"
  | .function => "function"
  | .param => "param"
  | .block => "block"
  | .stmt => "stmt"
  | .op => "op"
  | .args => "args"
  | .case => "case"
  | .expr => "expr"

abbrev PlacedPart := Spanned Part

def nameParts (id : Ident) : List PlacedPart := [⟨.name, id.span⟩]

def typeNameParts : Option TypeName → List PlacedPart
  | none => []
  | some t => [⟨.typeName, t.span⟩]

mutual

def Expr.parts : Expr → List PlacedPart
  | .literal span _ => [⟨.expr, span⟩]
  | .name span id => ⟨.expr, span⟩ :: nameParts id
  | .member span base id => ⟨.expr, span⟩ :: (base.parts ++ nameParts id)
  | .index span base place => ⟨.expr, span⟩ :: (base.parts ++ place.parts)
  | .call span callee args argsSpan =>
      ⟨.expr, span⟩ :: (nameParts callee ++ ⟨.args, argsSpan⟩ :: exprsParts args)
  | .unary span op operand => ⟨.expr, span⟩ :: ⟨.op, op.span⟩ :: operand.parts
  | .binary span op left right =>
      ⟨.expr, span⟩ :: ⟨.op, op.span⟩ :: (left.parts ++ right.parts)

def exprsParts : List Expr → List PlacedPart
  | [] => []
  | e :: rest => e.parts ++ exprsParts rest

end

def optionParts {α : Type} (parts : α → List PlacedPart) : Option α → List PlacedPart
  | none => []
  | some a => parts a

def ExprList.parts (l : ExprList) : List PlacedPart := ⟨.args, l.span⟩ :: exprsParts l.exprs

def VarDecl.parts (d : VarDecl) : List PlacedPart :=
  nameParts d.name ++ typeNameParts d.type ++ optionParts Expr.parts d.dim ++
    optionParts Expr.parts d.init

mutual

def Block.parts : Block → List PlacedPart
  | .mk span stmts => ⟨.block, span⟩ :: stmtsParts stmts

def stmtsParts : List Stmt → List PlacedPart
  | [] => []
  | s :: rest => s.parts ++ stmtsParts rest

def branchesParts : List Branch → List PlacedPart
  | [] => []
  | .mk cond body :: rest => cond.parts ++ body.parts ++ branchesParts rest

def casesParts : List Case → List PlacedPart
  | [] => []
  | .mk span values body :: rest =>
      ⟨.case, span⟩ :: (optionParts ExprList.parts values ++ body.parts ++ casesParts rest)

def elseParts : Option Block → List PlacedPart
  | none => []
  | some body => body.parts

def Stmt.parts : Stmt → List PlacedPart
  | .label span id => ⟨.stmt, span⟩ :: nameParts id
  | .declare span decl => ⟨.stmt, span⟩ :: decl.parts
  | .assign span target op value =>
      ⟨.stmt, span⟩ :: (target.parts ++ optionParts (fun op => [⟨.op, op.span⟩]) op ++ value.parts)
  | .call span callee args => ⟨.stmt, span⟩ :: (nameParts callee ++ args.parts)
  | .ifChain span branches otherwise =>
      ⟨.stmt, span⟩ :: (branchesParts branches ++ elseParts otherwise)
  | .select span selector cases => ⟨.stmt, span⟩ :: (selector.parts ++ casesParts cases)
  | .doLoop span body => ⟨.stmt, span⟩ :: body.parts
  | .whileLoop span cond body => ⟨.stmt, span⟩ :: (cond.parts ++ body.parts)
  | .repeatLoop span body cond => ⟨.stmt, span⟩ :: (body.parts ++ cond.parts)
  | .forLoop span var start bound _ step body =>
      ⟨.stmt, span⟩ :: (nameParts var ++ start.parts ++ bound.parts ++
        optionParts Expr.parts step ++ body.parts)
  | .goto span id => ⟨.stmt, span⟩ :: nameParts id
  | .ret span value => ⟨.stmt, span⟩ :: optionParts Expr.parts value
  | .exitLoop span | .continueLoop span | .fallthrough span | .stop span => [⟨.stmt, span⟩]

end

def TypeDecl.parts (t : TypeDecl) : List PlacedPart :=
  ⟨.typeDecl, t.span⟩ :: (nameParts t.name ++
    t.fields.flatMap fun f => [⟨.field, f.name.span⟩, ⟨.typeName, f.type.span⟩])

def Function.parts (f : Function) : List PlacedPart :=
  ⟨.function, f.span⟩ :: (nameParts f.name ++
    f.params.flatMap (fun p => ⟨.param, p.name.span⟩ :: typeNameParts p.type) ++
    typeNameParts f.result ++ f.body.parts ++ optionParts Expr.parts f.endValue)

def Program.parts (p : Program) : List PlacedPart :=
  p.types.flatMap TypeDecl.parts ++ p.functions.flatMap Function.parts ++ stmtsParts p.stmts

end BasicCompiler.Source
