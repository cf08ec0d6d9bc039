/-
# Programs in parentheses

Every node is written as a list in parentheses that begins with its name. Places are left out, so that programs laid
out differently have the same text.
-/
import BasicCompiler.Source.Tree
import BasicCompiler.Text.Quoted

namespace BasicCompiler.Source

def literalText : Literal → String
  | .str text => quoted text
  | .int value => toString value.toNat
  | .uint value => toString value.toNat ++ "u"
  | .float value => value.text ++ "f"
  | .double value => value.text ++ "d"

def sourceLiteralText : SourceLiteral → String
  | .token value => literalText value
  | .bool value => if value then "true" else "false"

mutual

def Expr.text : Expr → String
  | .literal _ value => sourceLiteralText value
  | .name _ id => id.node
  | .member _ base id => "(. " ++ base.text ++ " " ++ id.node ++ ")"
  | .index _ base place => "([] " ++ base.text ++ " " ++ place.text ++ ")"
  | .call _ callee args _ => "(call " ++ callee.node ++ exprsText args ++ ")"
  | .unary _ op operand => "(" ++ op.node.text ++ " " ++ operand.text ++ ")"
  | .binary _ op left right =>
      "(" ++ op.node.text ++ " " ++ left.text ++ " " ++ right.text ++ ")"

def exprsText : List Expr → String
  | [] => ""
  | e :: rest => " " ++ e.text ++ exprsText rest

end

def TypeName.text (t : TypeName) : String := t.name.node ++ (if t.isArray then "[]" else "")

def DeclScope.text : DeclScope → String
  | .automatic => ""
  | .localVar => "local "
  | .globalVar => "global "

/-- `before` and the text of a part that may be missing. -/
def optionText {α : Type} (before : String) (text : α → String) (after : String) :
    Option α → String
  | none => ""
  | some part => before ++ text part ++ after

def VarDecl.text (d : VarDecl) : String :=
  "(var " ++ d.scope.text ++ d.name.node ++ optionText " " TypeName.text "" d.type ++
    optionText " [" Expr.text "]" d.dim ++ optionText " = " Expr.text "" d.init ++ ")"

mutual

def Block.text : Block → String
  | .mk _ stmts => "(block" ++ stmtsText stmts ++ ")"

def stmtsText : List Stmt → String
  | [] => ""
  | s :: rest => " " ++ s.text ++ stmtsText rest

def branchesText : List Branch → String
  | [] => ""
  | .mk cond body :: rest => " (" ++ cond.text ++ " " ++ body.text ++ ")" ++ branchesText rest

def casesText : List Case → String
  | [] => ""
  | .mk _ (some values) body :: rest =>
      " (case" ++ exprsText values.exprs ++ " " ++ body.text ++ ")" ++ casesText rest
  | .mk _ none body :: rest => " (default " ++ body.text ++ ")" ++ casesText rest

def Stmt.text : Stmt → String
  | .label _ id => "(label " ++ id.node ++ ")"
  | .declare _ decl => decl.text
  | .assign _ target op value =>
      let sign := match op with
        | some op => op.node.text
        | none => ""
      "(" ++ sign ++ "= " ++ target.text ++ " " ++ value.text ++ ")"
  | .call _ callee args => "(call " ++ callee.node ++ exprsText args.exprs ++ ")"
  | .ifChain _ branches none => "(if" ++ branchesText branches ++ ")"
  | .ifChain _ branches (some body) =>
      "(if" ++ branchesText branches ++ " (else " ++ body.text ++ "))"
  | .select _ selector cases => "(select " ++ selector.text ++ casesText cases ++ ")"
  | .doLoop _ body => "(do " ++ body.text ++ ")"
  | .whileLoop _ cond body => "(while " ++ cond.text ++ " " ++ body.text ++ ")"
  | .repeatLoop _ body cond => "(repeat " ++ body.text ++ " " ++ cond.text ++ ")"
  | .forLoop _ var start bound inclusive step body =>
      "(for " ++ var.node ++ " " ++ start.text ++ (if inclusive then " to " else " until ") ++
        bound.text ++ optionText " step " Expr.text "" step ++ " " ++ body.text ++ ")"
  | .goto _ id => "(goto " ++ id.node ++ ")"
  | .ret _ (some value) => "(return " ++ value.text ++ ")"
  | .ret _ none => "(return)"
  | .exitLoop _ => "(exit)"
  | .continueLoop _ => "(continue)"
  | .fallthrough _ => "(fallthrough)"
  | .stop _ => "(end)"

end

def Param.text (p : Param) : String :=
  (if p.byRef then "byref " else "") ++ p.name.node ++ optionText " " TypeName.text "" p.type

def Function.text (f : Function) : String :=
  "(function " ++ f.name.node ++ " (" ++ " ".intercalate (f.params.map Param.text) ++ ")" ++
    optionText " " TypeName.text "" f.result ++ " " ++ f.body.text ++
    optionText " " Expr.text "" f.endValue ++ ")"

def Field.text (f : Field) : String := " (" ++ f.name.node ++ " " ++ f.type.text ++ ")"

def TypeDecl.text (t : TypeDecl) : String :=
  "(type " ++ t.name.node ++ String.join (t.fields.map Field.text) ++ ")"

/-- Types, functions and statements, one on each line. -/
def Program.text (p : Program) : String :=
  String.join ((p.types.map TypeDecl.text ++ p.functions.map Function.text ++
    p.stmts.map Stmt.text).map (· ++ "\n"))

end BasicCompiler.Source
