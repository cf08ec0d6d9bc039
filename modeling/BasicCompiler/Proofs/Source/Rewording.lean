/-
# Programs under other names and at other places

A `Rewording` spells every name anew and moves every place. It respects what is ever asked of names and places: which
names are the same, and which span covers two others.
-/
import BasicCompiler.Source.Parser.Program

namespace BasicCompiler

/-- A new spelling of names and new places. -/
structure Rewording where
  name : String → String
  place : Span → Span
  name_same : ∀ a b, sameName (name a) (name b) = sameName a b
  place_join : ∀ a b, place (a.join b) = (place a).join (place b)
  place_none : place Span.none = Span.none

namespace Rewording

def erase : Rewording where
  name := id
  place _ := Span.none
  name_same _ _ := rfl
  place_join _ _ := rfl
  place_none := rfl

/-! ## Names and signs -/

variable (w : Rewording)

def ident (id : Ident) : Ident := ⟨w.name id.node, w.place id.span⟩

def sign {α : Type} (s : Spanned α) : Spanned α := ⟨s.node, w.place s.span⟩

def token (t : Token) : Token := ⟨t.kind, w.name t.text, w.place t.span, t.startsLine, false⟩

@[simp] theorem token_kind (t : Token) : (w.token t).kind = t.kind := rfl

@[simp] theorem token_span (t : Token) : (w.token t).span = w.place t.span := rfl

@[simp] theorem token_startsLine (t : Token) : (w.token t).startsLine = t.startsLine := rfl

end Rewording

/-! ## Trees -/

namespace Source

variable (w : Rewording)

mutual

def Expr.reword : Expr → Expr
  | .literal span value => .literal (w.place span) value
  | .name span id => .name (w.place span) (w.ident id)
  | .member span base id => .member (w.place span) base.reword (w.ident id)
  | .index span base place => .index (w.place span) base.reword place.reword
  | .call span callee args argsSpan => .call (w.place span) (w.ident callee) (rewordExprs args) (w.place argsSpan)
  | .unary span op operand => .unary (w.place span) (w.sign op) operand.reword
  | .binary span op left right => .binary (w.place span) (w.sign op) left.reword right.reword

def rewordExprs : List Expr → List Expr
  | [] => []
  | e :: rest => e.reword :: rewordExprs rest

end

def ExprList.reword (l : ExprList) : ExprList := ⟨rewordExprs w l.exprs, w.place l.span⟩

def TypeName.reword (t : TypeName) : TypeName := ⟨w.ident t.name, t.isArray, w.place t.span⟩

def VarDecl.reword (d : VarDecl) : VarDecl :=
  { scope := d.scope
    name := w.ident d.name
    type := d.type.map (·.reword w)
    dim := d.dim.map (·.reword w)
    init := d.init.map (·.reword w) }

mutual

def Block.reword : Block → Block
  | .mk span stmts => .mk (w.place span) (rewordStmts stmts)

def rewordStmts : List Stmt → List Stmt
  | [] => []
  | s :: rest => s.reword :: rewordStmts rest

def rewordBranches : List Branch → List Branch
  | [] => []
  | .mk cond body :: rest => .mk (cond.reword w) body.reword :: rewordBranches rest

def rewordCases : List Case → List Case
  | [] => []
  | .mk span values body :: rest => .mk (w.place span) (values.map (·.reword w)) body.reword :: rewordCases rest

def rewordElse : Option Block → Option Block
  | none => none
  | some body => some body.reword

def Stmt.reword : Stmt → Stmt
  | .label span id => .label (w.place span) (w.ident id)
  | .declare span decl => .declare (w.place span) (decl.reword w)
  | .assign span target op value => .assign (w.place span) (target.reword w) (op.map w.sign) (value.reword w)
  | .call span callee args => .call (w.place span) (w.ident callee) (args.reword w)
  | .ifChain span branches otherwise => .ifChain (w.place span) (rewordBranches branches) (rewordElse otherwise)
  | .select span selector cases => .select (w.place span) (selector.reword w) (rewordCases cases)
  | .doLoop span body => .doLoop (w.place span) body.reword
  | .whileLoop span cond body => .whileLoop (w.place span) (cond.reword w) body.reword
  | .repeatLoop span body cond => .repeatLoop (w.place span) body.reword (cond.reword w)
  | .forLoop span var start bound inclusive step body =>
      .forLoop (w.place span) (w.ident var) (start.reword w) (bound.reword w) inclusive
        (step.map (·.reword w)) body.reword
  | .goto span label => .goto (w.place span) (w.ident label)
  | .ret span value => .ret (w.place span) (value.map (·.reword w))
  | .exitLoop span => .exitLoop (w.place span)
  | .continueLoop span => .continueLoop (w.place span)
  | .fallthrough span => .fallthrough (w.place span)
  | .stop span => .stop (w.place span)

end

def Param.reword (p : Param) : Param := ⟨w.ident p.name, p.type.map (·.reword w), p.byRef⟩

def Function.reword (f : Function) : Function :=
  { name := w.ident f.name
    params := f.params.map (·.reword w)
    result := f.result.map (·.reword w)
    body := f.body.reword w
    endValue := f.endValue.map (·.reword w)
    span := w.place f.span }

def Field.reword (f : Field) : Field := ⟨w.ident f.name, f.type.reword w⟩

def TypeDecl.reword (t : TypeDecl) : TypeDecl := ⟨w.ident t.name, t.fields.map (·.reword w), w.place t.span⟩

def Program.reword (p : Program) : Program :=
  ⟨p.functions.map (·.reword w), p.types.map (·.reword w), rewordStmts w p.stmts⟩

end Source

end BasicCompiler
