/-
# Checking expressions and statements

The functions follow the tree. A call of a function whose result is not known yet has that function analysed first;
how that is done comes in from outside as `analyse`.
-/
import BasicCompiler.Typed.Checker.State

namespace BasicCompiler.Typed.Check

/-! ## Expressions -/

/-- What stands before the arguments of a call. -/
inductive CalleeKind where
  | type (t : BuiltinType)
  | overloads (os : List Overload)

/-- A declared function wins over a type of the same name, a type over all else. -/
def calleeKind (callee : Ident) : Check CalleeKind := do
  let found ← lookUp callee.node .ancestors
  let kind ←
    match found with
    | some id => symbolKind id
    | none => pure none
  match kind, BuiltinType.ofName? callee.node with
  | some (.function overloads), _ => return .overloads overloads
  | _, some t => return .type t
  | some kind, none => fail (.notFunction callee.node kind.describe) callee.span
  | none, none => fail (.undeclaredFunction callee.node) callee.span

def call (analyse : FunctionId → Check Unit) (kind : CalleeKind) (callee : Ident)
    (args : List Expr) (span : Span) : Check Expr :=
  match kind with
  | .type t => rule fun types => typeConstruct types t callee args span
  | .overloads overloads => do
      let (chosen, args) ← rule fun types => resolveCall types callee overloads args span
      let result ←
        match chosen.callee with
        | .function id => resultOf analyse id callee.span
        | .command _ => pure chosen.result
      return .call ⟨result, span⟩ chosen.callee args

mutual

def expr (analyse : FunctionId → Check Unit) : Source.Expr → Check Expr
  | .literal span value => pure (typeLiteral span value)
  | .name span id => do
      match ← lookUp id.node .ancestors with
      | some symbol => varExpr symbol span
      | none => fail (.undeclared id.node) span
  | .member span base name => do
      let base ← expr analyse base
      rule fun types => typeMember types base name span
  | .index span base place => do
      let base ← expr analyse base
      let elem ← rule fun types => elementType types base
      let place ← expr analyse place
      let place ← rule fun types => coerceIndex types .indexNotInteger place
      return .index ⟨elem, span⟩ base place
  | .call span callee args _ => do
      let kind ← calleeKind callee
      let args ← exprs analyse args
      call analyse kind callee args span
  | .unary span op operand => do
      let operand ← expr analyse operand
      rule fun types => typeUnary types op operand span
  | .binary span op left right => do
      let left ← expr analyse left
      let right ← expr analyse right
      rule fun types => typeBinary types op left right span

def exprs (analyse : FunctionId → Check Unit) : List Source.Expr → Check (List Expr)
  | [] => pure []
  | e :: rest => do
      let e ← expr analyse e
      let rest ← exprs analyse rest
      return e :: rest

end

def exprAs (analyse : FunctionId → Check Unit) (target : Ty) (e : Source.Expr) : Check Expr := do
  let e ← expr analyse e
  rule fun types => coerce types e target .implicit

/-- Each expression checked and converted before the next. -/
def exprsAs (analyse : FunctionId → Check Unit) (target : Ty) : List Source.Expr → Check (List Expr)
  | [] => pure []
  | e :: rest => do
      let e ← exprAs analyse target e
      let rest ← exprsAs analyse target rest
      return e :: rest

def optional {α β : Type} (check : α → Check β) : Option α → Check (Option β)
  | none => pure none
  | some a => do return some (← check a)

/-! ## Statements without statements inside -/

/-- Whether a declaration in a body is that of a global. -/
def declaresGlobal (body : Body) (decl : Source.VarDecl) : Bool :=
  decl.scope = .globalVar || (body.function.isNone && decl.scope = .automatic)

def declaredVariable (decl : Source.VarDecl) : Check SymbolId := do
  let s ← get
  if declaresGlobal s.body decl then
    match s.predeclared.lookup decl.name.span with
    | some id => return id
    | none => fail .globalOutOfPlace decl.name.span
  else declareLocal decl.name (← declType decl)

def declaration (analyse : FunctionId → Check Unit) (decl : Source.VarDecl) (span : Span) :
    Check Stmt := do
  let id ← declaredVariable decl
  match (← symbolKind id).bind SymbolKind.asVariable? with
  | none => fail .declaresNoVariable decl.name.span
  | some v =>
      let dim ← optional (fun size => do
        let size ← expr analyse size
        rule fun types => coerceIndex types .sizeNotInteger size) decl.dim
      let init ← optional (exprAs analyse v.type) decl.init
      return .declare span id dim init

def placeExpr (analyse : FunctionId → Check Unit) (target : Source.Expr) : Check Expr := do
  let target ← expr analyse target
  if target.isLvalue then return target else fail .notAssignable target.span

/-- The target of an assignment. A plain assignment declares a name that means nothing
yet. -/
def assignTarget (analyse : FunctionId → Check Unit) (target : Source.Expr) (isPlain : Bool) :
    Check Expr := do
  match target.asName? with
  | none => placeExpr analyse target
  | some id =>
      match ← lookUp id.node .ancestors with
      | none =>
          if isPlain then
            let symbol ← declareLocal id (suffixType id.node)
            varExpr symbol id.span
          else placeExpr analyse target
      | some _ => placeExpr analyse target

def assignment (analyse : FunctionId → Check Unit) (target : Source.Expr)
    (op : Option (Spanned BinaryOp)) (value : Source.Expr) (span : Span) : Check Stmt := do
  let target ← assignTarget analyse target op.isNone
  let value ← expr analyse value
  let value ←
    match op with
    | some op => rule fun types => typeBinary types op target.reread value span
    | none => pure value
  let value ← rule fun types => coerce types value target.ty .implicit
  return .assign span target value

/-- The variable of a `for` loop, declared here if it means nothing yet. -/
def loopVariable (id : Ident) (hasStep : Bool) : Check Expr := do
  match ← lookUp id.node .ancestors with
  | some symbol =>
      let var ← varExpr symbol id.span
      if var.ty.isNumeric then return var
      else rule fun types => refuse (.loopVariableType id.node (types.nameOf var.ty)) id.span
  | none =>
      if lastChar id.node = some '$' && !hasStep then fail (.stringLoopStep id.node) id.span
      else
        let symbol ← declareLocal id (loopVariableType id.node)
        varExpr symbol id.span

def isSelectable (ty : Ty) : Bool := ty.isNumeric || ty.isString || ty = .bool

def selector (analyse : FunctionId → Check Unit) (e : Source.Expr) : Check Expr := do
  let e ← expr analyse e
  if isSelectable e.ty then return e
  else rule fun types => refuse (.notSelectable (types.nameOf e.ty)) e.span

/-- A returned value. The first one settles a result that is not declared. -/
def returnValue (analyse : FunctionId → Check Unit) (e : Source.Expr) : Check Expr := do
  let value ← expr analyse e
  match (← get).body.function with
  | none => fail .valueOutsideFunction e.span
  | some id =>
      let sig ← signature id e.span
      match sig.result with
      | some result =>
          if result.isVoid then fail (.returnsNothing sig.linkName) e.span
          else rule fun types => coerce types value result .implicit
      | none =>
          if value.ty.isVoid then fail .noValue e.span
          else
            setResult id value.ty
            return value

/-- Remembers the first `return` without a value inside a function. -/
def noteBareReturn (span : Span) : Check Unit :=
  modify fun s =>
    if s.body.function.isSome && s.body.bareReturn.isNone then
      { s with body := { s.body with bareReturn := some span } }
    else s

def gotoLabel (id : Ident) : Check SymbolId := do
  let found ← lookUp id.node .here
  let kind ← optional symbolKind found
  match found, kind with
  | some symbol, some (some (.label _)) => return symbol
  | _, _ => fail (.labelNotFound id.node) id.span

/-! ## Statements and blocks -/

mutual

def stmt (analyse : FunctionId → Check Unit) : Source.Stmt → Check Stmt
  | .label span id => do
      match ← lookUp id.node .here with
      | some symbol => return .label span symbol
      | none => fail .labelOutOfPlace id.span
  | .declare span decl => declaration analyse decl span
  | .assign span target op value => assignment analyse target op value span
  | .call span callee args => do
      let kind ← calleeKind callee
      let args ← exprs analyse args.exprs
      return .eval span (← call analyse kind callee args span)
  | .ifChain span bs otherwise => do
      let bs ← branches analyse bs
      let otherwise ← elseBlock analyse otherwise
      return .ifChain span bs otherwise
  | .select span value cs => do
      let value ← selector analyse value
      let cs ← cases analyse value.ty cs
      return .select span value cs
  | .doLoop span body => do return .doLoop span (← block analyse body)
  | .whileLoop span cond body => do
      let cond ← exprAs analyse .bool cond
      let body ← block analyse body
      return .whileLoop span cond body
  | .repeatLoop span body cond => do
      let body ← block analyse body
      let cond ← exprAs analyse .bool cond
      return .repeatLoop span body cond
  | .forLoop span id start bound inclusive step body => do
      let var ← loopVariable id step.isSome
      let start ← exprAs analyse var.ty start
      let bound ← exprAs analyse var.ty bound
      let step ← optional (exprAs analyse var.ty) step
      let body ← block analyse body
      return .forLoop span var start bound inclusive step body
  | .goto span id => do return .goto span (← gotoLabel id)
  | .ret span none => do
      noteBareReturn span
      return .ret span none
  | .ret span (some value) => do return .ret span (some (← returnValue analyse value))
  | .exitLoop span => pure (.exitLoop span)
  | .continueLoop span => pure (.continueLoop span)
  | .fallthrough span => pure (.fallthrough span)
  | .stop span => pure (.stop span)

def stmts (analyse : FunctionId → Check Unit) : List Source.Stmt → Check (List Stmt)
  | [] => pure []
  | s :: rest => do
      let s ← stmt analyse s
      let rest ← stmts analyse rest
      return s :: rest

def block (analyse : FunctionId → Check Unit) : Source.Block → Check Block
  | .mk span body => do return .mk span (← stmts analyse body)

def branches (analyse : FunctionId → Check Unit) : List Source.Branch → Check (List Branch)
  | [] => pure []
  | .mk cond body :: rest => do
      let cond ← exprAs analyse .bool cond
      let body ← block analyse body
      let rest ← branches analyse rest
      return .mk cond body :: rest

def elseBlock (analyse : FunctionId → Check Unit) : Option Source.Block → Check (Option Block)
  | none => pure none
  | some body => do return some (← block analyse body)

def cases (analyse : FunctionId → Check Unit) (ty : Ty) : List Source.Case → Check (List Case)
  | [] => pure []
  | .mk _ values body :: rest => do
      let values ← exprsAs analyse ty ((values.map (·.exprs)).getD [])
      let body ← block analyse body
      let rest ← cases analyse ty rest
      return .mk values body :: rest

end

end BasicCompiler.Typed.Check
