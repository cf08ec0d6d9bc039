/-
# The code of statements

Every block has a frame of its own, and so has every condition, so that what they make is released before control goes
on.
-/
import BasicCompiler.Lowering.Expr

namespace BasicCompiler.Lowering.Lower

/-! ## Statements without statements inside -/

/-- A condition; what it makes is released before control branches. -/
def condition (cond : Typed.Expr) : Lower Ir.Reg := withFrame (expr .value cond)

def dim (address : Ir.Reg) (ty : Ty) (size : Typed.Expr) : Lower Unit := do
  match ty.element? with
  | none => fail .notArray size.span
  | some elem =>
      let count ← expr .value size
      let elemSize ← constInt (Int64.ofNat ((← types).sizeOf elem)) .i64
      let old ← emit (.load address .handle)
      callVoid Owned.array.release [old]
      let array ← call "__rt_array_new" [count, elemSize]
      perform (.store address array)

def declaration (span : Span) (id : SymbolId) (size init : Option Typed.Expr) : Lower Unit := do
  match (← read).program.asVariable? id with
  | none => fail .notVariable span
  | some v =>
      let address ← varAddress id
      match size with
      | some size => dim address v.type size
      | none => pure ()
      match init with
      | some init =>
          let value ← expr .value init
          storeValue address value v.type
      | none => pure ()

/-- The value of an assignment, which may read what its target holds. -/
def assignedValue (address : Ir.Reg) (value : Typed.Expr) : Lower Ir.Reg :=
  withReader (fun env => { env with target := some address }) (expr .value value)

/-- Puts the lanes of `value`, from the number `lane` on, into components of a vector.
A single component takes the value itself. -/
def insertLanes (value : Ir.Reg) (isSingle : Bool) (lane : Nat) (vector : Ir.Reg) :
    List Nat → Lower Ir.Reg
  | [] => pure vector
  | axis :: axes => do
      let component ← if isSingle then pure value else emit (.extract value lane)
      let vector ← emit (.insert vector component axis)
      insertLanes value isSingle (lane + 1) vector axes

def assignment (target value : Typed.Expr) : Lower Unit := do
  match target with
  | .swizzle _ base axes =>
      let address ← expr .address base
      let value ← assignedValue address value
      let vector ← emit (.load address (← typeOf base.ty))
      let vector ← insertLanes value (axes.length = 1) 0 vector axes
      perform (.store address vector)
  | target =>
      let address ← expr .address target
      let value ← assignedValue address value
      storeValue address value target.ty

/-- The value that a `return` hands on: a string that is new is exempt from release, any
other string is copied. -/
def returnedValue (e : Typed.Expr) : Lower Ir.Reg := do
  let value ← expr .value e
  if !e.ty.isString then return value
  else if e.isFresh then
    changeCleanups (·.ignore value)
    return value
  else call "__rt_string_clone" [value]

def defaultReturn : Lower (Option Ir.Reg) := do
  let env ← read
  if env.isMain then return some (← constInt 0 .i32)
  else if env.result.isVoid then return none
  else return some (← constZero (← typeOf env.result))

/-- Returns from the function, with everything released. -/
def returnStmt (value : Option Typed.Expr) : Lower Unit := do
  let value ←
    match value with
    | some e => pure (some (← returnedValue e))
    | none => defaultReturn
  releaseFrom 0
  terminate (.ret value)

/-- Leaves the innermost loop, or begins its next round. -/
def leaveLoop (span : Span) (target : LoopTargets → Ir.BlockId) : Lower Unit := do
  match (← read).loop with
  | none => fail .noLoop span
  | some targets =>
      releaseFrom targets.depth
      br (target targets)
      detach "after.jump"

def fallThrough (span : Span) : Lower Unit := do
  match (← read).nextCase with
  | some ⟨some next, depth⟩ =>
      releaseFrom depth
      br next
      detach "after.fallthrough"
  | _ => fail .noNextCase span

def gotoLabel (id : SymbolId) : Lower Unit := do
  match (← read).labels.lookup id with
  | some target => br target
  | none => pure ()
  detach "after.goto"

def stop : Lower Unit := do
  callVoid "__rt_end" []
  terminate .unreachable
  detach "after.end"

/-! ## Parts of selections and loops -/

/-- Whether `value` equals one of the values, given that `hit` says so of those before. -/
def equalsAny (value : Ir.Reg) (ty : Ty) (hit : Option Ir.Reg) :
    List Typed.Expr → Lower Ir.Reg
  | [] =>
      match hit with
      | some hit => pure hit
      | none => emit (.const (.bool false) .bool)
  | e :: rest => do
      let candidate ← expr .value e
      let equal ← compare .eq value candidate ty
      let hit ←
        match hit with
        | some hit => emit (.binary .or hit equal)
        | none => pure equal
      equalsAny value ty (some hit) rest

/-- Tests the cases in order; control goes on in `otherwise` if none is met. -/
def caseTests (value : Ir.Reg) (ty : Ty) (otherwise : Ir.BlockId) :
    List (List Typed.Expr × Ir.BlockId) → Lower Unit
  | [] => br otherwise
  | [(values, body)] => do
      let hit ← withFrame (equalsAny value ty none values)
      condBr hit body otherwise
  | (values, body) :: rest => do
      let hit ← withFrame (equalsAny value ty none values)
      let next ← createBlock "case.test"
      condBr hit body next
      setBlock next
      caseTests value ty otherwise rest

def caseLabel (c : Typed.Case) : String := if c.values.isEmpty then "case.default" else "case.body"

/-- Adds the step to the variable of a loop. To a string the step is joined, and the
joined string is released once it is copied. -/
def advance (address current step : Ir.Reg) (ty : Ty) : Lower Unit := do
  if ty.isString then
    let next ← call "__rt_string_concat" [current, step]
    callVoid "__rt_string_assign" [address, next]
    callVoid Owned.string.release [next]
  else
    let next ← emit (.binary (if ty.isFloat then .fadd else .add) current step)
    perform (.store address next)

def inLoop (onExit onContinue : Ir.BlockId) (body : Lower Unit) : Lower Unit := do
  let depth ← depth
  withReader (fun env => { env with loop := some ⟨onExit, onContinue, depth⟩ }) body

def inCase (next : Option Ir.BlockId) (body : Lower Unit) : Lower Unit := do
  let depth ← depth
  withReader (fun env => { env with nextCase := some ⟨next, depth⟩ }) body

/-- A loop that tests its variable against the bound behind the body. -/
def inclusiveLoop (address bound step : Ir.Reg) (ty : Ty) (body : Lower Unit) : Lower Unit := do
  let type ← typeOf ty
  let bodyBlock ← createBlock "for.body"
  let after ← createBlock "for.end"
  let test ← createBlock "for.next"
  let next ← createBlock "for.step"
  setBlock bodyBlock
  inLoop after test body
  setBlock test
  let current ← emit (.load address type)
  let done ← compare .eq current bound ty
  condBr done after next
  setBlock next
  advance address current step ty
  br bodyBlock
  setBlock after

/-- A loop that tests its variable against the bound before the body. -/
def exclusiveLoop (address bound step : Ir.Reg) (ty : Ty) (body : Lower Unit) : Lower Unit := do
  let type ← typeOf ty
  let bodyBlock ← createBlock "for.body"
  let after ← createBlock "for.end"
  let head ← createBlock "for.head"
  let next ← createBlock "for.step"
  setBlock head
  let current ← emit (.load address type)
  let done ← compare .eq current bound ty
  condBr done after bodyBlock
  setBlock bodyBlock
  inLoop after next body
  setBlock next
  let current ← emit (.load address type)
  advance address current step ty
  br head
  setBlock after

/-- A `for` loop; the start, the bound and the step are evaluated once. -/
def forLoop (var start bound : Typed.Expr) (inclusive : Bool) (step : Option Typed.Expr)
    (body : Lower Unit) : Lower Unit := do
  let address ← expr .address var
  let first ← expr .value start
  storeValue address first var.ty
  let bound ← expr .value bound
  let step ←
    match step with
    | some step => expr .value step
    | none => one var.ty
  if inclusive then inclusiveLoop address bound step var.ty body
  else exclusiveLoop address bound step var.ty body

def doLoop (body : Lower Unit) : Lower Unit := do
  let bodyBlock ← createBlock "do.body"
  let after ← createBlock "do.end"
  setBlock bodyBlock
  inLoop after bodyBlock body
  br bodyBlock
  setBlock after

def whileLoop (cond : Typed.Expr) (body : Lower Unit) : Lower Unit := do
  let head ← createBlock "while.cond"
  let bodyBlock ← createBlock "while.body"
  let after ← createBlock "while.end"
  setBlock head
  let holds ← condition cond
  condBr holds bodyBlock after
  setBlock bodyBlock
  inLoop after head body
  br head
  setBlock after

def repeatLoop (body : Lower Unit) (cond : Typed.Expr) : Lower Unit := do
  let bodyBlock ← createBlock "repeat.body"
  let test ← createBlock "repeat.cond"
  let after ← createBlock "repeat.end"
  setBlock bodyBlock
  inLoop after test body
  setBlock test
  let holds ← condition cond
  condBr holds after bodyBlock
  setBlock after

def defaultBlock (cases : List Typed.Case) (bodies : List Ir.BlockId) (after : Ir.BlockId) :
    Ir.BlockId :=
  match (cases.zip bodies).find? fun (c, _) => c.values.isEmpty with
  | some (_, body) => body
  | none => after

def testedCases (cases : List Typed.Case) (bodies : List Ir.BlockId) :
    List (List Typed.Expr × Ir.BlockId) :=
  ((cases.zip bodies).map fun (c, body) => (c.values, body)).filter fun (values, _) => !values.isEmpty

/-! ## Statements and blocks -/

mutual

def stmt : Typed.Stmt → Lower Unit
  | .label _ id => do
      match (← read).labels.lookup id with
      | some block => setBlock block
      | none => pure ()
  | .declare span id size init => declaration span id size init
  | .assign _ target value => assignment target value
  | .eval _ e => effect e
  | .ifChain _ bs otherwise => do
      let tests ← createBlocks (fun _ => "if.test") bs.tail
      let bodies ← createBlocks (fun _ => "if.then") bs
      let elseBlock ← createBlocks (fun _ => "if.else") otherwise.toList
      let merge ← createBlock "if.end"
      branches merge (elseBlock.headD merge) tests bodies bs
      elseBranch merge (elseBlock.headD merge) otherwise
      setBlock merge
  | .select _ selector cs => do
      let value ← expr .value selector
      let after ← createBlock "select.end"
      let bodies ← createBlocks caseLabel cs
      caseTests value selector.ty (defaultBlock cs bodies after) (testedCases cs bodies)
      caseBodies after bodies cs
      setBlock after
  | .doLoop _ body => doLoop (block body)
  | .whileLoop _ cond body => whileLoop cond (block body)
  | .repeatLoop _ body cond => repeatLoop (block body) cond
  | .forLoop _ var start bound inclusive step body =>
      forLoop var start bound inclusive step (block body)
  | .goto _ id => gotoLabel id
  | .ret _ value => do
      returnStmt value
      detach "after.return"
  | .exitLoop span => leaveLoop span (·.onExit)
  | .continueLoop span => leaveLoop span (·.onContinue)
  | .fallthrough span => fallThrough span
  | .stop _ => stop

def stmts : List Typed.Stmt → Lower Unit
  | [] => pure ()
  | s :: rest => do
      stmt s
      stmts rest

def block : Typed.Block → Lower Unit
  | .mk _ body => withFrame (stmts body)

/-- Branches in order, the first being tested in the current block. `tests` are the
blocks that test the others, and control goes to `otherwise` behind the last. -/
def branches (merge otherwise : Ir.BlockId) (tests bodies : List Ir.BlockId) :
    List Typed.Branch → Lower Unit
  | [] => pure ()
  | .mk cond body :: rest => do
      let holds ← condition cond
      let bodyBlock := bodies.headD merge
      condBr holds bodyBlock (tests.headD otherwise)
      setBlock bodyBlock
      block body
      br merge
      match tests with
      | [] => branches merge otherwise [] bodies.tail rest
      | test :: tests => do
          setBlock test
          branches merge otherwise tests bodies.tail rest

def elseBranch (merge elseBlock : Ir.BlockId) : Option Typed.Block → Lower Unit
  | none => pure ()
  | some body => do
      setBlock elseBlock
      block body
      br merge

/-- The bodies of the cases, each in its block; `fallthrough` goes to the next one. -/
def caseBodies (after : Ir.BlockId) (bodies : List Ir.BlockId) : List Typed.Case → Lower Unit
  | [] => pure ()
  | .mk _ body :: rest => do
      setBlock (bodies.headD after)
      inCase bodies.tail.head? (block body)
      br after
      caseBodies after bodies.tail rest

end

end BasicCompiler.Lowering.Lower
