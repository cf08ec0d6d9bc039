/-
# The code of expressions

Operands are evaluated from left to right, each exactly once. An expression is asked for its value or for its address;
a value of which an address is needed is put into a slot first.
-/
import BasicCompiler.Lowering.State

namespace BasicCompiler.Lowering.Lower

/-! ## Constants -/

def constant (value : Typed.Const) (ty : Ty) : Lower Ir.Reg := do
  match value with
  | .int value => constInt value.toInt64 (← typeOf ty)
  | .float value => emit (.const (.float value) (← typeOf ty))
  | .bool value => emit (.const (.bool value) .bool)
  | .str text =>
      let bytes ← build (·.stringConstant text)
      freshString "__rt_string_from_lit" [bytes]

def one (ty : Ty) : Lower Ir.Reg := do
  if ty.isFloat then emit (.const (.float Double.one) (← typeOf ty))
  else constInt 1 (← typeOf ty)

/-! ## Operators -/

def compare (op : BinaryOp) (left right : Ir.Reg) (ty : Ty) : Lower Ir.Reg := do
  if ty.isString then
    let order ← call "__rt_string_cmp" [left, right]
    let nought ← constInt 0 .i32
    emit (.icmp (predicate op true) order nought)
  else if ty.isFloat then emit (.fcmp (predicate op true) left right)
  else emit (.icmp (predicate op ty.isSigned) left right)

/-- The type and the runtime function that compute powers of the type `ty`. -/
def powerFunction (ty : Ty) : Ir.Ty × String :=
  if ty.isFloat then (.f64, "__rt_pow_f64")
  else if ty.isSigned then (.i64, "__rt_pow_i64")
  else (.i64, "__rt_pow_u64")

def power (left right : Ir.Reg) (ty : Ty) : Lower Ir.Reg := do
  let narrow ← typeOf ty
  let (wide, callee) := powerFunction ty
  let widen := resizeCast? narrow wide ty.isSigned
  let left ← castWith widen left wide
  let right ← castWith widen right wide
  let result ← call callee [left, right]
  castWith (resizeCast? wide narrow ty.isSigned) result narrow

/-- Applies an operator to two values of the type `ty`. -/
def binary (op : BinaryOp) (left right : Ir.Reg) (ty : Ty) : Lower Ir.Reg :=
  if op.isComparison then compare op left right ty
  else if ty.isString then freshString "__rt_string_concat" [left, right]
  else if op = .pow then power left right ty
  else emit (.binary (opcode op ty) left right)

def unary (op : UnaryOp) (operand : Ir.Reg) (ty : Ty) : Lower Ir.Reg :=
  match op with
  | .neg => emit (.unary (if ty.isFloat then .fneg else .neg) operand)
  | .not | .bitNot => emit (.unary .not operand)

/-! ## Conversions -/

def toText (value : Ir.Reg) (source : Ty) : Lower Ir.Reg := do
  let type ← typeOf source
  if source = .bool then freshString "__rt_to_string_bool" [value]
  else if source.isFloat then
    let wide ← castWith (resizeCast? type .f64 true) value .f64
    freshString "__rt_to_string_float" [wide]
  else
    let wide ← castWith (resizeCast? type .i64 source.isSigned) value .i64
    freshString (if source.isSigned then "__rt_to_string_int" else "__rt_to_string_uint") [wide]

def toTruth (value : Ir.Reg) (source : Ty) : Lower Ir.Reg := do
  let nought ← constZero (← typeOf source)
  if source.isFloat then emit (.fcmp .ne value nought) else emit (.icmp .ne value nought)

/-- A scalar converted to the component of a vector and put into every lane. -/
def splat (value : Ir.Reg) (source target : Ty) (span : Span) : Lower Ir.Reg := do
  match target.component? with
  | none => fail .invalidSplat span
  | some component =>
      let types ← types
      let scalar := Ty.builtin component
      let value ← castWith (numericCast? types source scalar) value (irType types scalar)
      emit (.splat value (irType types target))

def convert (conversion : Conversion) (value : Ir.Reg) (source target : Ty) (span : Span) :
    Lower Ir.Reg := do
  let types ← types
  match conversion with
  | .none => return value
  | .toString => toText value source
  | .toBool => toTruth value source
  | .splat => splat value source target span
  | .reinterpret =>
      let kind := reinterpretCast? (irType types source) (irType types target)
      castWith kind value (irType types target)
  | .extend | .truncate | .intToFloat | .floatToInt =>
      castWith (numericCast? types source target) value (irType types target)
  | .invalid => fail (.noConversion (types.nameOf source) (types.nameOf target)) span

/-! ## Calls -/

/-- The arguments as a command takes them: a missing optional one is zero, and the
number of the repeated ones stands before them. -/
def commandArgs : List Param → List Ir.Reg → Lower (List Ir.Reg)
  | [], _ => pure []
  | p :: params, regs => do
      if p.count.isRepeated then
        let count ← constInt (Int64.ofNat regs.length) .i32
        return count :: regs
      else
        match regs with
        | reg :: rest => return reg :: (← commandArgs params rest)
        | [] =>
            let nought ← constZero (paramType (← types) p.type p.pass)
            return nought :: (← commandArgs params [])

/-- The linked name of a callee and the arguments it takes. -/
def calleeWithArgs (callee : Callee) (regs : List Ir.Reg) : Lower (String × List Ir.Reg) := do
  let program := (← read).program
  match callee with
  | .function id => return ((program.functions[id]?.map (·.linkName)).getD "", regs)
  | .command index =>
      match program.commands[index]? with
      | some command => return (command.linkName, ← commandArgs command.params regs)
      | none => return ("", regs)

/-- Calls with evaluated arguments; a call without a result gives no register. -/
def callWith (callee : Callee) (regs : List Ir.Reg) (result : Ty) : Lower (Option Ir.Reg) := do
  let (name, args) ← calleeWithArgs callee regs
  if result.isVoid then
    callVoid name args
    return none
  else if result.isString then return some (← freshString name args)
  else return some (← call name args)

/-! ## Expressions -/

/-- What is wanted of an expression. -/
inductive Want where
  | value
  /-- The address of a place. -/
  | address
  /-- The address of a place, or of a slot with the value. -/
  | slot
deriving DecidableEq

def fromPlace (want : Want) (info : Typed.Info) (address : Ir.Reg) : Lower Ir.Reg := do
  match want with
  | .value => emit (.load address (← typeOf info.ty))
  | .address | .slot => return address

/-- Gives what is wanted of an expression that only has a value. -/
def fromValue (want : Want) (info : Typed.Info) (value : Lower Ir.Reg) : Lower Ir.Reg := do
  match want with
  | .value => value
  | .address => fail .noAddress info.span
  | .slot =>
      let value ← value
      let slot ← build (·.alloca (irType (← types) info.ty))
      perform (.store slot value)
      return slot

def components (vector : Ir.Reg) (axes : List Nat) : Lower Ir.Reg :=
  match axes with
  | [axis] => emit (.extract vector axis)
  | _ => emit (.shuffle vector axes)

mutual

def expr (want : Want) : Typed.Expr → Lower Ir.Reg
  | .var info id => do
      let address ← varAddress id
      fromPlace want info address
  | .member info base index => do
      let base ← expr .slot base
      let address ← emit (.field base index)
      fromPlace want info address
  | .index info base place => do
      let handle ← expr .value base
      let place ← expr .value place
      let raw ← call "__rt_array_elem" [handle, place]
      let address ← emit (.cast .bitcast raw (.ptr (← typeOf info.ty)))
      fromPlace want info address
  | .const info value => fromValue want info (constant value info.ty)
  | .swizzle info base axes =>
      fromValue want info do
        let vector ← expr .value base
        components vector axes
  | .call info callee args =>
      fromValue want info do
        let regs ← arguments args
        match ← callWith callee regs info.ty with
        | some reg => return reg
        | none => fail .noValue info.span
  | .construct info parts =>
      fromValue want info do
        let lanes ← exprs parts
        emit (.vector lanes (← typeOf info.ty))
  | .unary info op operand =>
      fromValue want info do
        let value ← expr .value operand
        unary op value operand.ty
  | .binary info op left right =>
      fromValue want info do
        let l ← expr .value left
        let r ← expr .value right
        binary op l r left.ty
  | .convert info conversion operand =>
      fromValue want info do
        let value ← expr .value operand
        convert conversion value operand.ty info.ty info.span
  | .target info =>
      fromValue want info do
        match (← read).target with
        | some address => emit (.load address (← typeOf info.ty))
        | none => fail .noTarget info.span

def exprs : List Typed.Expr → Lower (List Ir.Reg)
  | [] => pure []
  | e :: rest => do
      let reg ← expr .value e
      let regs ← exprs rest
      return reg :: regs

def argument : Typed.Arg → Lower Ir.Reg
  | .value e => expr .value e
  | .place e => expr .address e

def arguments : List Typed.Arg → Lower (List Ir.Reg)
  | [] => pure []
  | arg :: rest => do
      let reg ← argument arg
      let regs ← arguments rest
      return reg :: regs

end

/-- An expression whose value is not used; a call may have none. -/
def effect : Typed.Expr → Lower Unit
  | .call info callee args => do
      let regs ← arguments args
      let _ ← callWith callee regs info.ty
      return ()
  | e => do
      let _ ← expr .value e
      return ()

end BasicCompiler.Lowering.Lower
