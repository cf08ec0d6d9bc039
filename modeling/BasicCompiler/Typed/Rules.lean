/-
# The types of expressions

How an expression is typed once its parts are: literals, members, vectors, operators and conversions. Nothing here
looks at names or changes anything but the expression.
-/
import BasicCompiler.Source.Tree
import BasicCompiler.Typed.CheckError
import BasicCompiler.Types.Promotion

namespace BasicCompiler.Typed

/-- What a rule makes of its parts, or all that it reports before it stops. -/
abbrev Result (α : Type) := Except (List CheckError) α

def refuse {α : Type} (fault : CheckFault) (span : Span) : Result α := .error [⟨fault, span, []⟩]

/-! ## Literals -/

/-- The first of int32, uint32, int64 and uint64 that holds a number. -/
def intLiteralType (value : UInt64) : BuiltinType :=
  if value < 0x80000000 then .int32
  else if value < 0x100000000 then .uint32
  else if value < 0x8000000000000000 then .int64
  else .uint64

def uintLiteralType (value : UInt64) : BuiltinType :=
  if value < 0x100000000 then .uint32 else .uint64

def typeLiteral (span : Span) : SourceLiteral → Expr
  | .token (.str value) => .const ⟨.string, span⟩ (.str value)
  | .token (.int value) => .const ⟨.builtin (intLiteralType value), span⟩ (.int value)
  | .token (.uint value) => .const ⟨.builtin (uintLiteralType value), span⟩ (.int value)
  | .token (.float value) => .const ⟨.builtin .float32, span⟩ (.float value)
  | .token (.double value) => .const ⟨.builtin .float64, span⟩ (.float value)
  | .bool value => .const ⟨.bool, span⟩ (.bool value)

/-! ## Conversions -/

/-- Converts an expression, where there is anything to convert. -/
def convertTo (e : Expr) (target : Ty) (conversion : Conversion) : Expr :=
  if conversion = .none then e else .convert ⟨target, e.span⟩ conversion e

/-- Converts an expression to a type, if that is possible. -/
def coerce (types : TypeTable) (e : Expr) (target : Ty) (mode : ConversionMode) : Result Expr :=
  let conversion := e.ty.conversion target mode
  if conversion.isValid then .ok (convertTo e target conversion)
  else refuse (.noConversion (types.nameOf e.ty) (types.nameOf target)) e.span

/-! ## Members and elements -/

/-- The axes that the letters name, in `xyzw` or in `rgba`, of a vector of `cols`. -/
def swizzleAxes? (name : String) (cols : Nat) : Option (List Nat) :=
  let letters := (fold name).toList
  match letters with
  | [] => none
  | first :: _ =>
      if 4 < letters.length then none
      else
        let alphabet := if "xyzw".toList.contains first then "xyzw".toList else "rgba".toList
        letters.mapM fun c => (alphabet.idxOf? c).filter (· < cols)

def vectorOf? : BuiltinType → Nat → Option BuiltinType
  | component, 1 => some component
  | .int32, 2 => some .vec2i
  | .int32, 3 => some .vec3i
  | .int32, 4 => some .vec4i
  | .float32, 2 => some .vec2f
  | .float32, 3 => some .vec3f
  | .float32, 4 => some .vec4f
  | .float64, 2 => some .vec2d
  | .float64, 3 => some .vec3d
  | .float64, 4 => some .vec4d
  | _, _ => none

def vector? (ty : Ty) : Option BuiltinType :=
  ty.builtin?.filter fun t => t.isSimd && t.info.rows = 1

def typeSwizzle (base : Expr) (t : BuiltinType) (name : Ident) (span : Span) : Result Expr :=
  match swizzleAxes? name.node t.info.cols with
  | none => refuse (.badSwizzle name.node t.name) name.span
  | some axes =>
      match vectorOf? t.component axes.length with
      | some result => .ok (.swizzle ⟨.builtin result, span⟩ base axes)
      | none => refuse .invalidSwizzle name.span

def typeMember (types : TypeTable) (base : Expr) (name : Ident) (span : Span) : Result Expr :=
  match base.ty.user? with
  | some id =>
      match (types.get id).member? name.node with
      | some (place, m) => .ok (.member ⟨m.type, span⟩ base place)
      | none => refuse (.noMember (types.nameOf base.ty) name.node) name.span
  | none =>
      match vector? base.ty with
      | some t => typeSwizzle base t name span
      | none => refuse (.noMembers (types.nameOf base.ty)) name.span

def elementType (types : TypeTable) (base : Expr) : Result Ty :=
  match base.ty.element? with
  | some elem => .ok elem
  | none => refuse (.notIndexable (types.nameOf base.ty)) base.span

def coerceIndex (types : TypeTable) (fault : String → CheckFault) (e : Expr) : Result Expr :=
  if e.ty.isInteger then coerce types e .int32 .implicit
  else refuse (fault (types.nameOf e.ty)) e.span

/-! ## Type names applied to values -/

def coerceAll (types : TypeTable) (target : Ty) (mode : ConversionMode) :
    List Expr → Result (List Expr)
  | [] => .ok []
  | e :: rest => do
      let e ← coerce types e target mode
      let rest ← coerceAll types target mode rest
      return e :: rest

/-- A vector of its components, or the conversion of one value. -/
def typeConstruct (types : TypeTable) (t : BuiltinType) (callee : Ident) (args : List Expr)
    (span : Span) : Result Expr :=
  let components := t.info.components
  if t.isSimd && args.length = components && 1 < components then do
    let parts ← coerceAll types (.builtin t.component) .implicit args
    return .construct ⟨.builtin t, span⟩ parts
  else
    match args with
    | [e] => do
        let e ← coerce types e (.builtin t) .explicit
        return e.withSpan span
    | _ => refuse (.argumentCount t args.length) callee.span

/-! ## Operators -/

/-- Whether a prefix operator may stand before a value of the type. -/
def operandAllowed : UnaryOp → Ty → Bool
  | .neg, ty => ty.isNumeric || ty.isSimd
  | .bitNot, ty => ty.isInteger
  | .not, _ => true

def typeUnary (types : TypeTable) (op : Spanned UnaryOp) (e : Expr) (span : Span) : Result Expr :=
  if !operandAllowed op.node e.ty then
    refuse (.badOperand op.node (types.nameOf e.ty)) op.span
  else do
    let e ← if op.node = .not then coerce types e .bool .implicit else .ok e
    return .unary ⟨e.ty, span⟩ op.node e

/-- Whether an operator may stand between two values of the type. -/
def operandsAllowed (op : BinaryOp) (t : BuiltinType) : Bool :=
  if t = .string then op = .add || op.isComparison
  else if t = .bool then op.isBitwise || op = .eq || op = .ne
  else if t.isSimd then op = .add || op = .sub || op = .mul || op = .div
  else if op.isBitwise then t.isInteger
  else t.isNumeric

def promoted? (left right : Ty) : Option BuiltinType :=
  match left.builtin?, right.builtin? with
  | some a, some b => a.promote b
  | _, _ => none

def typeBinary (types : TypeTable) (op : Spanned BinaryOp) (left right : Expr) (span : Span) :
    Result Expr :=
  if op.node.isLogical then do
    let left ← coerce types left .bool .implicit
    let right ← coerce types right .bool .implicit
    return .binary ⟨.bool, span⟩ op.node left right
  else
    match (promoted? left.ty right.ty).filter (operandsAllowed op.node) with
    | none =>
        refuse (.badOperands op.node (types.nameOf left.ty) (types.nameOf right.ty)) op.span
    | some t => do
        let left ← coerce types left (.builtin t) .implicit
        let right ← coerce types right (.builtin t) .implicit
        let result := if op.node.isComparison then Ty.bool else .builtin t
        return .binary ⟨result, span⟩ op.node left right

/-! ## Calls -/

def Expr.asArgument (e : Expr) : Argument := ⟨e.ty, e.isLvalue⟩

/-- How an argument is passed to the parameter it is bound to. -/
def passArgument (params : List Param) (e : Expr) (binding : Binding) : Arg :=
  match params[binding.param]? with
  | some p => if p.pass.needsLvalue then .place e else .value (convertTo e p.type binding.conversion)
  | none => .value e

def passArguments (params : List Param) (args : List Expr) (bindings : List Binding) : List Arg :=
  List.zipWith (passArgument params) args bindings

def paramText (types : TypeTable) (p : Param) : String :=
  let before :=
    match p.pass with
    | .value | .constRef => ""
    | .outRef => "out "
    | .inOutRef => "byref "
  before ++ types.nameOf p.type

def overloadText (types : TypeTable) (name : String) (o : Overload) : String :=
  name ++ "(" ++ ", ".intercalate (o.params.map (paramText types)) ++ ")"

def noOverloadError (types : TypeTable) (callee : Ident) (overloads : List Overload)
    (args : List Expr) (span : Span) : CheckError :=
  { fault := .noOverload callee.node (args.map fun e => types.nameOf e.ty)
    span := span
    notes := overloads.map fun o => ⟨.candidate (overloadText types callee.node o), o.span⟩ }

/-- The overload that a call means, with its arguments as it takes them. -/
def resolveCall (types : TypeTable) (callee : Ident) (overloads : List Overload)
    (args : List Expr) (span : Span) : Result (Overload × List Arg) :=
  let chosen := do
    let r ← resolve overloads (args.map Expr.asArgument)
    let o ← overloads[r.index]?
    return (o, passArguments o.params args r.bindings)
  match chosen with
  | some call => .ok call
  | none => .error [noOverloadError types callee overloads args span]

/-! ## Names without a type -/

/-- The type that the last character of a name stands for. -/
def suffixType (name : String) : Ty :=
  match lastChar name with
  | some '#' => .builtin .float32
  | some '$' => .string
  | _ => .int32

def loopVariableType (name : String) : Ty :=
  match lastChar name with
  | some '#' => .builtin .float32
  | some '$' => .string
  | _ => .builtin .intptr

end BasicCompiler.Typed
