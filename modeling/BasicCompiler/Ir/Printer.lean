/-
# Modules as text

One line for each structure, global, block label, instruction and terminator, and an empty line before each function.
-/
import BasicCompiler.Decimal.Shortest
import BasicCompiler.Ir.Module
import BasicCompiler.Text.Quoted

namespace BasicCompiler.Ir

def regText (r : Reg) : String := "%" ++ toString r

def blockIdText (b : BlockId) : String := "bb" ++ toString b

def regsText (rs : List Reg) : String := ", ".intercalate (rs.map regText)

mutual

def Ty.text : Ty → String
  | .void => "void"
  | .bool => "i1"
  | .i8 => "i8"
  | .i16 => "i16"
  | .i32 => "i32"
  | .i64 => "i64"
  | .f16 => "f16"
  | .f32 => "f32"
  | .f64 => "f64"
  | .ptr inner => "*" ++ inner.text
  | .vector elem count => "<" ++ toString count ++ " x " ++ elem.text ++ ">"
  | .array elem count => "[" ++ toString count ++ " x " ++ elem.text ++ "]"
  | .struct fields => "\x7b" ++ ", ".intercalate (tyTexts fields) ++ "\x7d"

def tyTexts : List Ty → List String
  | [] => []
  | t :: rest => t.text :: tyTexts rest

end

def Constant.text : Constant → String
  | .int value => toString value.toInt
  | .float value => value.text
  | .bool value => if value then "true" else "false"
  | .null => "null"
  | .zero => "zeroinitializer"
  | .str text => quoted text

def BinaryOpcode.text : BinaryOpcode → String
  | .add => "add"
  | .sub => "sub"
  | .mul => "mul"
  | .sdiv => "sdiv"
  | .udiv => "udiv"
  | .srem => "srem"
  | .urem => "urem"
  | .fadd => "fadd"
  | .fsub => "fsub"
  | .fmul => "fmul"
  | .fdiv => "fdiv"
  | .frem => "frem"
  | .and => "and"
  | .or => "or"
  | .xor => "xor"
  | .shl => "shl"
  | .ashr => "ashr"
  | .lshr => "lshr"

def UnaryOpcode.text : UnaryOpcode → String
  | .neg => "neg"
  | .fneg => "fneg"
  | .not => "not"

def Predicate.text : Predicate → String
  | .eq => "eq"
  | .ne => "ne"
  | .slt => "slt"
  | .sle => "sle"
  | .sgt => "sgt"
  | .sge => "sge"
  | .ult => "ult"
  | .ule => "ule"
  | .ugt => "ugt"
  | .uge => "uge"

def Cast.text : Cast → String
  | .sext => "sext"
  | .zext => "zext"
  | .trunc => "trunc"
  | .fptosi => "fptosi"
  | .fptoui => "fptoui"
  | .sitofp => "sitofp"
  | .uitofp => "uitofp"
  | .fpcast => "fpcast"
  | .ptrtoint => "ptrtoint"
  | .inttoptr => "inttoptr"
  | .bitcast => "bitcast"

def Op.text : Op → String
  | .const value type => "const " ++ type.text ++ " " ++ value.text
  | .binary opcode left right => opcode.text ++ " " ++ regsText [left, right]
  | .unary opcode operand => opcode.text ++ " " ++ regText operand
  | .icmp predicate left right => "icmp " ++ predicate.text ++ " " ++ regsText [left, right]
  | .fcmp predicate left right => "fcmp " ++ predicate.text ++ " " ++ regsText [left, right]
  | .cast kind operand type => kind.text ++ " " ++ regText operand ++ " to " ++ type.text
  | .splat scalar type => "splat " ++ regText scalar ++ " to " ++ type.text
  | .vector lanes type => "vector " ++ type.text ++ " [" ++ regsText lanes ++ "]"
  | .extract source lane => "extractelement " ++ regText source ++ ", " ++ toString lane
  | .insert source value lane =>
      "insertelement " ++ regsText [source, value] ++ ", " ++ toString lane
  | .shuffle source lanes =>
      "shuffle " ++ regText source ++ " [" ++ ", ".intercalate (lanes.map toString) ++ "]"
  | .alloca type => "alloca " ++ type.text
  | .load address type => "load " ++ type.text ++ " " ++ regText address
  | .store address value => "store " ++ regsText [address, value]
  | .field address index => "getfieldptr " ++ regText address ++ ", " ++ toString index
  | .global name => "globalref @" ++ name
  | .call callee args => "call @" ++ callee ++ "(" ++ regsText args ++ ")"

def Instr.text (i : Instr) : String :=
  match i.result with
  | some r => regText r ++ " = " ++ i.op.text
  | none => i.op.text

def Terminator.text : Terminator → String
  | .ret none => "ret void"
  | .ret (some value) => "ret " ++ regText value
  | .br target => "br " ++ blockIdText target
  | .condBr cond onTrue onFalse =>
      "br " ++ regText cond ++ ", " ++ blockIdText onTrue ++ ", " ++ blockIdText onFalse
  | .unreachable => "unreachable"

def Block.lines (b : Block) : List String :=
  let head :=
    match b.label with
    | some label => blockIdText b.id ++ ":  ; " ++ label
    | none => blockIdText b.id ++ ":"
  let last :=
    match b.terminator with
    | some t => "  " ++ t.text
    | none => "  ; no terminator"
  head :: b.instrs.map (fun i => "  " ++ i.text) ++ [last]

def Function.lines : Function → List String
  | .external name params isVararg result =>
      let params := tyTexts params ++ if isVararg then ["..."] else []
      ["declare " ++ result.text ++ " @" ++ name ++ "(" ++ ", ".intercalate params ++ ")"]
  | .defined name params result blocks =>
      let params := params.map fun (r, t) => t.text ++ " " ++ regText r
      ["define " ++ result.text ++ " @" ++ name ++ "(" ++ ", ".intercalate params ++ ") \x7b"] ++
        blocks.flatMap Block.lines ++ ["\x7d"]

def Global.line (g : Global) : String :=
  let head := "@" ++ g.name ++ " = " ++ (if g.isConst then "constant " else "global ") ++ g.type.text
  match g.init with
  | some value => head ++ " " ++ value.text
  | none => head

def StructDef.line (s : StructDef) : String :=
  "type %" ++ s.name ++ " = " ++ (Ty.struct s.fields).text

def Module.lines (m : Module) : List String :=
  ("; module " ++ m.name) :: m.structs.map StructDef.line ++ m.globals.map Global.line ++
    m.functions.flatMap fun f => "" :: f.lines

/-- The text of a module; every line ends with a newline. -/
def Module.text (m : Module) : String := String.join (m.lines.map (· ++ "\n"))

end BasicCompiler.Ir
