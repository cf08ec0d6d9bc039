/-
# Why a program is refused

Checking stops at its first fault. The report on it may be followed by notes: where the clashing declaration is, or
which overloads there were.
-/
import BasicCompiler.Diagnostic
import BasicCompiler.Typed.Tree

namespace BasicCompiler.Typed

inductive CheckFault where
  | badPattern (error : PatternError)
  | builtinTypeName (name : String)
  | containsItself (name : String)
  | alreadyDeclared (name kind : String)
  | sameParameters (name : String)
  | noValueType (name : String)
  | unknownType (name : String)
  | undeclared (name : String)
  | notVariable (name kind : String)
  | undeclaredFunction (name : String)
  | notFunction (name kind : String)
  | noOverload (name : String) (args : List String)
  | notIndexable (type : String)
  | indexNotInteger (type : String)
  | noMember (type name : String)
  | noMembers (type : String)
  | badSwizzle (name type : String)
  | invalidSwizzle
  | argumentCount (type : BuiltinType) (found : Nat)
  | badOperand (op : UnaryOp) (type : String)
  | badOperands (op : BinaryOp) (left right : String)
  | noConversion (source target : String)
  | sizeNotInteger (type : String)
  | notAssignable
  | notSelectable (type : String)
  | loopVariableType (name type : String)
  | stringLoopStep (name : String)
  | labelNotFound (name : String)
  | labelOutOfPlace
  | globalOutOfPlace
  | declaresNoVariable
  | valueOutsideFunction
  | returnsNothing (linkName : String)
  | noValue
  | mustReturn (name : String)
  | recursiveInference (linkName : String)
  /-- There is no function of this number. -/
  | noFunction (id : FunctionId)
  /-- Functions or types are nested deeper than there are any. -/
  | exhausted

def argumentCountMessage (type : BuiltinType) (found : Nat) : String :=
  if type.isSimd then s!"{type.name} takes 1 or {type.info.components} arguments, found {found}"
  else s!"{type.name} takes 1 argument, found {found}"

def CheckFault.message : CheckFault → String
  | .badPattern error => error.message
  | .builtinTypeName name => s!"'{name}' is the name of a built-in type"
  | .containsItself name => s!"Type '{name}' contains itself"
  | .alreadyDeclared name kind => s!"'{name}' is already declared as a {kind}"
  | .sameParameters name => s!"Function '{name}' is already declared with these parameters"
  | .noValueType name => s!"Type '{name}' cannot be used for a value"
  | .unknownType name => s!"Unknown type '{name}'"
  | .undeclared name => s!"'{name}' is not declared"
  | .notVariable name kind => s!"'{name}' is a {kind}, not a variable"
  | .undeclaredFunction name => s!"Function '{name}' is not declared"
  | .notFunction name kind => s!"'{name}' is a {kind}, not a function"
  | .noOverload name args => s!"No overload of '{name}' accepts (" ++ ", ".intercalate args ++ ")"
  | .notIndexable type => s!"Cannot index a value of type {type}"
  | .indexNotInteger type => s!"Array index must be an integer, found {type}"
  | .noMember type name => s!"Type {type} has no member '{name}'"
  | .noMembers type => s!"Value of type {type} has no members"
  | .badSwizzle name type => s!"Invalid swizzle '{name}' on {type}"
  | .invalidSwizzle => "Invalid swizzle"
  | .argumentCount type found => argumentCountMessage type found
  | .badOperand op type => s!"Operator '{op.text}' cannot be applied to {type}"
  | .badOperands op left right => s!"Operator '{op.text}' cannot be applied to {left} and {right}"
  | .noConversion source target => s!"Cannot convert {source} to {target}"
  | .sizeNotInteger type => s!"Array size must be an integer, found {type}"
  | .notAssignable => "Cannot assign to this expression"
  | .notSelectable type => s!"Cannot select on a value of type {type}"
  | .loopVariableType name type => s!"Loop variable '{name}' must be numeric, found {type}"
  | .stringLoopStep name => s!"String loop variable '{name}' needs a step"
  | .labelNotFound name => s!"Label '{name}' not found"
  | .labelOutOfPlace => "Label declared out of place"
  | .globalOutOfPlace => "Global declared out of place"
  | .declaresNoVariable => "Not a variable"
  | .valueOutsideFunction => "Returning a value is only allowed inside a function"
  | .returnsNothing linkName => s!"Function '{linkName}' does not return a value"
  | .noValue => "Expression has no value"
  | .mustReturn name => s!"Function '{name}' must return a value"
  | .recursiveInference linkName =>
      s!"Cannot infer the return type of '{linkName}' from a recursive call; declare it with 'as'"
  | .noFunction id => s!"No function {id}"
  | .exhausted => "Program too deep"

inductive CheckNote where
  | previousDeclaration
  | candidate (signature : String)

def CheckNote.message : CheckNote → String
  | .previousDeclaration => "previous declaration is here"
  | .candidate signature => s!"candidate: {signature}"

structure CheckError where
  fault : CheckFault
  span : Span
  notes : List (Spanned CheckNote)

def CheckError.reports (e : CheckError) : List Report :=
  ⟨.error, e.span, e.fault.message⟩ :: e.notes.map fun n => ⟨.note, n.span, n.node.message⟩

end BasicCompiler.Typed
