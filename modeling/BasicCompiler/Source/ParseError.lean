/-
# Why a text is no program

`ParseError` keeps the fault, its place, and how many tokens had not been looked at
when it was found, since only what was looked at is known to be free of lexical faults.
-/
import BasicCompiler.Source.Tree

namespace BasicCompiler.Source

/-- What should have stood where something else was found. -/
inductive Expectation where
  | expression
  | statement
  | endOfStatement
  | memberName
  | closeIndex
  | closeArguments
  | closeParenthesis
  | labelName
  | variableName
  | arrayName
  | openArraySize
  | closeArraySize
  | typeName
  | closeArrayType
  | loopVariable
  | loopStart
  | loopBound
  | nextVariable
  | caseOrEnd
  | functionName
  | openParameters
  | parameterName
  | closeParameters
  | declaredTypeName
  | fieldName
  | fieldType

def Expectation.text : Expectation → String
  | .expression => "Expected expression"
  | .statement => "Expected statement"
  | .endOfStatement => "Expected end of statement"
  | .memberName => "Expected member name after '.'"
  | .closeIndex => "Expected ']' after array index"
  | .closeArguments => "Expected ')' after arguments"
  | .closeParenthesis => "Expected ')' after expression"
  | .labelName => "Expected label name after 'goto'"
  | .variableName => "Expected variable name"
  | .arrayName => "Expected array name after 'dim'"
  | .openArraySize => "Expected '[' after array name"
  | .closeArraySize => "Expected ']' after array size"
  | .typeName => "Expected type name"
  | .closeArrayType => "Expected ']' in array type"
  | .loopVariable => "Expected loop variable after 'for'"
  | .loopStart => "Expected '=' after loop variable"
  | .loopBound => "Expected 'to' or 'until'"
  | .nextVariable => "Expected loop variable after 'next'"
  | .caseOrEnd => "Expected 'case' or 'endselect'"
  | .functionName => "Expected function name"
  | .openParameters => "Expected '(' after function name"
  | .parameterName => "Expected parameter name"
  | .closeParameters => "Expected ')' after parameters"
  | .declaredTypeName => "Expected type name after 'type'"
  | .fieldName => "Expected field name"
  | .fieldType => "Expected 'as' after field name"

inductive ParseFault where
  | expected (what : Expectation) (found : TokenKind)
  | calleeNotName
  | missingAssignment
  | outsideLoop (word : TokenKind)
  | outsideCase
  | notTopLevel (word : TokenKind)
  | nestedArray
  | unclosedSelect
  | duplicateDefault
  | fallthroughInLastCase
  | wrongNextVariable (found wanted : String)
  | valueOutsideFunction
  | unclosedType
  | unterminatedBlock (closers : List Keyword)
  /-- The text is longer than the parser was prepared for. -/
  | exhausted

def ParseFault.message : ParseFault → String
  | .expected what found => what.text ++ ", found " ++ found.describe
  | .calleeNotName => "Only named functions can be called"
  | .missingAssignment => "Expected '=' after assignment target"
  | .outsideLoop word => word.describe ++ " is only allowed inside a loop"
  | .outsideCase => "'fallthrough' is only allowed inside a case"
  | .notTopLevel word => word.describe ++ " is only allowed at the top level"
  | .nestedArray => "Element type of a 'dim' array cannot be an array"
  | .unclosedSelect => "Expected 'endselect' to close 'select'"
  | .duplicateDefault => "Duplicate 'case default'"
  | .fallthroughInLastCase => "'fallthrough' in the last case has no case to fall into"
  | .wrongNextVariable found wanted =>
      s!"'next {found}' does not match the loop variable '{wanted}'"
  | .valueOutsideFunction => "Returning a value is only allowed inside a function"
  | .unclosedType => "Expected 'endtype' to close 'type'"
  | .unterminatedBlock closers =>
      "Unterminated block: expected " ++
        " or ".intercalate (closers.map fun k => (TokenKind.keyword k).describe)
  | .exhausted => "Program too long"

structure ParseError where
  fault : ParseFault
  span : Span
  /-- How many tokens, the end of input included, were never looked at. -/
  unseen : Nat

end BasicCompiler.Source
