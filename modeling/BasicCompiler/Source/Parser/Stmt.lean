/-
# Reading statements

A statement begins with a token that starts a line and ends before the next such token. Blocks run up to a word that
closes them at the start of a line.
-/
import BasicCompiler.Source.Parser.Expr

namespace BasicCompiler.Source

/-- What surrounds a statement. -/
structure Place where
  inFunction : Bool
  inLoop : Bool
  inCase : Bool

namespace Place

def topLevel : Place := ⟨false, false, false⟩

def functionBody : Place := ⟨true, false, false⟩

def loopBody (p : Place) : Place := { p with inLoop := true }

def caseBody (p : Place) : Place := { p with inCase := true }

end Place

/-! ## Where a `fallthrough` leads -/

mutual

/-- The first `fallthrough` that leaves the block, the ones of nested selections not
counted. -/
def Block.fallthrough? : Block → Option Span
  | .mk _ stmts => stmtsFallthrough? stmts

def stmtsFallthrough? : List Stmt → Option Span
  | [] => none
  | s :: rest =>
      match s.fallthrough? with
      | some span => some span
      | none => stmtsFallthrough? rest

def branchesFallthrough? : List Branch → Option Span
  | [] => none
  | .mk _ body :: rest =>
      match body.fallthrough? with
      | some span => some span
      | none => branchesFallthrough? rest

def optionFallthrough? : Option Block → Option Span
  | none => none
  | some body => body.fallthrough?

def Stmt.fallthrough? : Stmt → Option Span
  | .fallthrough span => some span
  | .ifChain _ branches otherwise =>
      match branchesFallthrough? branches with
      | some span => some span
      | none => optionFallthrough? otherwise
  | .doLoop _ body => body.fallthrough?
  | .whileLoop _ _ body => body.fallthrough?
  | .repeatLoop _ body _ => body.fallthrough?
  | .forLoop _ _ _ _ _ _ body => body.fallthrough?
  | .label _ _ | .declare _ _ | .assign _ _ _ _ | .call _ _ _ | .select _ _ _ | .goto _ _
  | .ret _ _ | .exitLoop _ | .continueLoop _ | .stop _ => none

end

namespace Parse

/-! ## Statements without statements inside -/

def typeName : Parse TypeName := do
  let id ← ident .typeName
  let t ← peek
  if t.kind = .punct .openSquare && !t.startsLine then
    let _ ← advance
    let close ← consumePunct .closeSquare .closeArrayType
    return ⟨id, true, id.span.join close.span⟩
  else return ⟨id, false, id.span⟩

def optionalType : Parse (Option TypeName) := do
  if ← eatWord .kwAs then return some (← typeName) else return none

/-- What follows the name of a declared variable: its type and its first value. -/
def declarationOf (scope : DeclScope) (id : Ident) (start : Span) : Parse Stmt := do
  let type ← optionalType
  let init ← if ← eatPunct .eq then pure (some (← expression)) else pure none
  return .declare (← spanFrom start) ⟨scope, id, type, none, init⟩

def qualifiedDeclaration (scope : DeclScope) (start : Span) : Parse Stmt := do
  let id ← ident .variableName
  declarationOf scope id start

def dimDeclaration (start : Span) : Parse Stmt := do
  let id ← ident .arrayName
  let _ ← consumePunct .openSquare .openArraySize
  let size ← expression
  let _ ← consumePunct .closeSquare .closeArraySize
  let type ← optionalType
  match type with
  | some t => if t.isArray then failBefore .nestedArray t.span
  | none => pure ()
  return .declare (← spanFrom start) ⟨.automatic, id, type, some size, none⟩

/-- The members and indices behind the name of an assignment's target. -/
def targetTail : Nat → Expr → Parse Expr
  | 0, _ => failNext fun _ => .exhausted
  | n + 1, target => do
      let t ← peek
      if t.startsLine then return target
      match t.kind with
      | .punct .dot =>
          let _ ← advance
          targetTail n (← memberOf target)
      | .punct .openSquare =>
          let _ ← advance
          let place ← expression
          let close ← consumePunct .closeSquare .closeIndex
          targetTail n (.index (target.span.join close.span) target place)
      | _ => return target

/-- The arguments of a command, up to the end of the statement. -/
def commandArguments (id : Ident) : Parse ExprList := do
  if ← atStatementEnd then return ⟨[], id.span⟩
  let exprs ← expressions
  return ⟨exprs, exprs.foldl (fun span e => span.join e.span) id.span⟩

/-- What the operator of an assignment is: plain, compound, or none of them. -/
def assignmentSign? (t : Token) : Option (Option (Spanned BinaryOp)) :=
  if t.startsLine then none
  else if t.kind = .punct .eq then some none
  else (BinaryOp.ofAssignment? t).map fun op => some ⟨op, t.span⟩

/-- An assignment to, or a command named, what begins with `id`. -/
def assignmentOrCommand (id : Ident) : Parse Stmt := do
  let target ← targetTail (← steps) (.name id.span id)
  match assignmentSign? (← peek) with
  | some op =>
      let _ ← advance
      let value ← expression
      return .assign (← spanFrom id.span) target op value
  | none =>
      if target.asName?.isNone then failNext fun _ => .missingAssignment
      else
        let args ← commandArguments id
        return .call (← spanFrom id.span) id args

/-- A statement that begins with a name: a label, a declaration, a call, an
assignment or a command. -/
def nameStatement : Parse Stmt := do
  let t ← advance
  let id : Ident := ⟨t.text, t.span⟩
  let next ← peek
  if next.kind = .punct .colon then
    let _ ← advance
    return .label (← spanFrom id.span) id
  else if next.kind = .keyword .kwAs then declarationOf .automatic id id.span
  else if next.kind = .punct .openParen && !next.startsLine then
    let _ ← advance
    let args ← callArguments next.span
    return .call (← spanFrom id.span) id args
  else assignmentOrCommand id

def returnStatement (place : Place) (start : Span) : Parse Stmt := do
  if ← atStatementEnd then return .ret (← spanFrom start) none
  if !place.inFunction then fail .valueOutsideFunction start
  else
    let value ← expression
    return .ret (← spanFrom start) (some value)

/-- Whether the bound of a loop belongs to it: `to` or `until`. -/
def loopBoundWord : Parse Bool := do
  if ← eatWord .kwTo then return true
  if ← eatWord .kwUntil then return false
  expected .loopBound

/-- The name behind `next`, which has to be that of the loop. -/
def nextVariable (var : Ident) : Parse Unit := do
  if ← atStatementEnd then return ()
  let t ← peek
  if t.kind = .ident && !sameName t.text var.node then
    fail (.wrongNextVariable t.text var.node) t.span
  else
    let _ ← ident .nextVariable
    return ()

/-- The values of a case behind `case`; the default has none. -/
def caseValues (seenDefault : Bool) : Parse (Option ExprList) := do
  if ← nextIs (.keyword .kwDefault) then
    if seenDefault then failNext fun _ => .duplicateDefault
    else
      let _ ← advance
      return none
  else
    let exprs ← expressions
    match exprs with
    | [] => return some ⟨[], Span.none⟩
    | first :: rest =>
        return some ⟨exprs, rest.foldl (fun span e => span.join e.span) first.span⟩

/-- Takes the next token if it is this word at the start of a line. -/
def eatLineWord (word : Keyword) : Parse Unit := do
  let t ← peek
  if t.kind = .keyword word && t.startsLine then
    let _ ← advance
    return ()
  else return ()

/-- The words that close the body of an `if` or `elseif`. -/
def branchClosers : List Keyword := [.kwElseIf, .kwElse, .kwEndIf]

def caseClosers : List Keyword := [.kwCase, .kwEndCase, .kwEndSelect]

def closes (closers : List Keyword) (t : Token) : Bool :=
  t.startsLine &&
    match t.kind with
    | .keyword word => closers.contains word
    | _ => false

/-! ## Statements and blocks -/

mutual

def statement : Nat → Place → Parse Stmt
  | 0, _ => failNext fun _ => .exhausted
  | n + 1, place => do
      let t ← peek
      if !t.startsLine then expected .endOfStatement
      else
        let s ← statementBody n place t
        endOfStatement
        return s

/-- A statement that begins with the token `t`, which is next. -/
def statementBody : Nat → Place → Token → Parse Stmt
  | 0, _, _ => failNext fun _ => .exhausted
  | n + 1, place, t => do
      match t.kind with
      | .ident => nameStatement
      | .keyword .kwLocal =>
          let _ ← advance
          qualifiedDeclaration .localVar t.span
      | .keyword .kwGlobal =>
          let _ ← advance
          qualifiedDeclaration .globalVar t.span
      | .keyword .kwDim =>
          let _ ← advance
          dimDeclaration t.span
      | .keyword .kwIf =>
          let _ ← advance
          ifStatement n place t.span
      | .keyword .kwSelect =>
          let _ ← advance
          let selector ← expression
          endOfStatement
          selectStatement n place t.span selector
      | .keyword .kwDo =>
          let _ ← advance
          let body ← block n place.loopBody [.kwLoop]
          let _ ← advance
          return .doLoop (← spanFrom t.span) body
      | .keyword .kwWhile =>
          let _ ← advance
          let cond ← expression
          let body ← block n place.loopBody [.kwEndWhile]
          let _ ← advance
          return .whileLoop (← spanFrom t.span) cond body
      | .keyword .kwRepeat =>
          let _ ← advance
          let body ← block n place.loopBody [.kwUntil]
          let _ ← advance
          let cond ← expression
          return .repeatLoop (← spanFrom t.span) body cond
      | .keyword .kwFor =>
          let _ ← advance
          forStatement n place t.span
      | .keyword .kwGoto =>
          let _ ← advance
          let label ← ident .labelName
          return .goto (← spanFrom t.span) label
      | .keyword .kwReturn =>
          let _ ← advance
          returnStatement place t.span
      | .keyword .kwExit =>
          if place.inLoop then
            let _ ← advance
            return .exitLoop (← spanFrom t.span)
          else failNext fun t => .outsideLoop t.kind
      | .keyword .kwContinue =>
          if place.inLoop then
            let _ ← advance
            return .continueLoop (← spanFrom t.span)
          else failNext fun t => .outsideLoop t.kind
      | .keyword .kwFallthrough =>
          if place.inCase then
            let _ ← advance
            return .fallthrough (← spanFrom t.span)
          else failNext fun _ => .outsideCase
      | .keyword .kwEnd =>
          let _ ← advance
          return .stop (← spanFrom t.span)
      | .keyword .kwFunction => failNext fun t => .notTopLevel t.kind
      | .keyword .kwType => failNext fun t => .notTopLevel t.kind
      | _ => expected .statement

/-- Statements up to, not including, a word that closes them. -/
def block : Nat → Place → List Keyword → Parse Block
  | 0, _, _ => failNext fun _ => .exhausted
  | n + 1, place, closers => do
      let first ← peek
      let stmts ← statements n place closers
      return .mk (← spanFrom first.span) stmts

def statements : Nat → Place → List Keyword → Parse (List Stmt)
  | 0, _, _ => failNext fun _ => .exhausted
  | n + 1, place, closers => do
      let t ← peek
      if closes closers t then return []
      else if t.kind = .eof then failNext fun _ => .unterminatedBlock closers
      else
        let s ← statement n place
        let rest ← statements n place closers
        return s :: rest

def ifStatement : Nat → Place → Span → Parse Stmt
  | 0, _, _ => failNext fun _ => .exhausted
  | n + 1, place, start => do
      let (branches, otherwise) ← branches n place
      return .ifChain (← spanFrom start) branches otherwise

/-- A condition with its body, and the branches behind it through `endif`. -/
def branches : Nat → Place → Parse (List Branch × Option Block)
  | 0, _ => failNext fun _ => .exhausted
  | n + 1, place => do
      let cond ← expression
      let body ← block n place branchClosers
      let closer ← advance
      match closer.kind with
      | .keyword .kwElseIf =>
          let (rest, otherwise) ← branches n place
          return (.mk cond body :: rest, otherwise)
      | .keyword .kwElse =>
          let otherwise ← block n place [.kwEndIf]
          let _ ← advance
          return ([.mk cond body], some otherwise)
      | _ => return ([.mk cond body], none)

def selectStatement : Nat → Place → Span → Expr → Parse Stmt
  | 0, _, _, _ => failNext fun _ => .exhausted
  | n + 1, place, start, selector => do
      let cases ← cases n place false
      match cases.getLast?.bind (·.body.fallthrough?) with
      | some span => failBefore .fallthroughInLastCase span
      | none => return .select (← spanFrom start) selector cases

def cases : Nat → Place → Bool → Parse (List Case)
  | 0, _, _ => failNext fun _ => .exhausted
  | n + 1, place, seenDefault => do
      let t ← peek
      match t.kind with
      | .keyword .kwEndSelect =>
          let _ ← advance
          return []
      | .keyword .kwCase =>
          let _ ← advance
          let values ← caseValues seenDefault
          let body ← block n place.caseBody caseClosers
          eatLineWord .kwEndCase
          let rest ← cases n place (seenDefault || values.isNone)
          return .mk t.span values body :: rest
      | .eof => failNext fun _ => .unclosedSelect
      | _ => expected .caseOrEnd

def forStatement : Nat → Place → Span → Parse Stmt
  | 0, _, _ => failNext fun _ => .exhausted
  | n + 1, place, start => do
      let var ← ident .loopVariable
      let _ ← consumePunct .eq .loopStart
      let first ← expression
      let inclusive ← loopBoundWord
      let bound ← expression
      let step ← if ← eatWord .kwStep then pure (some (← expression)) else pure none
      let body ← block n place.loopBody [.kwNext]
      let _ ← advance
      nextVariable var
      return .forLoop (← spanFrom start) var first bound inclusive step body

end

end Parse

end BasicCompiler.Source
