/-
# Why a statement is refused

The parser knows what surrounds a statement only by the flags of a `Place`.
-/
import BasicCompiler.Source.Parser.Program

namespace BasicCompiler.Source

open Parse

/-- A fault that is about what surrounds a statement. -/
def ParseFault.ofPlacement : ParseFault → Bool
  | .outsideLoop _ | .outsideCase | .fallthroughInLastCase | .valueOutsideFunction | .duplicateDefault => true
  | .expected _ _ | .calleeNotName | .missingAssignment | .notTopLevel _ | .nestedArray | .unclosedSelect
  | .wrongNextVariable _ _ | .unclosedType | .unterminatedBlock _ | .exhausted => false

/-! ## Where a statement stands -/

/-- What a statement can stand inside of. -/
inductive Frame where
  | loop
  /-- The body of a condition. -/
  | branch
  /-- The body of an `else`. -/
  | otherwise
  /-- A case, with its values and those of the cases before it; a default has none. -/
  | case (values : List (Option ExprList))

def Frame.isLoop : Frame → Bool
  | .loop => true
  | _ => false

def Frame.isCase : Frame → Bool
  | .case _ => true
  | _ => false

namespace Parse

def forHeader : Parse Unit := do
  let _ ← ident .loopVariable
  let _ ← consumePunct .eq .loopStart
  let _ ← expression
  let _ ← loopBoundWord
  let _ ← expression
  if ← eatWord .kwStep then
    let _ ← expression
    return ()
  else return ()

def loopHeader? : Keyword → Option (Parse Unit)
  | .kwDo | .kwRepeat => some (return ())
  | .kwWhile => some do
      let _ ← expression
      return ()
  | .kwFor => some forHeader
  | _ => none

def selectHeader : Parse Unit := do
  let _ ← expression
  endOfStatement

def functionHeader : Parse Unit := do
  let _ ← advance
  let _ ← ident .functionName
  let _ ← consumePunct .openParen .openParameters
  let _ ← params
  let _ ← optionalType
  return ()

end Parse

/-- Where a statement stands: inside of a function or not, and inside of frames, the
innermost first. -/
structure Spot where
  inFunction : Bool
  frames : List Frame

namespace Spot

def topLevel : Spot := ⟨false, []⟩

def functionBody : Spot := ⟨true, []⟩

def within (p : Spot) (f : Frame) : Spot := { p with frames := f :: p.frames }

/-- What the parser is told of a spot. -/
def place (p : Spot) : Place := ⟨p.inFunction, p.frames.any (·.isLoop), p.frames.any (·.isCase)⟩

end Spot

/-- In `text` one comes to a statement at a reader and a spot. -/
inductive Arrives (text : String) : TokenReader → Spot → Prop where
  | start : Arrives text (.ofStream (.ofText text)) .topLevel
  | item {r r' : TokenReader} {i : Item} (before : Arrives text r .topLevel) (read : item r = .ok (i, r')) :
      Arrives text r' .topLevel
  | function {r r' : TokenReader} (before : Arrives text r .topLevel)
      (begins : r.peek.kind = .keyword .kwFunction) (read : functionHeader r = .ok ((), r')) :
      Arrives text r' .functionBody
  | next {r r' : TokenReader} {p : Spot} {n : Nat} {place : Place} {s : Stmt} (before : Arrives text r p)
      (read : statement n place r = .ok (s, r')) : Arrives text r' p
  | loop {r r' : TokenReader} {p : Spot} {word : Keyword} {header : Parse Unit} (before : Arrives text r p)
      (begins : r.peek.kind = .keyword word) (isLoop : loopHeader? word = some header)
      (read : header r.advance = .ok ((), r')) : Arrives text r' (p.within .loop)
  | branch {r r' : TokenReader} {p : Spot} {cond : Expr} (before : Arrives text r p)
      (begins : r.peek.kind = .keyword .kwIf) (read : expression r.advance = .ok (cond, r')) :
      Arrives text r' (p.within .branch)
  | elseIf {r r' : TokenReader} {p : Spot} {cond : Expr} (before : Arrives text r (p.within .branch))
      (begins : r.peek.kind = .keyword .kwElseIf) (read : expression r.advance = .ok (cond, r')) :
      Arrives text r' (p.within .branch)
  | otherwise {r : TokenReader} {p : Spot} (before : Arrives text r (p.within .branch))
      (begins : r.peek.kind = .keyword .kwElse) : Arrives text r.advance (p.within .otherwise)
  | firstCase {r r₁ r' : TokenReader} {p : Spot} {seenDefault : Bool} {values : Option ExprList}
      (before : Arrives text r p) (begins : r.peek.kind = .keyword .kwSelect)
      (header : selectHeader r.advance = .ok ((), r₁)) (case : r₁.peek.kind = .keyword .kwCase)
      (read : caseValues seenDefault r₁.advance = .ok (values, r')) :
      Arrives text r' (p.within (.case [values]))
  | nextCase {r r₁ r' : TokenReader} {p : Spot} {seenDefault : Bool} {values : Option ExprList}
      {seen : List (Option ExprList)} (before : Arrives text r (p.within (.case seen)))
      (closed : eatLineWord .kwEndCase r = .ok ((), r₁)) (case : r₁.peek.kind = .keyword .kwCase)
      (read : caseValues seenDefault r₁.advance = .ok (values, r')) :
      Arrives text r' (p.within (.case (values :: seen)))

/-! ## Statements that break a rule -/

/-- The bodies in a statement out of which `fallthrough` leads to the case around it. -/
def Stmt.bodies : Stmt → List Block
  | .ifChain _ bs otherwise => bs.map (·.body) ++ otherwise.toList
  | .doLoop _ body | .whileLoop _ _ body | .repeatLoop _ body _ | .forLoop _ _ _ _ _ _ body => [body]
  | .label _ _ | .declare _ _ | .assign _ _ _ _ | .call _ _ _ | .select _ _ _ | .goto _ _ | .ret _ _
  | .exitLoop _ | .continueLoop _ | .fallthrough _ | .stop _ => []

/-- There is a `fallthrough` at `span` in a block, not inside of another case. -/
inductive Block.Falls (span : Span) : Block → Prop where
  | here {body : Block} (inside : .fallthrough span ∈ body.stmts) : Block.Falls span body
  | deeper {body b : Block} {s : Stmt} (inside : s ∈ body.stmts) (part : b ∈ s.bodies) (falls : b.Falls span) :
      Block.Falls span body

/-- What a fault of placement says of a text: a statement at the span stands where it may
not. -/
inductive Misplaced (text : String) : ParseFault → Span → Prop where
  | outsideLoop {r : TokenReader} {p : Spot} {word : Keyword} (there : Arrives text r p)
      (begins : r.peek.kind = .keyword word) (leaves : word = .kwExit ∨ word = .kwContinue)
      (none : ∀ f ∈ p.frames, f.isLoop = false) : Misplaced text (.outsideLoop (.keyword word)) r.peek.span
  | outsideCase {r : TokenReader} {p : Spot} (there : Arrives text r p)
      (begins : r.peek.kind = .keyword .kwFallthrough) (none : ∀ f ∈ p.frames, f.isCase = false) :
      Misplaced text .outsideCase r.peek.span
  | lastCase {r r₁ r₂ : TokenReader} {p : Spot} {n : Nat} {place : Place} {cs : List Case} {c : Case} {span : Span}
      (there : Arrives text r p) (begins : r.peek.kind = .keyword .kwSelect)
      (header : selectHeader r.advance = .ok ((), r₁)) (cases : cases n place false r₁ = .ok (cs, r₂))
      (last : cs.getLast? = some c) (falls : c.body.Falls span) : Misplaced text .fallthroughInLastCase span
  | returnedValue {r : TokenReader} {p : Spot} (there : Arrives text r p)
      (begins : r.peek.kind = .keyword .kwReturn) (outside : p.inFunction = false)
      (value : r.advance.peek.startsLine = false ∧ r.advance.peek.kind ≠ .eof) :
      Misplaced text .valueOutsideFunction r.peek.span
  | secondDefault {r r₁ : TokenReader} {p : Spot} {seen : List (Option ExprList)}
      (there : Arrives text r (p.within (.case seen))) (closed : eatLineWord .kwEndCase r = .ok ((), r₁))
      (case : r₁.peek.kind = .keyword .kwCase) (default : r₁.advance.peek.kind = .keyword .kwDefault)
      (before : none ∈ seen) : Misplaced text .duplicateDefault r₁.advance.peek.span

/-! ## The search for a `fallthrough` -/

mutual

theorem Block.falls_of_some {body : Block} (found : body.fallthrough? = some span) : body.Falls span := by
  cases body with
  | mk span stmts =>
    obtain ⟨s, inside, same | ⟨b, part, falls⟩⟩ := stmts_fall_of_some found
    · subst same
      exact .here inside
    · exact .deeper inside part falls

theorem stmts_fall_of_some (found : stmtsFallthrough? body = some span) :
    ∃ s ∈ body, s = .fallthrough span ∨ ∃ b ∈ s.bodies, b.Falls span := by
  cases body with
  | nil => cases found
  | cons s rest =>
    unfold stmtsFallthrough? at found
    split at found
    next here =>
      cases found
      exact ⟨s, List.mem_cons_self, Stmt.falls_of_some here⟩
    next =>
      obtain ⟨s', inside, falls⟩ := stmts_fall_of_some found
      exact ⟨s', List.mem_cons_of_mem _ inside, falls⟩

theorem branches_fall_of_some (found : branchesFallthrough? bs = some span) : ∃ b ∈ bs.map (·.body), b.Falls span := by
  cases bs with
  | nil => cases found
  | cons b rest =>
    cases b with
    | mk cond body =>
      unfold branchesFallthrough? at found
      split at found
      next here =>
        cases found
        exact ⟨body, List.mem_cons_self, Block.falls_of_some here⟩
      next =>
        obtain ⟨b', inside, falls⟩ := branches_fall_of_some found
        exact ⟨b', List.mem_cons_of_mem _ inside, falls⟩

theorem otherwise_falls_of_some (found : optionFallthrough? otherwise = some span) :
    ∃ b ∈ otherwise.toList, b.Falls span := by
  cases otherwise with
  | none => cases found
  | some body => exact ⟨body, List.mem_cons_self, Block.falls_of_some found⟩

theorem Stmt.falls_of_some {s : Stmt} (found : s.fallthrough? = some span) :
    s = .fallthrough span ∨ ∃ b ∈ s.bodies, b.Falls span := by
  cases s with
  | ifChain span bs otherwise =>
    unfold Stmt.fallthrough? at found
    refine .inr ?_
    split at found
    next here =>
      cases found
      obtain ⟨b, inside, falls⟩ := branches_fall_of_some here
      exact ⟨b, List.mem_append_left _ inside, falls⟩
    next =>
      obtain ⟨b, inside, falls⟩ := otherwise_falls_of_some found
      exact ⟨b, List.mem_append_right _ inside, falls⟩
  | doLoop _ body | whileLoop _ _ body | repeatLoop _ body _ | forLoop _ _ _ _ _ _ body =>
    exact .inr ⟨body, List.mem_cons_self, Block.falls_of_some found⟩
  | «fallthrough» span =>
    cases found
    exact .inl rfl
  | _ => cases found

end

end BasicCompiler.Source
