/-
# Statements stand where they belong

`exit` and `continue` stand inside a loop, `fallthrough` inside a case with another one behind it, and values are
returned inside a function. A selection has one default at most.
-/
import BasicCompiler.Proofs.Source.Reading

namespace BasicCompiler.Source

open List Bool

/-! ## Declarations in the order of the text -/

mutual

def Stmt.decls : Stmt → List VarDecl
  | .declare _ decl => [decl]
  | .ifChain _ bs otherwise => branchesDecls bs ++ otherwiseDecls otherwise
  | .select _ _ cs => casesDecls cs
  | .doLoop _ body | .whileLoop _ _ body | .repeatLoop _ body _ | .forLoop _ _ _ _ _ _ body => body.decls
  | .label _ _ | .assign _ _ _ _ | .call _ _ _ | .goto _ _ | .ret _ _ | .exitLoop _
  | .continueLoop _ | .fallthrough _ | .stop _ => []

def stmtsDecls : List Stmt → List VarDecl
  | [] => []
  | s :: rest => s.decls ++ stmtsDecls rest

def Block.decls : Block → List VarDecl
  | .mk _ body => stmtsDecls body

def branchesDecls : List Branch → List VarDecl
  | [] => []
  | .mk _ body :: rest => body.decls ++ branchesDecls rest

def otherwiseDecls : Option Block → List VarDecl
  | none => []
  | some body => body.decls

def casesDecls : List Case → List VarDecl
  | [] => []
  | .mk _ _ body :: rest => body.decls ++ casesDecls rest

end

/-! ## Placement -/

mutual

/-- Whether the statements that leave their surroundings stand where they can: `inLoop`
says that there is a loop around, `hasNext` that there is a case to fall through to. -/
def Stmt.Placed (inLoop hasNext : Bool) : Stmt → Prop
  | .ifChain _ bs otherwise => branchesPlaced inLoop hasNext bs ∧ otherwisePlaced inLoop hasNext otherwise
  | .select _ _ cs => casesPlaced inLoop cs
  | .doLoop _ body | .whileLoop _ _ body | .repeatLoop _ body _ | .forLoop _ _ _ _ _ _ body => body.Placed true hasNext
  | .exitLoop _ | .continueLoop _ => inLoop = true
  | .fallthrough _ => hasNext = true
  | .declare _ _ | .label _ _ | .assign _ _ _ _ | .call _ _ _ | .goto _ _ | .ret _ _ | .stop _ => True

def stmtsPlaced (inLoop hasNext : Bool) : List Stmt → Prop
  | [] => True
  | s :: rest => s.Placed inLoop hasNext ∧ stmtsPlaced inLoop hasNext rest

def Block.Placed (inLoop hasNext : Bool) : Block → Prop
  | .mk _ body => stmtsPlaced inLoop hasNext body

def branchesPlaced (inLoop hasNext : Bool) : List Branch → Prop
  | [] => True
  | .mk _ body :: rest => body.Placed inLoop hasNext ∧ branchesPlaced inLoop hasNext rest

def otherwisePlaced (inLoop hasNext : Bool) : Option Block → Prop
  | none => True
  | some body => body.Placed inLoop hasNext

def casesPlaced (inLoop : Bool) : List Case → Prop
  | [] => True
  | .mk _ _ body :: rest => body.Placed inLoop (!rest.isEmpty) ∧ casesPlaced inLoop rest

end

/-! ## Returned values and cases -/

mutual

/-- Whether values are returned only from functions, and every selection has at most one
default and a value for each other case. -/
def Stmt.Formed (inFunction : Bool) : Stmt → Prop
  | .ifChain _ bs otherwise => branchesFormed inFunction bs ∧ otherwiseFormed inFunction otherwise
  | .select _ _ cs => cs.countP (·.values.isNone) ≤ 1 ∧ casesFormed inFunction cs
  | .doLoop _ body | .whileLoop _ _ body | .repeatLoop _ body _ | .forLoop _ _ _ _ _ _ body => body.Formed inFunction
  | .ret _ value => value.isSome = true → inFunction = true
  | .declare _ _ | .label _ _ | .assign _ _ _ _ | .call _ _ _ | .goto _ _ | .exitLoop _ | .continueLoop _
  | .fallthrough _ | .stop _ => True

def stmtsFormed (inFunction : Bool) : List Stmt → Prop
  | [] => True
  | s :: rest => s.Formed inFunction ∧ stmtsFormed inFunction rest

def Block.Formed (inFunction : Bool) : Block → Prop
  | .mk _ body => stmtsFormed inFunction body

def branchesFormed (inFunction : Bool) : List Branch → Prop
  | [] => True
  | .mk _ body :: rest => body.Formed inFunction ∧ branchesFormed inFunction rest

def otherwiseFormed (inFunction : Bool) : Option Block → Prop
  | none => True
  | some body => body.Formed inFunction

def casesFormed (inFunction : Bool) : List Case → Prop
  | [] => True
  | .mk _ values body :: rest =>
      (∀ list, values = some list → list.exprs ≠ []) ∧ body.Formed inFunction ∧ casesFormed inFunction rest

end

/-! What does not fall through needs no case behind it. -/

mutual

theorem Stmt.Placed.withoutNext {s : Stmt} (placed : s.Placed inLoop true) (none : s.fallthrough? = none) :
    s.Placed inLoop false := by
  cases s with
  | ifChain span bs otherwise =>
    unfold Stmt.fallthrough? at none
    split at none
    · cases none
    next bsNone => exact ⟨branchesPlaced.withoutNext placed.1 bsNone, otherwisePlaced.withoutNext placed.2 none⟩
  | doLoop _ body | whileLoop _ _ body | repeatLoop _ body _ | forLoop _ _ _ _ _ _ body =>
    exact Block.Placed.withoutNext placed none
  | «fallthrough» span => cases none
  | _ => exact placed

theorem stmtsPlaced.withoutNext (placed : stmtsPlaced inLoop true body) (none : stmtsFallthrough? body = none) :
    stmtsPlaced inLoop false body := by
  cases body with
  | nil => trivial
  | cons s rest =>
    unfold stmtsFallthrough? at none
    split at none
    · cases none
    next sNone => exact ⟨Stmt.Placed.withoutNext placed.1 sNone, stmtsPlaced.withoutNext placed.2 none⟩

theorem Block.Placed.withoutNext {body : Block} (placed : body.Placed inLoop true) (none : body.fallthrough? = none) :
    body.Placed inLoop false := by
  cases body with
  | mk span body => exact stmtsPlaced.withoutNext placed none

theorem branchesPlaced.withoutNext (placed : branchesPlaced inLoop true bs) (none : branchesFallthrough? bs = none) :
    branchesPlaced inLoop false bs := by
  cases bs with
  | nil => trivial
  | cons b rest =>
    cases b with
    | mk cond body =>
      unfold branchesFallthrough? at none
      split at none
      · cases none
      next bodyNone => exact ⟨Block.Placed.withoutNext placed.1 bodyNone, branchesPlaced.withoutNext placed.2 none⟩

theorem otherwisePlaced.withoutNext (placed : otherwisePlaced inLoop true otherwise)
    (none : optionFallthrough? otherwise = none) : otherwisePlaced inLoop false otherwise := by
  cases otherwise with
  | none => trivial
  | some body => exact Block.Placed.withoutNext placed none

end

theorem casesPlaced_of_last {cs : List Case} (placed : ∀ c ∈ cs, c.body.Placed inLoop true)
    (none : cs.getLast?.bind (·.body.fallthrough?) = none) : casesPlaced inLoop cs := by
  induction cs with
  | nil => trivial
  | cons c rest ih =>
    cases c with
    | mk span values body =>
      have here : body.Placed inLoop true := placed _ mem_cons_self
      cases rest with
      | nil => exact ⟨here.withoutNext none, trivial⟩
      | cons next rest =>
        refine ⟨here, ih (fun c inside => placed c (mem_cons_of_mem _ inside)) ?_⟩
        exact none

/-! ## Statements without statements inside -/

def declNames (decls : List VarDecl) : List Ident := decls.map (·.name)

theorem declNames_append (front rest : List VarDecl) :
    declNames (front ++ rest) = declNames front ++ declNames rest := map_append

/-- A statement as it is read at a place, with the names it declares. -/
def Stmt.Fits (place : Place) (names : List Ident) (s : Stmt) : Prop :=
  names = declNames s.decls ∧ s.Placed place.inLoop place.inCase ∧ s.Formed place.inFunction

def Stmt.Declares (name : Ident) : Stmt → Prop
  | .declare _ decl => decl.name = name
  | _ => False

variable (place : Place)

theorem Stmt.Declares.fits {name : Ident} {s : Stmt} (h : s.Declares name) : s.Fits place [name] := by
  cases s with
  | declare _ decl =>
    cases h
    exact ⟨rfl, trivial, trivial⟩
  | _ => cases h

namespace Takes

theorem declarationOf (scope : DeclScope) (id : Ident) (start : Span) :
    Takes text r (Parse.declarationOf scope id start) fun names s => names = [] ∧ s.Declares id := by
  refine silent .optionalType fun type r1 => silent (.eat _) fun found r2 => ?_
  cases found with
  | true =>
    exact silent .expression fun e r3 => silent (.pure _) fun init r4 =>
      silent (.spanFrom start) fun span r5 => pure ⟨rfl, rfl⟩
  | false =>
    exact silent (.pure _) fun init r3 => silent (.spanFrom start) fun span r4 => pure ⟨rfl, rfl⟩

theorem qualifiedDeclaration (scope : DeclScope) (start : Span) :
    Takes text r (Parse.qualifiedDeclaration scope start) fun names s => ∃ name, names = [name] ∧ s.Declares name := by
  refine bind (ident _) fun names id r1 here => ?_
  refine (declarationOf scope id start).weaken fun more s answer => ?_
  rw [here, answer.1]
  exact ⟨id, rfl, answer.2⟩

theorem dimDeclaration (start : Span) :
    Takes text r (Parse.dimDeclaration start) fun names s => ∃ name, names = [name] ∧ s.Declares name := by
  refine bind (ident _) fun names id r1 here => ?_
  subst here
  refine silent (.consume _ _) fun _ r2 => silent .expression fun size r3 => ?_
  refine silent (.consume _ _) fun _ r4 => silent .optionalType fun type r5 => ?_
  split
  · split
    · exact stop fun placement => by cases placement
    · exact silent (.spanFrom start) fun span r6 => pure ⟨id, rfl, rfl⟩
  · exact silent (.spanFrom start) fun span r6 => pure ⟨id, rfl, rfl⟩

end Takes

def Stmt.IsPlain (s : Stmt) : Prop := s.decls = [] ∧ ∀ place : Place, s.Placed place.inLoop place.inCase ∧
  s.Formed place.inFunction

theorem Stmt.IsPlain.fits {s : Stmt} (h : s.IsPlain) : s.Fits place [] := by
  refine ⟨?_, h.2 place⟩
  rw [h.1]
  rfl

theorem Reads.targetTail (n : Nat) (target : Expr) : Reads (Parse.targetTail n target) := by
  induction n generalizing target with
  | zero => exact exhausted
  | succ n ih =>
    refine bind peek fun t => ?_
    split
    · exact pure _
    · split
      · exact bind advance fun _ => bind (memberOf target) fun e => ih e
      · exact bind advance fun _ => bind expression fun _ => bind (consume _ _) fun _ => ih _
      · exact pure _

theorem Reads.commandArguments (id : Ident) : Reads (Parse.commandArguments id) := by
  refine bind atStatementEnd fun ended => ?_
  cases ended with
  | true => exact pure _
  | false => exact bind expressions fun _ => pure _

namespace Takes

theorem assignmentOrCommand (id : Ident) :
    Takes text r (Parse.assignmentOrCommand id) fun names s => names = [] ∧ s.IsPlain := by
  refine silent .steps fun n r1 => silent (.targetTail _ _) fun target r2 => ?_
  refine silent .peek fun t r3 => ?_
  split
  · exact silent .advance fun _ r4 => silent .expression fun value r5 =>
      silent (.spanFrom _) fun span r6 => pure ⟨rfl, rfl, fun _ => ⟨trivial, trivial⟩⟩
  · split
    · exact failNext fun placement => by cases placement
    · exact silent (.commandArguments id) fun args r4 =>
        silent (.spanFrom _) fun span r5 => pure ⟨rfl, rfl, fun _ => ⟨trivial, trivial⟩⟩

theorem nameStatement (isName : r.peek.kind = .ident) : Takes text r Parse.nameStatement (Stmt.Fits place) := by
  refine name isName (silent .peek fun next r1 => ?_)
  split
  · exact silent .advance fun _ r2 => silent (.spanFrom _) fun span r3 => pure (.inr ⟨rfl, trivial, trivial⟩)
  · split
    · refine (declarationOf _ _ _).weaken fun more s answer => .inl ?_
      rw [answer.1]
      exact answer.2.fits place
    · split
      · exact silent .advance fun _ r2 => silent (.callArguments _) fun args r3 =>
          silent (.spanFrom _) fun span r4 => pure (.inr ⟨rfl, trivial, trivial⟩)
      · refine (assignmentOrCommand _).weaken fun more s answer => .inr ?_
        rw [answer.1]
        exact answer.2.fits place

theorem returnStatement (there : Arrives text r p) (begins : r.peek.kind = .keyword .kwReturn) :
    Takes text r.advance (Parse.returnStatement p.place r.peek.span) (Stmt.Fits p.place) := by
  refine after .atStatementEnd fun ended r1 looked => ?_
  cases looked
  split
  · exact silent (.spanFrom _) fun span r2 => pure ⟨rfl, trivial, fun isSome => (by cases isSome)⟩
  next more =>
    split
    next outside =>
      refine stop fun _ => .returnedValue there begins (not_eq_true' _ ▸ outside) ?_
      simpa using more
    next inside =>
      refine silent .expression fun value r2 => silent (.spanFrom _) fun span r3 => pure ⟨rfl, trivial, fun _ => ?_⟩
      simpa using inside

end Takes

theorem Reads.loopBoundWord : Reads Parse.loopBoundWord := by
  refine bind (eat _) fun isTo => ?_
  split
  · exact pure _
  · refine bind (eat _) fun isUntil => ?_
    split
    · exact pure _
    · exact expected _

theorem Reads.nextVariable (var : Ident) : Reads (Parse.nextVariable var) := by
  refine bind atStatementEnd fun ended => ?_
  split
  · exact pure _
  · refine bind peek fun t => ?_
    split
    · exact fun _ _ => .stop fun placement => by cases placement
    · exact bind (ident _) fun _ => pure _

theorem Reads.eatLineWord (word : Keyword) : Reads (Parse.eatLineWord word) := by
  refine bind peek fun t => ?_
  split
  · exact bind advance fun _ => pure _
  · exact pure _

/-! ## Values of cases -/

theorem commaSeparated_ne_nil (run : Parse.commaSeparated n r = .ok (es, r')) : es ≠ [] := by
  cases n with
  | zero => cases run
  | succ n =>
    obtain ⟨e, r1, -, run⟩ := Parse.bind_ok.mp run
    obtain ⟨more, r2, -, run⟩ := Parse.bind_ok.mp run
    cases more with
    | true =>
      obtain ⟨rest, r3, -, run⟩ := Parse.bind_ok.mp run
      cases run
      exact cons_ne_nil _ _
    | false =>
      cases run
      exact cons_ne_nil _ _

def AtCase (text : String) (r : TokenReader) (p : Spot) (seen : List (Option ExprList)) : Prop :=
  (seen = [] ∧ ∃ r₀, Arrives text r₀ p ∧ r₀.peek.kind = .keyword .kwSelect ∧
      Parse.selectHeader r₀.advance = .ok ((), r)) ∨
    ∃ r₀, Arrives text r₀ (p.within (.case seen)) ∧ Parse.eatLineWord .kwEndCase r₀ = .ok ((), r)

theorem AtCase.enter (there : AtCase text r p seen) (isCase : r.peek.kind = .keyword .kwCase)
    (read : Parse.caseValues seenDefault r.advance = .ok (values, r')) :
    Arrives text r' (p.within (.case (values :: seen))) := by
  rcases there with ⟨rfl, r0, before, begins, header⟩ | ⟨r0, before, closed⟩
  · exact .firstCase before begins header isCase read
  · exact .nextCase before closed isCase read

def hasDefault (seen : List (Option ExprList)) : Bool := seen.any (·.isNone)

theorem Takes.caseValues (there : AtCase text r p seen) (isCase : r.peek.kind = .keyword .kwCase) :
    Takes text r.advance (Parse.caseValues (hasDefault seen)) fun names values => names = [] ∧
      (values.isNone = true → hasDefault seen = false) ∧ ∀ list, values = some list → list.exprs ≠ [] := by
  refine after (.nextIs _) fun isDefault r1 looked => ?_
  cases looked
  split
  next isDefault =>
    split
    next twice =>
      refine failNext fun _ => ?_
      have before : none ∈ seen := by
        obtain ⟨values, inside, isNone⟩ := any_eq_true.mp twice
        rw [Option.isNone_iff_eq_none] at isNone
        rwa [isNone] at inside
      rcases there with ⟨rfl, -⟩ | ⟨r0, there, closed⟩
      · cases before
      · exact .secondDefault there closed isCase (of_decide_eq_true isDefault) before
    next once =>
      refine silent .advance fun _ _ => pure ⟨rfl, fun _ => eq_false_iff.mpr once, fun list same => ?_⟩
      cases same
  next =>
    refine after .expressions fun exprs r2 read => ?_
    have some_expr : exprs ≠ [] := by
      obtain ⟨n, r3, -, run⟩ := Parse.bind_ok.mp read
      exact commaSeparated_ne_nil run
    split
    next => exact absurd rfl some_expr
    next =>
      refine pure ⟨rfl, fun isNone => (by cases isNone), fun list same => ?_⟩
      cases same
      exact some_expr

/-! ## Statements and blocks -/

def Block.Fits (place : Place) (names : List Ident) (body : Block) : Prop :=
  names = declNames body.decls ∧ body.Placed place.inLoop place.inCase ∧ body.Formed place.inFunction

def stmtsFit (place : Place) (names : List Ident) (body : List Stmt) : Prop :=
  names = declNames (stmtsDecls body) ∧ stmtsPlaced place.inLoop place.inCase body ∧ stmtsFormed place.inFunction body

def branchesFit (place : Place) (names : List Ident) (p : List Branch × Option Block) : Prop :=
  names = declNames (branchesDecls p.1 ++ otherwiseDecls p.2) ∧
    (branchesPlaced place.inLoop place.inCase p.1 ∧ otherwisePlaced place.inLoop place.inCase p.2) ∧
    branchesFormed place.inFunction p.1 ∧ otherwiseFormed place.inFunction p.2

def casesFit (place : Place) (seenDefault : Bool) (names : List Ident) (cs : List Case) : Prop :=
  names = declNames (casesDecls cs) ∧ (∀ c ∈ cs, c.body.Placed place.inLoop true) ∧
    casesFormed place.inFunction cs ∧ cs.countP (·.values.isNone) ≤ (if seenDefault then 0 else 1)

theorem Arrives.statements {place : Place} (there : Arrives text r p)
    (read : Parse.statements n place closers r = .ok (body, r')) : Arrives text r' p := by
  induction n generalizing r body with
  | zero => cases read
  | succ n ih =>
    obtain ⟨t, r1, looked, read⟩ := Parse.bind_ok.mp read
    cases looked
    split at read
    · cases read
      exact there
    · split at read
      · cases read
      · obtain ⟨s, r2, first, read⟩ := Parse.bind_ok.mp read
        obtain ⟨rest, r3, later, read⟩ := Parse.bind_ok.mp read
        cases read
        exact ih (.next there first) later

theorem Arrives.block {place : Place} (there : Arrives text r p) (read : Parse.block n place closers r = .ok (body, r')) :
    Arrives text r' p := by
  cases n with
  | zero => cases read
  | succ n =>
    obtain ⟨t, r1, looked, read⟩ := Parse.bind_ok.mp read
    cases looked
    obtain ⟨stmts, r2, inner, read⟩ := Parse.bind_ok.mp read
    cases read
    exact there.statements inner

/-- What the functions that read statements take, with calls nested at most `n` deep. -/
structure ReadsStmts (text : String) (n : Nat) : Prop where
  statement : ∀ (p : Spot) r, Arrives text r p → Takes text r (Parse.statement n p.place) (Stmt.Fits p.place)
  statementBody : ∀ (p : Spot) r, Arrives text r p →
    Takes text r (Parse.statementBody n p.place r.peek) (Stmt.Fits p.place)
  block : ∀ (p : Spot) closers r, Arrives text r p → Takes text r (Parse.block n p.place closers) (Block.Fits p.place)
  statements : ∀ (p : Spot) closers r, Arrives text r p →
    Takes text r (Parse.statements n p.place closers) (stmtsFit p.place)
  ifStatement : ∀ (p : Spot) start r,
    (∀ cond r', Parse.expression r = .ok (cond, r') → Arrives text r' (p.within .branch)) →
    Takes text r (Parse.ifStatement n p.place start) (Stmt.Fits p.place)
  branches : ∀ (p : Spot) r, (∀ cond r', Parse.expression r = .ok (cond, r') → Arrives text r' (p.within .branch)) →
    Takes text r (Parse.branches n p.place) (branchesFit p.place)
  selectStatement : ∀ (p : Spot) start selector r₀ r, Arrives text r₀ p → r₀.peek.kind = .keyword .kwSelect →
    Parse.selectHeader r₀.advance = .ok ((), r) →
    Takes text r (Parse.selectStatement n p.place start selector) (Stmt.Fits p.place)
  cases : ∀ (p : Spot) seen r, AtCase text r p seen →
    Takes text r (Parse.cases n p.place (hasDefault seen)) (casesFit p.place (hasDefault seen))
  forStatement : ∀ (p : Spot) start r, (∀ r', Parse.forHeader r = .ok ((), r') → Arrives text r' (p.within .loop)) →
    Takes text r (Parse.forStatement n p.place start) (Stmt.Fits p.place)

namespace ReadsStmts

open Takes

variable {p : Spot} (inner : ReadsStmts text n)
include inner

theorem statement_succ (there : Arrives text r p) :
    Takes text r (Parse.statement (n + 1) p.place) (Stmt.Fits p.place) := by
  refine peek ?_
  split
  · exact expected _
  · refine bind (inner.statementBody p r there) fun names s r1 fits => silent .endOfStatement fun _ r2 => ?_
    refine pure ?_
    rw [append_nil]
    exact fits

theorem block_succ (closers : List Keyword) (there : Arrives text r p) :
    Takes text r (Parse.block (n + 1) p.place closers) (Block.Fits p.place) := by
  refine peek (bind (inner.statements p closers r there) fun names body r2 fits =>
    silent (.spanFrom _) fun span r3 => pure ?_)
  rw [append_nil]
  exact fits

theorem statements_succ (closers : List Keyword) (there : Arrives text r p) :
    Takes text r (Parse.statements (n + 1) p.place closers) (stmtsFit p.place) := by
  refine peek ?_
  split
  · exact pure ⟨rfl, trivial, trivial⟩
  · split
    · exact failNext fun placement => by cases placement
    · refine bindRun (inner.statement p r there) fun names s r2 read fits => ?_
      refine bind (inner.statements p closers r2 (.next there read)) fun more rest r3 restFit => pure ?_
      refine ⟨?_, ⟨fits.2.1, restFit.2.1⟩, fits.2.2, restFit.2.2⟩
      unfold stmtsDecls
      rw [append_nil, fits.1, restFit.1, declNames_append]

theorem ifStatement_succ (start : Span)
    (body : ∀ cond r', Parse.expression r = .ok (cond, r') → Arrives text r' (p.within .branch)) :
    Takes text r (Parse.ifStatement (n + 1) p.place start) (Stmt.Fits p.place) := by
  refine bind (inner.branches p r body) fun names p r1 fits => ?_
  refine silent (.spanFrom _) fun span r2 => pure ?_
  rw [append_nil]
  exact fits

theorem branches_succ (body : ∀ cond r', Parse.expression r = .ok (cond, r') → Arrives text r' (p.within .branch)) :
    Takes text r (Parse.branches (n + 1) p.place) (branchesFit p.place) := by
  refine after .expression fun cond r1 read => ?_
  have there := body cond r1 read
  refine bindRun (inner.block (p.within .branch) _ r1 there) fun names body r2 read fits => ?_
  replace there := there.block read
  refine past ?_
  split
  next begins =>
    refine bind (inner.branches p r2.advance fun _ _ read => .elseIf there begins read) fun more p r4 restFit => pure ?_
    refine ⟨?_, ⟨⟨fits.2.1, restFit.2.1.1⟩, restFit.2.1.2⟩, ⟨fits.2.2, restFit.2.2.1⟩, restFit.2.2.2⟩
    unfold branchesDecls
    rw [append_nil, fits.1, restFit.1, ← declNames_append, append_assoc]
  next begins =>
    refine bind (inner.block (p.within .otherwise) _ r2.advance (.otherwise there begins))
      fun more otherwise r4 otherwiseFits => silent .advance fun _ r5 => pure ?_
    refine ⟨?_, ⟨⟨fits.2.1, trivial⟩, otherwiseFits.2.1⟩, ⟨fits.2.2, trivial⟩, otherwiseFits.2.2⟩
    simp only [branchesDecls, otherwiseDecls, append_nil, fits.1, otherwiseFits.1, declNames_append]
  · refine pure ⟨?_, ⟨⟨fits.2.1, trivial⟩, trivial⟩, ⟨fits.2.2, trivial⟩, trivial⟩
    simp only [branchesDecls, otherwiseDecls, append_nil, fits.1]

theorem selectStatement_succ (start : Span) (selector : Expr) (there : Arrives text r0 p)
    (begins : r0.peek.kind = .keyword .kwSelect) (header : Parse.selectHeader r0.advance = .ok ((), r)) :
    Takes text r (Parse.selectStatement (n + 1) p.place start selector) (Stmt.Fits p.place) := by
  refine bindRun (inner.cases p [] r (.inl ⟨rfl, r0, there, begins, header⟩)) fun names cs r1 read fits => ?_
  split
  next span found =>
    obtain ⟨c, last, falls⟩ := Option.bind_eq_some_iff.mp found
    exact stop fun _ => .lastCase there begins header read last (Block.falls_of_some falls)
  next noFallthrough =>
    refine silent (.spanFrom _) fun span r2 => pure ?_
    rw [append_nil]
    exact ⟨fits.1, casesPlaced_of_last fits.2.1 noFallthrough, fits.2.2.2, fits.2.2.1⟩

theorem cases_succ (there : AtCase text r p seen) :
    Takes text r (Parse.cases (n + 1) p.place (hasDefault seen)) (casesFit p.place (hasDefault seen)) := by
  refine peek ?_
  split
  · exact silent .advance fun _ r2 => pure ⟨rfl, forall_mem_nil _, trivial, Nat.zero_le _⟩
  next isCase =>
    refine past (bindRun (caseValues there isCase) fun none values r3 read fitting => ?_)
    obtain ⟨rfl, once, valued⟩ := fitting
    have entered := there.enter isCase read
    refine bindRun (inner.block (p.within (.case (values :: seen))) _ r3 entered) fun names body r4 read fits => ?_
    refine after (.eatLineWord _) fun _ r5 closed => ?_
    have seen_more : (hasDefault seen || values.isNone) = hasDefault (values :: seen) := by
      rw [hasDefault, hasDefault, any_cons, Bool.or_comm]
    rw [seen_more]
    refine bind (inner.cases p (values :: seen) r5 (.inr ⟨r4, entered.block read, closed⟩))
      fun more rest r6 restFit => pure ⟨?_, forall_mem_cons.mpr ⟨fits.2.1, restFit.2.1⟩,
        ⟨valued, fits.2.2, restFit.2.2.1⟩, ?_⟩
    · unfold casesDecls
      rw [append_nil, nil_append, fits.1, restFit.1, declNames_append]
    · have defaults := restFit.2.2.2
      rw [← seen_more] at defaults
      rw [countP_cons]
      change _ + (if values.isNone then 1 else 0) ≤ _
      cases isNone : values.isNone with
      | true =>
        rw [isNone, Bool.or_true] at defaults
        rw [once isNone]
        exact Nat.succ_le_succ defaults
      | false =>
        rw [isNone, Bool.or_false] at defaults
        exact defaults
  · exact failNext fun placement => by cases placement
  · exact expected _

theorem loopBody (there : Arrives text r (p.within .loop))
    (behind : ∀ names body r1, body.Fits p.place.loopBody names → Takes text r1 (f body) fun more s => more = [] ∧ s.Fits p.place names) :
    Takes text r (Parse.block n p.place.loopBody closers >>= f) (Stmt.Fits p.place) := by
  refine bind (inner.block (p.within .loop) closers r there) fun names body r1 fits => ?_
  refine (behind names body r1 fits).weaken fun more s answer => ?_
  rw [answer.1, append_nil]
  exact answer.2

theorem forStatement_succ (start : Span)
    (body : ∀ r', Parse.forHeader r = .ok ((), r') → Arrives text r' (p.within .loop)) :
    Takes text r (Parse.forStatement (n + 1) p.place start) (Stmt.Fits p.place) := by
  refine after (.ident _) fun var r1 h1 => after (.consume _ _) fun _ r2 h2 => ?_
  refine after .expression fun first r3 h3 => after .loopBoundWord fun inclusive r4 h4 => ?_
  refine after .expression fun bound r5 h5 => after (.eat _) fun found r6 h6 => ?_
  have rest : ∀ step r7, Arrives text r7 (p.within .loop) → Takes text r7 (do
      let body ← Parse.block n p.place.loopBody [.kwNext]
      let _ ← Parse.advance
      Parse.nextVariable var
      return .forLoop (← Parse.spanFrom start) var first bound inclusive step body) (Stmt.Fits p.place) := by
    intro step r7 there
    refine inner.loopBody there fun names body r8 fits => silent .advance fun _ r9 => ?_
    exact silent (.nextVariable var) fun _ r10 => silent (.spanFrom _) fun span r11 => pure ⟨rfl, fits⟩
  -- the header ends with the step, if there is one
  have header : ∀ r7, (if found = true then (do let _ ← Parse.expression; return ()) else return () : Parse Unit) r6 =
      .ok ((), r7) → Parse.forHeader r = .ok ((), r7) := by
    intro r7 h7
    exact Parse.bind_ok.mpr ⟨_, _, h1, Parse.bind_ok.mpr ⟨_, _, h2, Parse.bind_ok.mpr ⟨_, _, h3,
      Parse.bind_ok.mpr ⟨_, _, h4, Parse.bind_ok.mpr ⟨_, _, h5, Parse.bind_ok.mpr ⟨_, _, h6, h7⟩⟩⟩⟩⟩⟩
  cases found with
  | true =>
    refine after .expression fun step r7 h7 => after (.pure _) fun step r8 h8 => rest step r8 (body r8 (header r8 ?_))
    cases h8
    exact Parse.bind_ok.mpr ⟨_, _, h7, rfl⟩
  | false =>
    refine after (.pure _) fun step r7 h7 => rest step r7 (body r7 (header r7 ?_))
    cases h7
    rfl

theorem statementBody_succ (there : Arrives text r p) :
    Takes text r (Parse.statementBody (n + 1) p.place r.peek) (Stmt.Fits p.place) := by
  have outside : ∀ {kind : Frame → Bool}, ¬p.frames.any kind = true → ∀ f ∈ p.frames, kind f = false := by
    intro kind none
    simpa using none
  unfold Parse.statementBody
  split
  next isName => exact nameStatement _ isName
  · refine silent .advance fun _ r1 => (qualifiedDeclaration _ _).weaken fun names s answer => ?_
    obtain ⟨name, rfl, declares⟩ := answer
    exact declares.fits _
  · refine silent .advance fun _ r1 => (qualifiedDeclaration _ _).weaken fun names s answer => ?_
    obtain ⟨name, rfl, declares⟩ := answer
    exact declares.fits _
  · refine silent .advance fun _ r1 => (dimDeclaration _).weaken fun names s answer => ?_
    obtain ⟨name, rfl, declares⟩ := answer
    exact declares.fits _
  next begins =>
    exact past (inner.ifStatement p _ _ fun _ _ read => .branch there begins read)
  next begins =>
    refine past (after .expression fun selector r2 read => after .endOfStatement fun _ r3 ended => ?_)
    exact inner.selectStatement p _ selector r r3 there begins (Parse.bind_ok.mpr ⟨selector, r2, read, ended⟩)
  next begins =>
    refine past (inner.loopBody (.loop there begins rfl rfl) fun names body r2 fits => ?_)
    exact silent .advance fun _ r3 => silent (.spanFrom _) fun span r4 => pure ⟨rfl, fits⟩
  next begins =>
    refine past (after .expression fun cond r2 read => ?_)
    refine inner.loopBody (.loop there begins rfl (Parse.bind_ok.mpr ⟨cond, r2, read, rfl⟩)) fun names body r3 fits => ?_
    exact silent .advance fun _ r4 => silent (.spanFrom _) fun span r5 => pure ⟨rfl, fits⟩
  next begins =>
    refine past (inner.loopBody (.loop there begins rfl rfl) fun names body r2 fits => silent .advance fun _ r3 => ?_)
    exact silent .expression fun cond r4 => silent (.spanFrom _) fun span r5 => pure ⟨rfl, fits⟩
  next begins =>
    exact past (inner.forStatement p _ _ fun _ read => .loop there begins rfl read)
  · exact silent .advance fun _ r1 => silent (.ident _) fun label r2 =>
      silent (.spanFrom _) fun span r3 => pure ⟨rfl, trivial, trivial⟩
  next begins =>
    exact past (returnStatement there begins)
  next begins =>
    split
    next inLoop =>
      exact silent .advance fun _ r1 => silent (.spanFrom _) fun span r2 => pure ⟨rfl, inLoop, trivial⟩
    next none =>
      refine failNext fun _ => ?_
      rw [begins]
      exact .outsideLoop there begins (.inl rfl) (outside none)
  next begins =>
    split
    next inLoop =>
      exact silent .advance fun _ r1 => silent (.spanFrom _) fun span r2 => pure ⟨rfl, inLoop, trivial⟩
    next none =>
      refine failNext fun _ => ?_
      rw [begins]
      exact .outsideLoop there begins (.inr rfl) (outside none)
  next begins =>
    split
    next inCase =>
      exact silent .advance fun _ r1 => silent (.spanFrom _) fun span r2 => pure ⟨rfl, inCase, trivial⟩
    next none => exact failNext fun _ => .outsideCase there begins (outside none)
  · exact silent .advance fun _ r1 => silent (.spanFrom _) fun span r2 => pure ⟨rfl, trivial, trivial⟩
  · exact failNext fun placement => by cases placement
  · exact failNext fun placement => by cases placement
  · exact expected _

end ReadsStmts

theorem readsStmts (text : String) (n : Nat) : ReadsStmts text n := by
  induction n with
  | zero =>
    exact {
      statement := fun _ _ _ => .exhausted
      statementBody := fun _ _ _ => .exhausted
      block := fun _ _ _ _ => .exhausted
      statements := fun _ _ _ _ => .exhausted
      ifStatement := fun _ _ _ _ => .exhausted
      branches := fun _ _ _ => .exhausted
      selectStatement := fun _ _ _ _ _ _ _ _ => .exhausted
      cases := fun _ _ _ _ => .exhausted
      forStatement := fun _ _ _ _ => .exhausted }
  | succ n inner =>
    exact {
      statement := fun _ _ there => inner.statement_succ there
      statementBody := fun _ _ there => inner.statementBody_succ there
      block := fun _ closers _ there => inner.block_succ closers there
      statements := fun _ closers _ there => inner.statements_succ closers there
      ifStatement := fun _ start _ body => inner.ifStatement_succ start body
      branches := fun _ _ body => inner.branches_succ body
      selectStatement := fun _ start selector _ _ there begins header =>
        inner.selectStatement_succ start selector there begins header
      cases := fun _ _ _ there => inner.cases_succ there
      forStatement := fun _ start _ body => inner.forStatement_succ start body }

end BasicCompiler.Source
