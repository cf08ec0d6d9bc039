/-
# Reading is the same under other names and places

A parser that is given reworded tokens does what it does with the tokens themselves: it answers the reworded tree, or
stops with the same fault at the moved place (`Respects`).
-/
import BasicCompiler.Proofs.Source.Rewording

namespace BasicCompiler.Source

open Parse List

variable (w : Rewording)

/-! ## Trees -/

@[simp] theorem Expr.span_reword (e : Expr) : (e.reword w).span = w.place e.span := by
  cases e <;> rfl

@[simp] theorem ExprList.span_reword (l : ExprList) : (l.reword w).span = w.place l.span := rfl

theorem Expr.reword_withSpan (e : Expr) (span : Span) :
    (e.withSpan span).reword w = (e.reword w).withSpan (w.place span) := by
  cases e <;> rfl

theorem Expr.asName?_reword (e : Expr) : (e.reword w).asName? = e.asName?.map w.ident := by
  cases e <;> rfl

@[simp] theorem Stmt.span_reword (s : Stmt) : (s.reword w).span = w.place s.span := by
  cases s <;> rfl

theorem rewordStmts_eq_map (body : List Stmt) : rewordStmts w body = body.map (·.reword w) := by
  induction body with
  | nil => rfl
  | cons s body ih => rw [rewordStmts, ih, map_cons]

theorem foldl_join_reword (es : List Expr) (span : Span) :
    (rewordExprs w es).foldl (fun span e => span.join e.span) (w.place span) =
      w.place (es.foldl (fun span e => span.join e.span) span) := by
  induction es generalizing span with
  | nil => rfl
  | cons e es ih => rw [rewordExprs, foldl_cons, foldl_cons, Expr.span_reword, ← w.place_join, ih]

mutual

theorem Block.fallthrough?_reword : ∀ b : Block, (b.reword w).fallthrough? = b.fallthrough?.map w.place
  | .mk _ stmts => stmtsFallthrough?_reword stmts

theorem stmtsFallthrough?_reword : ∀ body : List Stmt,
    stmtsFallthrough? (rewordStmts w body) = (stmtsFallthrough? body).map w.place
  | [] => rfl
  | s :: rest => by
      rw [rewordStmts, stmtsFallthrough?, stmtsFallthrough?, Stmt.fallthrough?_reword s]
      cases s.fallthrough? with
      | none => exact stmtsFallthrough?_reword rest
      | some span => rfl

theorem branchesFallthrough?_reword : ∀ bs : List Branch,
    branchesFallthrough? (rewordBranches w bs) = (branchesFallthrough? bs).map w.place
  | [] => rfl
  | .mk _ body :: rest => by
      rw [rewordBranches, branchesFallthrough?, branchesFallthrough?, Block.fallthrough?_reword body]
      cases body.fallthrough? with
      | none => exact branchesFallthrough?_reword rest
      | some span => rfl

theorem elseFallthrough?_reword : ∀ o : Option Block,
    optionFallthrough? (rewordElse w o) = (optionFallthrough? o).map w.place
  | none => rfl
  | some body => Block.fallthrough?_reword body

theorem Stmt.fallthrough?_reword : ∀ s : Stmt, (s.reword w).fallthrough? = s.fallthrough?.map w.place
  | .ifChain _ branches otherwise => by
      rw [Stmt.reword, Stmt.fallthrough?, Stmt.fallthrough?, branchesFallthrough?_reword branches]
      cases branchesFallthrough? branches with
      | none => exact elseFallthrough?_reword otherwise
      | some span => rfl
  | .doLoop _ body | .whileLoop _ _ body | .repeatLoop _ body _ | .forLoop _ _ _ _ _ _ body =>
      Block.fallthrough?_reword body
  | .fallthrough _ | .label _ _ | .declare _ _ | .assign _ _ _ _ | .call _ _ _ | .select _ _ _ | .goto _ _
  | .ret _ _ | .exitLoop _ | .continueLoop _ | .stop _ => rfl

end

theorem lastFallthrough?_reword (cases : List Case) :
    (rewordCases w cases).getLast?.bind (·.body.fallthrough?) =
      (cases.getLast?.bind (·.body.fallthrough?)).map w.place := by
  induction cases with
  | nil => rfl
  | cons c rest ih =>
    obtain ⟨span, values, body⟩ := c
    cases rest with
    | nil => exact Block.fallthrough?_reword w body
    | cons d rest =>
      obtain ⟨span', values', body'⟩ := d
      simpa only [rewordCases, getLast?_cons_cons] using ih

/-! ## Readers and errors -/

def ParseFault.reword : ParseFault → ParseFault
  | .wrongNextVariable found wanted => .wrongNextVariable (w.name found) (w.name wanted)
  | fault => fault

def ParseError.reword (e : ParseError) : ParseError := ⟨e.fault.reword w, w.place e.span, e.unseen⟩

def TokenReader.reword (r : TokenReader) : TokenReader :=
  ⟨r.rest.map w.token, w.token r.eof, w.place r.last, r.reports.map (·.reword w)⟩

@[simp] theorem TokenReader.peek_reword (r : TokenReader) : (r.reword w).peek = w.token r.peek := by
  unfold peek reword
  cases r.rest <;> rfl

@[simp] theorem TokenReader.advance_reword (r : TokenReader) : (r.reword w).advance = r.advance.reword w := by
  rw [advance, peek_reword]
  simp only [reword, advance, map_tail, Rewording.token]

/-- What became of a parse, with its answer changed by `act` and all else reworded. -/
def rewordRun (act : α → α') : Except (List ParseError) (α × TokenReader) → Except (List ParseError) (α' × TokenReader)
  | .ok (a, r) => .ok (act a, r.reword w)
  | .error es => .error (es.map (·.reword w))

def Respects (act : α → α') (m : Parse α) (m' : Parse α') : Prop := ∀ r, m' (r.reword w) = rewordRun w act (m r)

/-- Of reworded tokens the parser makes what it makes of the tokens, reworded. -/
abbrev Steady (act : α → α) (m : Parse α) : Prop := Respects w act m m

variable {w}

namespace Respects

theorem pure (same : a' = act a) : Respects w act (Pure.pure a) (Pure.pure a') := by
  subst same
  exact fun r => rfl

theorem bind (first : Respects w act m m') (second : ∀ a, Respects w act' (f a) (f' (act a))) :
    Respects w act' (m >>= f) (m' >>= f') := by
  intro r
  change (m' (r.reword w) >>= fun p => f' p.1 p.2) = rewordRun w act' (m r >>= fun p => f p.1 p.2)
  rw [first r]
  cases m r with
  | error e => rfl
  | ok p => exact second p.1 p.2

theorem look {look : TokenReader → α} {look' : TokenReader → α'} (same : ∀ r, look' (r.reword w) = act (look r)) :
    Respects w act (fun r => .ok (look r, r)) (fun r => .ok (look' r, r)) := by
  intro r
  simp only [same, rewordRun]

theorem peek : Steady w w.token peek := look fun r => r.peek_reword w

theorem lastSpan : Steady w w.place lastSpan := look fun _ => rfl

theorem nextIs (kind : TokenKind) : Steady w id (nextIs kind) := look fun r => by rw [r.peek_reword w]; rfl

theorem atStatementEnd : Steady w id atStatementEnd := look fun r => by rw [r.peek_reword w]; rfl

theorem steps : Steady w id steps := look fun r => by simp [TokenReader.reword]

theorem advance : Steady w w.token Parse.advance := by
  intro r
  simp [Parse.advance, rewordRun]

theorem stop {hidden : Nat} {span span' : Span} (same : fault' = fault.reword w) (placed : span' = w.place span) :
    Respects w act (Parse.report fault span hidden >>= fun _ => Parse.stop)
      (Parse.report fault' span' hidden >>= fun _ => Parse.stop) := by
  subst same placed
  have told : Respects w id (Parse.report fault span hidden) (Parse.report (fault.reword w) (w.place span) hidden) := by
    intro r
    simp [Parse.report, rewordRun, ParseError.reword, TokenReader.reword]
  exact bind told fun _ _ => rfl

theorem failNext (same : ∀ t, fault' (w.token t) = (fault t).reword w) :
    Respects w act (Parse.failNext fault) (Parse.failNext fault') :=
  bind peek fun t => stop (same t) rfl

theorem exhausted : Respects w act (Parse.failNext fun _ => .exhausted) (Parse.failNext fun _ => .exhausted) :=
  failNext fun _ => rfl

theorem expected (what : Expectation) : Respects w act (expected what) (expected what) := failNext fun _ => rfl

theorem eat (kind : TokenKind) : Steady w id (Parse.eat kind) := by
  intro r
  simp only [Parse.eat, TokenReader.peek_reword, TokenReader.advance_reword, Rewording.token_kind]
  split <;> rfl

theorem consume (kind : TokenKind) (what : Expectation) : Steady w w.token (Parse.consume kind what) := by
  intro r
  simp only [Parse.consume, TokenReader.peek_reword, TokenReader.advance_reword, Rewording.token_kind]
  split
  · rfl
  · exact expected what r

theorem ite [Decidable c] [Decidable c'] (same : c' ↔ c) (yes : Respects w act m1 m1') (no : Respects w act m2 m2') :
    Respects w act (if c then m1 else m2) (if c' then m1' else m2') := by
  by_cases holds : c
  · rwa [if_pos holds, if_pos (same.mpr holds)]
  · rwa [if_neg holds, if_neg (holds ∘ same.mp)]

theorem ident (what : Expectation) : Steady w w.ident (ident what) := bind (consume .ident what) fun _ => pure rfl

theorem endOfStatement : Steady w id endOfStatement := bind atStatementEnd fun _ => ite .rfl (pure rfl) (expected _)

theorem spanFrom (same : start' = w.place start) :
    Respects w w.place (spanFrom start) (spanFrom start') :=
  bind lastSpan fun _ => pure (by rw [same, w.place_join])

/-! ## Expressions -/

theorem nextBinaryOp? (least : Nat) : Steady w (Option.map w.sign) (nextBinaryOp? least) := by
  refine bind peek fun t => ite .rfl (pure rfl) ?_
  rw [show BinaryOp.ofToken? (w.token t) = BinaryOp.ofToken? t from rfl]
  cases BinaryOp.ofToken? t with
  | none => exact pure rfl
  | some op =>
    refine pure ?_
    by_cases tight : least ≤ op.precedence
    · simp only [tight, if_true]
      rfl
    · simp only [tight, if_false]
      rfl

theorem memberOf (base : Expr) : Respects w (Expr.reword w) (memberOf base) (memberOf (base.reword w)) :=
  bind (ident _) fun id => pure (by rw [Expr.span_reword, Expr.reword, w.place_join]; rfl)

end Respects

theorem simpleTerm?_token (t : Token) : simpleTerm? (w.token t) = (simpleTerm? t).map (Expr.reword w) := by
  unfold simpleTerm?
  rw [show (w.token t).kind = t.kind from rfl]
  split <;> rfl

theorem assignmentSign?_token (t : Token) :
    assignmentSign? (w.token t) = (assignmentSign? t).map (Option.map w.sign) := by
  unfold assignmentSign?
  rw [Rewording.token_startsLine, Rewording.token_kind,
    show BinaryOp.ofAssignment? (w.token t) = BinaryOp.ofAssignment? t from rfl]
  split
  · rfl
  · split
    · rfl
    · cases BinaryOp.ofAssignment? t <;> rfl

variable (w) in
/-- The readers of expressions respect the rewording, to a depth of `n` calls. -/
structure ExprsRespect (n : Nat) : Prop where
  exprAtLevel : ∀ least, Steady w (Expr.reword w) (exprAtLevel n least)
  binaryTail : ∀ least e, Respects w (Expr.reword w) (binaryTail n least e) (binaryTail n least (e.reword w))
  operand : Steady w (Expr.reword w) (operand n)
  term : Steady w (Expr.reword w) (term n)
  suffixTail : ∀ e, Respects w (Expr.reword w) (suffixTail n e) (suffixTail n (e.reword w))
  arguments : ∀ span, Respects w (ExprList.reword w) (arguments n span) (arguments n (w.place span))
  commaSeparated : Steady w (rewordExprs w) (commaSeparated n)

namespace ExprsRespect

open Respects (bind pure ite peek advance)

theorem zero : ExprsRespect w 0 where
  exprAtLevel _ := .exhausted
  binaryTail _ _ := .exhausted
  operand := .exhausted
  term := .exhausted
  suffixTail _ := .exhausted
  arguments _ := .exhausted
  commaSeparated := .exhausted

variable (ih : ExprsRespect w n)
include ih

theorem binaryTail_succ (least : Nat) (left : Expr) :
    Respects w (Expr.reword w) (Parse.binaryTail (n + 1) least left)
      (Parse.binaryTail (n + 1) least (left.reword w)) := by
  refine bind (.nextBinaryOp? least) fun found => ?_
  cases found with
  | none => exact pure rfl
  | some op =>
    refine bind advance fun _ => bind (ih.exprAtLevel op.node.rightLevel) fun right => ?_
    simpa only [Expr.reword, Expr.span_reword, w.place_join] using
      ih.binaryTail least (.binary (left.span.join right.span) op left right)

theorem operand_succ : Steady w (Expr.reword w) (Parse.operand (n + 1)) := by
  refine bind peek fun t => ?_
  rw [show UnaryOp.ofToken? (w.token t) = UnaryOp.ofToken? t from rfl]
  cases UnaryOp.ofToken? t with
  | none => exact bind ih.term ih.suffixTail
  | some op =>
    refine bind advance fun _ => bind (ih.exprAtLevel op.precedence) fun e => pure ?_
    rw [Expr.span_reword, Expr.reword, w.place_join]
    rfl

theorem term_succ : Steady w (Expr.reword w) (Parse.term (n + 1)) := by
  refine bind peek fun t => ?_
  rw [simpleTerm?_token]
  cases Parse.simpleTerm? t with
  | some e => exact bind advance fun _ => pure rfl
  | none =>
    refine ite .rfl (bind advance fun _ => bind (ih.exprAtLevel 1) fun e => bind (.consume _ _) fun close => ?_)
      (.expected _)
    exact pure (by rw [Expr.reword_withSpan, w.place_join]; rfl)

theorem suffixTail_succ (e : Expr) :
    Respects w (Expr.reword w) (Parse.suffixTail (n + 1) e) (Parse.suffixTail (n + 1) (e.reword w)) := by
  refine bind peek fun t => ite .rfl (pure rfl) ?_
  rw [show (w.token t).kind = t.kind from rfl]
  generalize t.kind = kind
  split
  · exact bind advance fun _ => bind (.memberOf e) ih.suffixTail
  · refine bind advance fun _ => bind (ih.exprAtLevel 1) fun place => bind (.consume _ _) fun close => ?_
    rw [Expr.span_reword, Rewording.token_span, ← w.place_join]
    exact ih.suffixTail (.index (e.span.join close.span) e place)
  · rw [Expr.asName?_reword]
    cases e.asName? with
    | none => exact .failNext fun _ => rfl
    | some callee =>
      refine bind advance fun _ => bind (ih.arguments t.span) fun args => ?_
      rw [Expr.span_reword, ExprList.span_reword, ← w.place_join]
      exact ih.suffixTail (.call (e.span.join args.span) callee args.exprs args.span)
  · exact pure rfl

theorem arguments_succ (span : Span) :
    Respects w (ExprList.reword w) (Parse.arguments (n + 1) span) (Parse.arguments (n + 1) (w.place span)) := by
  have close (es : List Expr) : Respects w (ExprList.reword w)
      (do let close ← Parse.consumePunct .closeParen .closeArguments; return ⟨es, span.join close.span⟩)
      (do let close ← Parse.consumePunct .closeParen .closeArguments
          return ⟨rewordExprs w es, (w.place span).join close.span⟩) :=
    bind (.consume _ _) fun close => pure (by rw [ExprList.reword, w.place_join, Rewording.token_span])
  exact bind (.nextIs _) fun _ => ite .rfl (bind (pure rfl) close) (bind ih.commaSeparated close)

theorem commaSeparated_succ : Steady w (rewordExprs w) (Parse.commaSeparated (n + 1)) :=
  bind (ih.exprAtLevel 1) fun _ => bind (.eat _) fun _ => ite .rfl (bind ih.commaSeparated fun _ => pure rfl) (pure rfl)

theorem succ : ExprsRespect w (n + 1) where
  exprAtLevel least := bind ih.operand (ih.binaryTail least)
  binaryTail := ih.binaryTail_succ
  operand := ih.operand_succ
  term := ih.term_succ
  suffixTail := ih.suffixTail_succ
  arguments := ih.arguments_succ
  commaSeparated := ih.commaSeparated_succ

end ExprsRespect

theorem exprsRespect : ∀ n, ExprsRespect w n
  | 0 => .zero
  | n + 1 => (exprsRespect n).succ

namespace Respects

theorem expression : Steady w (Expr.reword w) expression := bind steps fun n => (exprsRespect n).exprAtLevel 1

theorem expressions : Steady w (rewordExprs w) expressions := bind steps fun n => (exprsRespect n).commaSeparated

theorem callArguments (span : Span) :
    Respects w (ExprList.reword w) (callArguments span) (callArguments (w.place span)) :=
  bind steps fun n => (exprsRespect n).arguments span

/-! ## Simple statements -/

theorem typeName : Steady w (TypeName.reword w) typeName := by
  refine bind (ident _) fun id => bind peek fun t => ite .rfl ?_ (pure rfl)
  exact bind advance fun _ => bind (consume _ _) fun close => pure (by rw [TypeName.reword, w.place_join]; rfl)

theorem optionalType : Steady w (Option.map (TypeName.reword w)) optionalType :=
  bind (eat _) fun _ => ite .rfl (bind typeName fun _ => pure rfl) (pure rfl)

theorem optionalExpression {α α' : Type} {act : α → α'} {b b' : Bool} {next : Option Expr → Parse α}
    {next' : Option Expr → Parse α'} (same : b' = b)
    (after : ∀ e, Respects w act (next e) (next' (e.map (Expr.reword w)))) :
    Respects w act (if b then Parse.expression >>= fun e => Pure.pure (some e) >>= next else Pure.pure none >>= next)
      (if b' then Parse.expression >>= fun e => Pure.pure (some e) >>= next' else Pure.pure none >>= next') :=
  ite (by rw [same]) (bind expression fun e => after (some e)) (after none)

theorem declarationOf (scope : DeclScope) (id : Ident) (start : Span) :
    Respects w (Stmt.reword w) (Parse.declarationOf scope id start)
      (Parse.declarationOf scope (w.ident id) (w.place start)) :=
  bind optionalType fun _ => bind (eat _) fun _ => optionalExpression rfl fun _ => bind (spanFrom rfl) fun _ => pure rfl

theorem qualifiedDeclaration (scope : DeclScope) (start : Span) :
    Respects w (Stmt.reword w) (qualifiedDeclaration scope start) (qualifiedDeclaration scope (w.place start)) :=
  bind (ident _) fun id => declarationOf scope id start

theorem dimDeclaration (start : Span) :
    Respects w (Stmt.reword w) (Parse.dimDeclaration start) (Parse.dimDeclaration (w.place start)) := by
  refine bind (ident _) fun name => bind (consume _ _) fun _ => bind expression fun size =>
    bind (consume _ _) fun _ => bind optionalType fun type => ?_
  cases type with
  | none => exact bind (spanFrom rfl) fun _ => pure rfl
  | some t =>
    have refuse : Respects w (id : Unit → Unit) (Parse.failBefore .nestedArray t.span)
        (Parse.failBefore .nestedArray (w.place t.span)) := stop rfl rfl
    exact ite .rfl (bind refuse fun _ => bind (spanFrom rfl) fun _ => pure rfl)
      (bind (spanFrom rfl) fun _ => pure rfl)

theorem targetTail (n : Nat) (target : Expr) :
    Respects w (Expr.reword w) (Parse.targetTail n target) (Parse.targetTail n (target.reword w)) := by
  induction n generalizing target with
  | zero => exact exhausted
  | succ n ih =>
    refine bind peek fun t => ite .rfl (pure rfl) ?_
    rw [show (w.token t).kind = t.kind from rfl]
    generalize t.kind = kind
    split
    · exact bind advance fun _ => bind (memberOf target) ih
    · refine bind advance fun _ => bind expression fun place => bind (consume _ _) fun close => ?_
      rw [Expr.span_reword, Rewording.token_span, ← w.place_join]
      exact ih (.index (target.span.join close.span) target place)
    · exact pure rfl

theorem commandArguments (id : Ident) :
    Respects w (ExprList.reword w) (commandArguments id) (commandArguments (w.ident id)) := by
  refine bind atStatementEnd fun _ => ite .rfl (pure rfl) (bind expressions fun es => pure ?_)
  rw [ExprList.reword, ← foldl_join_reword]
  rfl

theorem assignmentOrCommand (id : Ident) :
    Respects w (Stmt.reword w) (assignmentOrCommand id) (assignmentOrCommand (w.ident id)) := by
  refine bind steps fun n => bind (targetTail n (.name id.span id)) fun target => bind peek fun t => ?_
  rw [assignmentSign?_token]
  cases assignmentSign? t with
  | some op => exact bind advance fun _ => bind expression fun _ => bind (spanFrom rfl) fun _ => pure rfl
  | none =>
    refine ite (by rw [Expr.asName?_reword, Option.isNone_map]) (failNext fun _ => rfl) ?_
    exact bind (commandArguments id) fun _ => bind (spanFrom rfl) fun _ => pure rfl

theorem nameStatement : Steady w (Stmt.reword w) nameStatement := by
  refine bind advance fun t => bind peek fun next => ?_
  refine ite .rfl (bind advance fun _ => bind (spanFrom rfl) fun _ => pure rfl) ?_
  refine ite .rfl (declarationOf _ ⟨t.text, t.span⟩ t.span) ?_
  refine ite .rfl (bind advance fun _ => ?_) (assignmentOrCommand ⟨t.text, t.span⟩)
  exact bind (callArguments next.span) fun _ => bind (spanFrom rfl) fun _ => pure rfl

theorem returnStatement (place : Place) (start : Span) :
    Respects w (Stmt.reword w) (returnStatement place start) (returnStatement place (w.place start)) := by
  refine bind atStatementEnd fun _ => ite .rfl (bind (spanFrom rfl) fun _ => pure rfl) ?_
  refine ite .rfl (stop rfl rfl) ?_
  exact bind expression fun _ => bind (spanFrom rfl) fun _ => pure rfl

theorem loopBoundWord : Steady w id loopBoundWord :=
  bind (eat _) fun _ => ite .rfl (pure rfl) (bind (eat _) fun _ => ite .rfl (pure rfl) (expected _))

theorem nextVariable (var : Ident) : Respects w id (nextVariable var) (nextVariable (w.ident var)) := by
  refine bind atStatementEnd fun _ => ite .rfl (pure rfl) (bind peek fun t => ite ?_ (stop rfl rfl) ?_)
  · rw [Rewording.token_kind, show (w.token t).text = w.name t.text from rfl,
      show (w.ident var).node = w.name var.node from rfl, w.name_same]
  · exact bind (ident _) fun _ => pure rfl

theorem caseValues (seenDefault : Bool) : Steady w (Option.map (ExprList.reword w)) (caseValues seenDefault) := by
  refine bind (nextIs _) fun _ => ite .rfl ?_ (bind expressions fun es => ?_)
  · exact ite .rfl (failNext fun _ => rfl) (bind advance fun _ => pure rfl)
  · cases es with
    | nil => exact pure (by rw [Option.map_some, ExprList.reword, w.place_none]; rfl)
    | cons e es =>
      refine pure ?_
      rw [Option.map_some, ExprList.reword, ← foldl_join_reword, Expr.span_reword]

theorem eatLineWord (word : Keyword) : Steady w id (eatLineWord word) :=
  bind peek fun _ => ite .rfl (bind advance fun _ => pure rfl) (pure rfl)

end Respects

/-! ## Statements -/

variable (w) in
/-- The readers of statements respect the rewording, to a depth of `n` calls. -/
structure StmtsRespect (n : Nat) : Prop where
  statement : ∀ place, Steady w (Stmt.reword w) (statement n place)
  statementBody : ∀ place t, Respects w (Stmt.reword w) (statementBody n place t) (statementBody n place (w.token t))
  block : ∀ place closers, Steady w (Block.reword w) (block n place closers)
  statements : ∀ place closers, Steady w (rewordStmts w) (statements n place closers)
  ifStatement : ∀ place start,
    Respects w (Stmt.reword w) (ifStatement n place start) (ifStatement n place (w.place start))
  branches : ∀ place, Steady w (Prod.map (rewordBranches w) (rewordElse w)) (branches n place)
  selectStatement : ∀ place start selector, Respects w (Stmt.reword w) (selectStatement n place start selector)
    (selectStatement n place (w.place start) (selector.reword w))
  cases : ∀ place seen, Steady w (rewordCases w) (cases n place seen)
  forStatement : ∀ place start,
    Respects w (Stmt.reword w) (forStatement n place start) (forStatement n place (w.place start))

namespace StmtsRespect

open Respects (bind pure ite peek advance spanFrom expression)

theorem zero : StmtsRespect w 0 where
  statement _ := .exhausted
  statementBody _ _ := .exhausted
  block _ _ := .exhausted
  statements _ _ := .exhausted
  ifStatement _ _ := .exhausted
  branches _ := .exhausted
  selectStatement _ _ _ := .exhausted
  cases _ _ := .exhausted
  forStatement _ _ := .exhausted

variable (ih : StmtsRespect w n)
include ih

section

variable (place : Place)
include place

theorem statement_succ : Steady w (Stmt.reword w) (Parse.statement (n + 1) place) :=
  bind peek fun t => ite .rfl (.expected _) <|
    bind (ih.statementBody place t) fun _ => bind .endOfStatement fun _ => pure rfl

theorem statementBody_succ (t : Token) : Respects w (Stmt.reword w) (Parse.statementBody (n + 1) place t)
      (Parse.statementBody (n + 1) place (w.token t)) := by
  simp only [Parse.statementBody, Rewording.token_kind, Rewording.token_span]
  generalize t.kind = kind
  split
  · exact .nameStatement
  · exact bind advance fun _ => .qualifiedDeclaration _ _
  · exact bind advance fun _ => .qualifiedDeclaration _ _
  · exact bind advance fun _ => .dimDeclaration _
  · exact bind advance fun _ => ih.ifStatement place t.span
  · exact bind advance fun _ => bind expression fun selector => bind .endOfStatement fun _ =>
      ih.selectStatement place t.span selector
  · exact bind advance fun _ => bind (ih.block _ _) fun _ => bind advance fun _ => bind (spanFrom rfl) fun _ => pure rfl
  · exact bind advance fun _ => bind expression fun _ => bind (ih.block _ _) fun _ => bind advance fun _ =>
      bind (spanFrom rfl) fun _ => pure rfl
  · exact bind advance fun _ => bind (ih.block _ _) fun _ => bind advance fun _ => bind expression fun _ =>
      bind (spanFrom rfl) fun _ => pure rfl
  · exact bind advance fun _ => ih.forStatement place t.span
  · exact bind advance fun _ => bind (.ident _) fun _ => bind (spanFrom rfl) fun _ => pure rfl
  · exact bind advance fun _ => .returnStatement place t.span
  · exact ite .rfl (bind advance fun _ => bind (spanFrom rfl) fun _ => pure rfl) (.failNext fun _ => rfl)
  · exact ite .rfl (bind advance fun _ => bind (spanFrom rfl) fun _ => pure rfl) (.failNext fun _ => rfl)
  · exact ite .rfl (bind advance fun _ => bind (spanFrom rfl) fun _ => pure rfl) (.failNext fun _ => rfl)
  · exact bind advance fun _ => bind (spanFrom rfl) fun _ => pure rfl
  · exact .failNext fun _ => rfl
  · exact .failNext fun _ => rfl
  · exact .expected _

theorem statements_succ (closers : List Keyword) :
    Steady w (rewordStmts w) (Parse.statements (n + 1) place closers) := by
  refine bind peek fun t => ite .rfl (pure rfl) (ite .rfl (.failNext fun _ => rfl) ?_)
  exact bind (ih.statement place) fun _ => bind (ih.statements place closers) fun _ => pure rfl

theorem branches_succ : Steady w (Prod.map (rewordBranches w) (rewordElse w)) (Parse.branches (n + 1) place) := by
  refine bind expression fun cond => bind (ih.block _ _) fun body => bind advance fun closer => ?_
  simp only [Rewording.token_kind]
  generalize closer.kind = kind
  split
  · exact bind (ih.branches place) fun _ => pure rfl
  · exact bind (ih.block _ _) fun _ => bind advance fun _ => pure rfl
  · exact pure rfl

theorem selectStatement_succ (start : Span) (selector : Expr) :
    Respects w (Stmt.reword w) (Parse.selectStatement (n + 1) place start selector)
      (Parse.selectStatement (n + 1) place (w.place start) (selector.reword w)) := by
  refine bind (ih.cases place false) fun cases => ?_
  rw [lastFallthrough?_reword]
  cases cases.getLast?.bind (·.body.fallthrough?) with
  | some span => exact .stop rfl rfl
  | none => exact bind (spanFrom rfl) fun _ => pure rfl

theorem cases_succ (seenDefault : Bool) : Steady w (rewordCases w) (Parse.cases (n + 1) place seenDefault) := by
  refine bind peek fun t => ?_
  simp only [Rewording.token_kind, Rewording.token_span]
  generalize t.kind = kind
  split
  · exact bind advance fun _ => pure rfl
  · refine bind advance fun _ => bind (.caseValues seenDefault) fun values => bind (ih.block _ _) fun body =>
      bind (.eatLineWord _) fun _ => ?_
    rw [Option.isNone_map]
    exact bind (ih.cases place _) fun _ => pure rfl
  · exact .failNext fun _ => rfl
  · exact .expected _

theorem forStatement_succ (start : Span) : Respects w (Stmt.reword w) (Parse.forStatement (n + 1) place start)
      (Parse.forStatement (n + 1) place (w.place start)) :=
  bind (.ident _) fun var => bind (.consume _ _) fun _ => bind expression fun _ => bind .loopBoundWord fun _ =>
    bind expression fun _ => bind (.eat _) fun _ => .optionalExpression rfl fun _ =>
      bind (ih.block _ _) fun _ => bind advance fun _ => bind (.nextVariable var) fun _ =>
        bind (spanFrom rfl) fun _ => pure rfl

end

theorem succ : StmtsRespect w (n + 1) where
  statement := ih.statement_succ
  statementBody := ih.statementBody_succ
  block place closers := bind peek fun _ => bind (ih.statements place closers) fun _ =>
    bind (spanFrom rfl) fun _ => pure rfl
  statements := ih.statements_succ
  ifStatement place _ := bind (ih.branches place) fun _ => bind (spanFrom rfl) fun _ => pure rfl
  branches := ih.branches_succ
  selectStatement := ih.selectStatement_succ
  cases := ih.cases_succ
  forStatement := ih.forStatement_succ

end StmtsRespect

theorem stmtsRespect : ∀ n, StmtsRespect w n
  | 0 => .zero
  | n + 1 => (stmtsRespect n).succ

/-! ## Programs -/

variable (w) in
def Item.reword : Item → Item
  | .function f => .function (f.reword w)
  | .typeDecl t => .typeDecl (t.reword w)
  | .stmt s => .stmt (s.reword w)

theorem Program.reword_prepend (p : Program) (i : Item) :
    (p.prepend i).reword w = (p.reword w).prepend (i.reword w) := by
  cases i <;> rfl

namespace Respects

theorem param : Steady w (Param.reword w) param :=
  bind (eat _) fun _ => bind (ident _) fun _ => bind optionalType fun _ => pure rfl

theorem paramList (n : Nat) : Steady w (List.map (Param.reword w)) (Parse.paramList n) := by
  induction n with
  | zero => exact exhausted
  | succ n ih => exact bind param fun _ => bind (eat _) fun _ => ite .rfl (bind ih fun _ => pure rfl) (pure rfl)

theorem params : Steady w (List.map (Param.reword w)) params :=
  bind (eat _) fun _ => ite .rfl (pure rfl) <|
    bind steps fun n => bind (paramList n) fun _ => bind (consume _ _) fun _ => pure rfl

theorem function : Steady w (Function.reword w) Parse.function := by
  refine bind advance fun word => bind (ident _) fun name => bind (consume _ _) fun _ => bind params fun ps =>
    bind optionalType fun result => bind steps fun n => bind ((stmtsRespect n).block _ _) fun body =>
    bind advance fun close => bind atStatementEnd fun atEnd => ?_
  have finish (value : Option Expr) : Respects w (Function.reword w)
      (do Parse.endOfStatement; return ⟨name, ps, result, body, value, word.span.join close.span⟩)
      (do Parse.endOfStatement
          return ⟨w.ident name, ps.map (·.reword w), result.map (·.reword w), body.reword w,
            value.map (·.reword w), (w.place word.span).join (w.place close.span)⟩) :=
    bind endOfStatement fun _ => pure (by rw [Function.reword, w.place_join])
  exact ite .rfl (finish none) (bind expression fun e => finish (some e))

theorem fields (n : Nat) : Steady w (List.map (Field.reword w)) (Parse.fields n) := by
  induction n with
  | zero => exact exhausted
  | succ n ih =>
    refine bind peek fun t => ite .rfl (pure rfl) (ite .rfl (failNext fun _ => rfl) ?_)
    exact bind (ident _) fun _ => bind (consume _ _) fun _ => bind typeName fun _ => bind endOfStatement fun _ =>
      bind ih fun _ => pure rfl

theorem typeDecl : Steady w (TypeDecl.reword w) typeDecl :=
  bind advance fun _ => bind (ident _) fun _ => bind endOfStatement fun _ => bind steps fun n =>
    bind (fields n) fun _ => bind advance fun _ => bind endOfStatement fun _ =>
      pure (by rw [TypeDecl.reword, w.place_join]; rfl)

theorem item : Steady w (Item.reword w) item := by
  refine bind peek fun t => ?_
  simp only [Rewording.token_kind]
  generalize t.kind = kind
  split
  · exact bind function fun _ => pure rfl
  · exact bind typeDecl fun _ => pure rfl
  · exact bind steps fun n => bind ((stmtsRespect n).statement _) fun _ => pure rfl

theorem items (n : Nat) : Steady w (Program.reword w) (Parse.items n) := by
  induction n with
  | zero => exact exhausted
  | succ n ih =>
    exact bind (nextIs _) fun _ => ite .rfl (pure rfl) <|
      bind item fun i => bind ih fun rest => pure (rest.reword_prepend i).symm

end Respects

theorem program_respects : Steady w (Program.reword w) program := .bind .steps fun n => .items n

/-! ## Texts with the same tokens -/

theorem TokenReader.ofStream_reword (same : s.tokens.map w.token = s'.tokens.map w.token) :
    (TokenReader.ofStream s).reword w = (TokenReader.ofStream s').reword w := by
  simp only [TokenStream.tokens, TokenStream.toList, map_append, map_map, map_cons, map_nil] at same
  obtain ⟨lexemes, eof⟩ := append_inj' same rfl
  simp only [TokenReader.reword, TokenReader.ofStream, map_map, TokenReader.mk.injEq]
  exact ⟨lexemes, head_eq_of_cons_eq eof, trivial, trivial⟩

/-- Streams with the same tokens, as far as the rewording keeps them, are refused with faults
or read as programs that it does not tell apart. -/
theorem program_of_tokens (same : s.tokens.map w.token = s'.tokens.map w.token) :
    (∃ es es', program (.ofStream s) = .error es ∧ program (.ofStream s') = .error es' ∧
      es.map (·.reword w) = es'.map (·.reword w)) ∨
      ∃ p p' r r', program (.ofStream s) = .ok (p, r) ∧ program (.ofStream s') = .ok (p', r') ∧
        p.reword w = p'.reword w ∧ r.rest.length = r'.rest.length ∧
        r.reports.map (·.reword w) = r'.reports.map (·.reword w) := by
  have runs : rewordRun w (Program.reword w) (program (.ofStream s)) =
      rewordRun w (Program.reword w) (program (.ofStream s')) := by
    rw [← program_respects, TokenReader.ofStream_reword same, program_respects]
  generalize program (.ofStream s) = run, program (.ofStream s') = run' at runs ⊢
  rcases run with es | ⟨p, r⟩ <;> rcases run' with es' | ⟨p', r'⟩
  · exact .inl ⟨es, es', rfl, rfl, Except.error.inj runs⟩
  · cases runs
  · cases runs
  · obtain ⟨trees, readers⟩ := Prod.mk.inj (Except.ok.inj runs)
    have unread := congrArg (fun r => r.rest.length) readers
    simp only [TokenReader.reword, length_map] at unread
    exact .inr ⟨p, p', r, r', rfl, rfl, trees, unread, congrArg TokenReader.reports readers⟩

end BasicCompiler.Source
