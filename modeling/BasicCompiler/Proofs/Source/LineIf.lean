/-
# The `if` of one line and the `if` of a block

`if c then a else b` on one line is the same program as the block with `c`, `a` and `b` on lines of their own.
-/
import BasicCompiler.Proofs.Source.Rereading
import BasicCompiler.Proofs.Token.Outline
import BasicCompiler.Source.Printer

namespace BasicCompiler.Source

open List TokenStream

/-! ## The text of a program has no places in it -/

theorem erase_ident_node (id : Ident) : (Rewording.erase.ident id).node = id.node := rfl

mutual

theorem Expr.text_erase : ∀ e : Expr, (e.reword .erase).text = e.text
  | .literal _ _ | .name _ _ => rfl
  | .member _ base _ => by simp only [Expr.reword, Expr.text, erase_ident_node, Expr.text_erase base]
  | .index _ base place => by simp only [Expr.reword, Expr.text, Expr.text_erase base, Expr.text_erase place]
  | .call _ _ args _ => by simp only [Expr.reword, Expr.text, erase_ident_node, exprsText_erase args]
  | .unary _ _ operand => by simp only [Expr.reword, Expr.text, Expr.text_erase operand]; rfl
  | .binary _ _ left right => by
      simp only [Expr.reword, Expr.text, Expr.text_erase left, Expr.text_erase right]
      rfl

theorem exprsText_erase : ∀ es : List Expr, exprsText (rewordExprs .erase es) = exprsText es
  | [] => rfl
  | e :: es => by simp only [rewordExprs, exprsText, Expr.text_erase e, exprsText_erase es]

end

theorem optionText_map {α : Type} (before after : String) {text : α → String} {f : α → α}
    (same : ∀ a, text (f a) = text a) (o : Option α) :
    optionText before text after (o.map f) = optionText before text after o := by
  cases o with
  | none => rfl
  | some a => rw [Option.map_some, optionText, optionText, same]

theorem TypeName.text_erase (t : TypeName) : (t.reword .erase).text = t.text := rfl

theorem VarDecl.text_erase (d : VarDecl) : (d.reword .erase).text = d.text := by
  have type := optionText_map " " "" TypeName.text_erase d.type
  have dim := optionText_map " [" "]" Expr.text_erase d.dim
  have init := optionText_map " = " "" Expr.text_erase d.init
  unfold VarDecl.text VarDecl.reword
  simp only [erase_ident_node, type, dim, init]

mutual

theorem Block.text_erase : ∀ b : Block, (b.reword .erase).text = b.text
  | .mk _ stmts => by simp only [Block.reword, Block.text, stmtsText_erase stmts]

theorem stmtsText_erase : ∀ body : List Stmt, stmtsText (rewordStmts .erase body) = stmtsText body
  | [] => rfl
  | s :: rest => by simp only [rewordStmts, stmtsText, Stmt.text_erase s, stmtsText_erase rest]

theorem branchesText_erase : ∀ bs : List Branch, branchesText (rewordBranches .erase bs) = branchesText bs
  | [] => rfl
  | .mk cond body :: rest => by
      simp only [rewordBranches, branchesText, Expr.text_erase cond, Block.text_erase body, branchesText_erase rest]

theorem casesText_erase : ∀ cs : List Case, casesText (rewordCases .erase cs) = casesText cs
  | [] => rfl
  | .mk _ (some values) body :: rest => by
      simp only [rewordCases, Option.map_some, casesText, ExprList.reword, exprsText_erase values.exprs,
        Block.text_erase body, casesText_erase rest]
  | .mk _ none body :: rest => by
      simp only [rewordCases, Option.map_none, casesText, Block.text_erase body, casesText_erase rest]

theorem Stmt.text_erase : ∀ s : Stmt, (s.reword .erase).text = s.text
  | .label _ _ | .goto _ _ | .exitLoop _ | .continueLoop _ | .fallthrough _ | .stop _ | .ret _ none => rfl
  | .declare _ decl => decl.text_erase
  | .assign _ target op value => by
      simp only [Stmt.reword, Stmt.text, Expr.text_erase target, Expr.text_erase value]
      cases op <;> rfl
  | .call _ _ args => by
      simp only [Stmt.reword, Stmt.text, ExprList.reword, erase_ident_node, exprsText_erase args.exprs]
  | .ifChain _ branches none => by
      simp only [Stmt.reword, rewordElse, Stmt.text, branchesText_erase branches]
  | .ifChain _ branches (some body) => by
      simp only [Stmt.reword, rewordElse, Stmt.text, branchesText_erase branches, Block.text_erase body]
  | .select _ selector cases => by
      simp only [Stmt.reword, Stmt.text, Expr.text_erase selector, casesText_erase cases]
  | .doLoop _ body => by simp only [Stmt.reword, Stmt.text, Block.text_erase body]
  | .whileLoop _ cond body | .repeatLoop _ body cond => by
      simp only [Stmt.reword, Stmt.text, Expr.text_erase cond, Block.text_erase body]
  | .forLoop _ _ start bound _ step body => by
      have step := optionText_map " step " "" Expr.text_erase step
      simp only [Stmt.reword, Stmt.text, erase_ident_node, Expr.text_erase start, Expr.text_erase bound, step,
        Block.text_erase body]
  | .ret _ (some value) => by simp only [Stmt.reword, Option.map_some, Stmt.text, Expr.text_erase value]

end

theorem Param.text_erase (p : Param) : (p.reword .erase).text = p.text := by
  have type := optionText_map " " "" TypeName.text_erase p.type
  unfold Param.text Param.reword
  simp only [erase_ident_node, type]

theorem map_text_map {α : Type} {text : α → String} {f : α → α} (same : ∀ a, text (f a) = text a) (as : List α) :
    (as.map f).map text = as.map text := by
  rw [map_map]
  exact map_congr_left fun a _ => same a

theorem Function.text_erase (f : Function) : (f.reword .erase).text = f.text := by
  have params := map_text_map Param.text_erase f.params
  have result := optionText_map " " "" TypeName.text_erase f.result
  have endValue := optionText_map " " "" Expr.text_erase f.endValue
  unfold Function.text Function.reword
  simp only [erase_ident_node, params, result, Block.text_erase, endValue]

theorem Field.text_erase (f : Field) : (f.reword .erase).text = f.text := by
  unfold Field.text Field.reword
  simp only [erase_ident_node, TypeName.text_erase]

theorem TypeDecl.text_erase (t : TypeDecl) : (t.reword .erase).text = t.text := by
  have fields := map_text_map Field.text_erase t.fields
  unfold TypeDecl.text TypeDecl.reword
  simp only [erase_ident_node, fields]

theorem Program.text_erase (p : Program) : (p.reword .erase).text = p.text := by
  have types := map_text_map TypeDecl.text_erase p.types
  have functions := map_text_map Function.text_erase p.functions
  have stmts := map_text_map Stmt.text_erase p.stmts
  unfold Program.text Program.reword
  simp only [rewordStmts_eq_map, types, functions, stmts]

/-! ## Programs of the same outline -/

variable {text : String}

theorem parseProgram_outline (same : outline text.toList LineState.start = outline text'.toList LineState.start) :
    (parseProgram text).result.map Program.text = (parseProgram text').result.map Program.text := by
  have tokens : (ofText text).tokens.map Rewording.erase.token =
      (ofText text').tokens.map Rewording.erase.token := by
    rw [ofText, ofText, scanFrom_erase, scanFrom_erase, same]
  unfold parseProgram runParse
  rcases program_of_tokens tokens with ⟨_, _, run, run', -⟩ | ⟨p, p', _, _, run, run', trees, -⟩
  · rw [run, run']
  · have texts : p.text = p'.text := by rw [← Program.text_erase, trees, Program.text_erase]
    rw [run, run']
    exact congrArg some texts

/-! ## The words around condition and bodies -/

variable {line : LineState}

section Words

variable {tail : List Char} (gap : Gap tail)
include gap

theorem outline_if : outline ("if".toList ++ tail) .start =
    ⟨.keyword .kwIf, "if", Span.none, true, false⟩ :: outline tail ⟨false, some .ifWord, 0, false⟩ := by
  have step := scanStep_word 'i' ['f'] (by decide) gap 0 .start
  rw [show "if".toList ++ tail = 'i' :: (['f'] ++ tail) from rfl, outline_cons, step]
  rfl

theorem outline_then (opener : line.opener = some .ifWord)
    (followed : restOfLineBlank tail = false) : outline ("then".toList ++ tail) line =
      outline tail { line with atStart := true, opener := none, openIfs := line.openIfs + 1 } := by
  have step := scanStep_word 't' ['h', 'e', 'n'] (by decide) gap 0 line
  have keyword : Keyword.ofWord? (String.ofList ['t', 'h', 'e', 'n']) = some .kwThen := by decide
  simp only [wordStep, keyword, thenStep, opener, followed, Bool.false_eq_true, if_false, if_true] at step
  rw [show "then".toList ++ tail = 't' :: (['h', 'e', 'n'] ++ tail) from rfl, outline_cons, step]
  rfl

theorem outline_else (line : LineState) : outline ("else".toList ++ tail) line =
    ⟨.keyword .kwElse, "else", Span.none, line.atStart || decide (0 < line.openIfs), false⟩ ::
      outline tail { line with atStart := decide (0 < line.openIfs), afterLineName := false } := by
  have step := scanStep_word 'e' ['l', 's', 'e'] (by decide) gap 0 line
  have keyword : Keyword.ofWord? (String.ofList ['e', 'l', 's', 'e']) = some .kwElse := by decide
  simp only [wordStep, keyword, Keyword.operator?, Step.token, true_and] at step
  rw [show "else".toList ++ tail = 'e' :: (['l', 's', 'e'] ++ tail) from rfl, outline_cons, step]
  rfl

theorem outline_endif (line : LineState) : outline ("endif".toList ++ tail) line =
    ⟨.keyword .kwEndIf, "endif", Span.none, line.atStart, false⟩ ::
      outline tail { line with atStart := false, afterLineName := false } := by
  have step := scanStep_word 'e' ['n', 'd', 'i', 'f'] (by decide) gap 0 line
  have keyword : Keyword.ofWord? (String.ofList ['e', 'n', 'd', 'i', 'f']) = some .kwEndIf := by decide
  have plain : TokenKind.keyword .kwEndIf ≠ .keyword .kwElse := by decide
  simp only [wordStep, keyword, Keyword.operator?, Step.token_eq plain] at step
  rw [show "endif".toList ++ tail = 'e' :: (['n', 'd', 'i', 'f'] ++ tail) from rfl, outline_cons, step]
  rfl

end Words

def lineWord (keyword : Keyword) (text : String) : Token := ⟨.keyword keyword, text, Span.none, true, false⟩

theorem outline_newline (tail : List Char) (line : LineState) :
    outline ('\n' :: tail) line =
      replicate line.openIfs (lineWord .kwEndIf "endif") ++
        outline tail ⟨true, none, 0, line.afterLineName && line.openIfs == 0⟩ := by
  have step : scanStep 0 '\n' tail line = Step.lineEnd 0 line 0 [] := rfl
  rw [outline_cons, step]
  simp only [Step.lineEnd, map_replicate, isEmpty_replicate, drop_zero]
  rfl

/-! ## One line and a block -/

def beginsWithName (text name : String) : Bool :=
  (ofText text).tokens.head?.any fun t => decide (t.kind = .ident) && sameName t.text name

/-- A text of one line that is read on its own without faults and has no comments. -/
structure IsOneLine (text : String) : Prop where
  clean : (ofText text).faults = []
  plain : ∀ s ∈ stops text, s.isPlain = true

/-- What may stand between `if` and `then`. -/
structure IsIfCondition (text : String) : Prop extends IsOneLine text where
  undivided : ∀ s ∈ stops text, s.separates = false
  wordless : ∀ s ∈ stops text, s.keyword? ∉ [some .kwIf, some .kwElseIf, some .kwThen, some .kwElse]

/-- What may stand between `then`, `else` and the end of the line. -/
structure IsIfBody (text : String) : Prop extends IsOneLine text where
  visible : lastVisible text.toList ≠ none
  continued : lastVisible text.toList ≠ some ':'
  wordless : ∀ s ∈ stops text, s.keyword? ∉ [some .kwThen, some .kwElse]

theorem IsIfBody.isInline (is : IsIfBody text) : IsInline text.toList .start where
  plain := is.plain
  clean := stopsFrom_clean is.clean
  unbranched s stop := by simpa using is.wordless s stop

theorem IsIfCondition.isCondition (is : IsIfCondition text) : IsCondition text.toList .start where
  plain := is.plain
  clean := stopsFrom_clean is.clean
  unbranched s stop := by
    have := is.wordless s stop
    simp only [mem_cons, not_mem_nil, or_false, not_or] at this
    exact this.2.2
  undivided := is.undivided
  closed s stop := by
    have := is.wordless s stop
    simp only [mem_cons, not_mem_nil, or_false, not_or] at this
    exact ⟨this.1, this.2.1⟩

/-! ## How a body begins -/

theorem isNameStart_of_toLower (r : c.toLower = 'r') : isNameStart c = true := by
  unfold Char.toLower at r
  split at r
  · next capital =>
    simp only [isNameStart, Char.le_def, Bool.or_eq_true, Bool.and_eq_true, decide_eq_true_eq]
    exact .inl (.inr capital)
  · subst r
    decide

theorem beginsWithName_of_suffix (first : text.toList.dropWhile isBlank = d :: more) (start : isNameStart d = true)
    (suffix : hasSuffix more = true)
    (same : sameName (String.ofList (d :: more.take ((more.takeWhile isNameChar).length + 1))) name = true) :
    beginsWithName text name = true := by
  have outlined : (ofText text).tokens.map Rewording.erase.token = outline (d :: more) .start := by
    rw [ofText, scanFrom_erase, ← first, outline_dropWhile_blank]
  rw [outline_cons, scanStep_of_nameStart start, nameStep_of_suffix suffix, Step.token_eq (by decide)] at outlined
  cases tokens : (ofText text).tokens with
  | nil =>
    rw [tokens] at outlined
    cases outlined
  | cons t ts =>
    rw [tokens, map_cons] at outlined
    have head := head_eq_of_cons_eq outlined
    simp only [Rewording.token, Token.mk.injEq] at head
    have spelt : t.text = String.ofList (d :: more.take ((more.takeWhile isNameChar).length + 1)) := head.2.1
    rw [beginsWithName, tokens, head?_cons, Option.any_some, head.1, spelt, same]
    rfl

theorem IsIfBody.not_restOfLineBlank (is : IsIfBody text)
    (unlike : beginsWithName text "rem#" = false ∧ beginsWithName text "rem$" = false) : restOfLineBlank text.toList = false := by
  obtain ⟨d, more, first⟩ := dropWhile_of_lastVisible is.visible
  have inline := is.isInline.dropWhile_blank
  rw [first] at inline
  have plain := inline.plain ⟨d, more, .start⟩ (by rw [stopsFrom]; exact .head _)
  simp only [Stop.isPlain, Bool.and_eq_true, bne_iff_ne, Bool.not_eq_true', beginsComment, Bool.or_eq_false_iff,
    Bool.and_or_distrib_left] at plain
  obtain ⟨⟨newline, -⟩, ⟨mark, slashes, -⟩, word⟩ := plain
  rw [restOfLineBlank_cons first, beq_false_of_ne newline, mark, slashes, Bool.false_or, Bool.false_or, Bool.false_or]
  rw [beq_eq_false_iff_ne]
  intro rem
  cases letter : isNameChar d with
  | false =>
    rw [takeWhile_cons_of_neg (by simp [letter])] at rem
    exact absurd rem (by decide)
  | true =>
    rw [takeWhile_cons_of_pos letter] at rem
    have folded := congrArg String.toList rem
    simp only [fold, String.toList_ofList, map_cons] at folded
    have start := isNameStart_of_toLower (head_eq_of_cons_eq folded)
    cases suffix : hasSuffix more with
    | false =>
      have isRem : wordAt? d more = some (String.ofList (d :: more.takeWhile isNameChar)) := by
        simp only [wordAt?, start, suffix, Bool.not_false, Bool.and_true, if_true]
      rw [isRem, Option.any_some, rem] at word
      exact absurd word (by decide)
    | true =>
      obtain ⟨s, which, taken⟩ := take_hasSuffix suffix
      have spelt (name : String) (is : fold name = String.ofList ("rem".toList ++ [s.toLower])) :
          beginsWithName text name = true := by
        refine beginsWithName_of_suffix first start suffix ?_
        rw [taken, sameName, is, fold, String.toList_ofList, map_cons, map_append, ← cons_append, folded]
        exact beq_self_eq_true _
      rcases which with rfl | rfl
      · exact Bool.eq_false_iff.mp unlike.1 (spelt "rem#" (by decide))
      · exact Bool.eq_false_iff.mp unlike.2 (spelt "rem$" (by decide))

/-! ## The same tokens -/

def elseOfLine (otherwise : Option String) : String := otherwise.elim "" (" else " ++ ·)

def elseOfBlock (otherwise : Option String) : String := otherwise.elim "" ("else\n" ++ · ++ "\n")

/-- A conditional on one line. -/
def lineIf (cond body : String) (otherwise : Option String) : String :=
  "if " ++ cond ++ " then " ++ body ++ elseOfLine otherwise ++ "\n"

/-- A conditional with each part on lines of its own. -/
def blockIf (cond body : String) (otherwise : Option String) : String :=
  "if " ++ cond ++ "\n" ++ body ++ "\n" ++ elseOfBlock otherwise ++ "endif\n"

theorem gap_blank (tail : List Char) : Gap (' ' :: tail) := .cons (.inl rfl)

theorem gap_newline (tail : List Char) : Gap ('\n' :: tail) := .cons (.inr rfl)

theorem outline_lineEnd (rest : List Char) (one : line.openIfs = 1) :
    outline ('\n' :: rest) line = lineWord .kwEndIf "endif" :: outline rest .start := by
  rw [outline_newline, one, show (1 == 0) = false from rfl, Bool.and_false]
  rfl

theorem outline_blockEnd (rest : List Char) (shut : line.openIfs = 0) :
    outline ('\n' :: ("endif".toList ++ '\n' :: rest)) line = lineWord .kwEndIf "endif" :: outline rest .start := by
  rw [outline_newline, shut, outline_endif (gap_newline rest), outline_newline]
  rfl

theorem outline_else_parts (isOther : ∀ other ∈ otherwise, IsIfBody other) (rest : List Char) :
    ∃ ts, (∀ line : LineState, line.openIfs = 1 →
        outline ((elseOfLine otherwise).toList ++ '\n' :: rest) line = ts ++ outline rest .start) ∧
      ∀ line : LineState, line.openIfs = 0 →
        outline ('\n' :: ((elseOfBlock otherwise).toList ++ ("endif".toList ++ '\n' :: rest))) line =
          ts ++ outline rest .start := by
  cases otherwise with
  | none =>
    exact ⟨[lineWord .kwEndIf "endif"], fun _ => outline_lineEnd rest, fun _ => outline_blockEnd rest⟩
  | some other =>
    have is := isOther other rfl
    obtain ⟨otherTokens, run⟩ := contributes_body is.isInline is.continued
    refine ⟨lineWord .kwElse "else" :: (otherTokens ++ [lineWord .kwEndIf "endif"]), fun line one => ?_,
      fun line shut => ?_⟩
    · have shape : (elseOfLine (some other)).toList ++ '\n' :: rest =
          ' ' :: ("else".toList ++ ' ' :: (other.toList ++ '\n' :: rest)) := by
        simp [elseOfLine]
      obtain ⟨line', ifs, same⟩ := run ⟨true, line.opener, 1, false⟩ ('\n' :: rest) ⟨rfl, rfl⟩ (gap_newline rest)
      rw [shape, outline_blank (by decide), outline_else (gap_blank _), outline_blank (by decide), one]
      calc _ = lineWord .kwElse "else" :: outline (other.toList ++ '\n' :: rest) ⟨true, line.opener, 1, false⟩ := by
            rw [show decide (0 < 1) = true from rfl, Bool.or_true]
            rfl
        _ = _ := by simp [same, outline_lineEnd rest ifs]
    · have shape : '\n' :: ((elseOfBlock (some other)).toList ++ ("endif".toList ++ '\n' :: rest)) =
          '\n' :: ("else".toList ++ '\n' :: (other.toList ++ '\n' :: ("endif".toList ++ '\n' :: rest))) := by
        simp [elseOfBlock]
      obtain ⟨line', ifs, same⟩ := run ⟨true, none, 0, false⟩ ('\n' :: ("endif".toList ++ '\n' :: rest)) ⟨rfl, rfl⟩
        (gap_newline _)
      rw [shape, outline_newline, shut, outline_else (gap_newline _), outline_newline]
      calc _ = lineWord .kwElse "else" ::
            outline (other.toList ++ '\n' :: ("endif".toList ++ '\n' :: rest)) ⟨true, none, 0, false⟩ := rfl
        _ = _ := by rw [same, outline_blockEnd rest ifs]; simp

theorem gap_elseOfLine (otherwise : Option String) (rest : List Char) :
    Gap ((elseOfLine otherwise).toList ++ '\n' :: rest) := by
  cases otherwise with
  | none => exact gap_newline rest
  | some other =>
    rw [elseOfLine, Option.elim_some, String.toList_append, append_assoc]
    exact gap_blank _

section Same

variable {cond body : String} {otherwise : Option String} (isCond : IsIfCondition cond) (isBody : IsIfBody body)
  (unlike : beginsWithName body "rem#" = false ∧ beginsWithName body "rem$" = false)
  (isOther : ∀ other ∈ otherwise, IsIfBody other)
include isCond isBody unlike isOther

theorem outline_lineIf (rest : String) :
    outline (lineIf cond body otherwise ++ rest).toList .start =
      outline (blockIf cond body otherwise ++ rest).toList .start := by
  obtain ⟨condTokens, line, opener, shut, condRun⟩ :=
    addsTokens_condition isCond.isCondition ⟨false, some .ifWord, 0, false⟩ (.inl ⟨rfl, rfl⟩)
  obtain ⟨bodyTokens, bodyRun⟩ := contributes_body isBody.isInline isBody.continued
  obtain ⟨ts, lineRun, blockRun⟩ := outline_else_parts isOther rest.toList
  have lineShape : (lineIf cond body otherwise ++ rest).toList =
      "if".toList ++ ' ' :: (cond.toList ++ ' ' :: ("then".toList ++ ' ' :: (body.toList ++
        ((elseOfLine otherwise).toList ++ '\n' :: rest.toList)))) := by
    simp [lineIf]
  have blockShape : (blockIf cond body otherwise ++ rest).toList =
      "if".toList ++ ' ' :: (cond.toList ++ '\n' :: (body.toList ++
        '\n' :: ((elseOfBlock otherwise).toList ++ ("endif".toList ++ '\n' :: rest.toList)))) := by
    simp [blockIf]
  have lineGap := gap_elseOfLine otherwise rest.toList
  have followed : restOfLineBlank (' ' :: (body.toList ++ ((elseOfLine otherwise).toList ++ '\n' :: rest.toList))) =
      false := by
    obtain ⟨d, more, first⟩ := dropWhile_of_lastVisible isBody.visible
    have whole := restOfLineBlank_gap lineGap first
    rw [isBody.not_restOfLineBlank unlike] at whole
    exact whole
  -- the condition leaves the line behind the `if`, whichever way it goes on
  obtain ⟨lineEnd, lineIfs, lineBody⟩ := bodyRun { line with atStart := true, opener := none, openIfs := line.openIfs + 1 }
    _ (LineState.alike_start rfl) lineGap
  obtain ⟨blockEnd, blockIfs, blockBody⟩ := bodyRun ⟨true, none, 0, line.afterLineName && true⟩
    ('\n' :: ((elseOfBlock otherwise).toList ++ ("endif".toList ++ '\n' :: rest.toList)))
    (LineState.alike_start rfl) (gap_newline _)
  have byLine : outline (lineIf cond body otherwise ++ rest).toList .start =
      lineWord .kwIf "if" :: (condTokens ++ (bodyTokens ++ (ts ++ outline rest.toList .start))) := by
    rw [lineShape, outline_if (gap_blank _), outline_blank (by decide), condRun _ (gap_blank _),
      outline_blank (by decide), outline_then (gap_blank _) opener followed, outline_blank (by decide), lineBody,
      lineRun lineEnd (by rw [lineIfs, shut])]
    rfl
  have byBlock : outline (blockIf cond body otherwise ++ rest).toList .start =
      lineWord .kwIf "if" :: (condTokens ++ (bodyTokens ++ (ts ++ outline rest.toList .start))) := by
    rw [blockShape, outline_if (gap_blank _), outline_blank (by decide), condRun _ (gap_newline _), outline_newline,
      shut, ← blockRun blockEnd blockIfs, ← blockBody]
    rfl
  rw [byLine, byBlock]

/-- A conditional on one line and the one with its parts on lines of their own are the same
program, or neither is one, whatever follows them. -/
theorem lineIf_eq_blockIf (rest : String) :
    (parseProgram (lineIf cond body otherwise ++ rest)).result.map Program.text =
      (parseProgram (blockIf cond body otherwise ++ rest)).result.map Program.text :=
  parseProgram_outline (outline_lineIf isCond isBody unlike isOther rest)

end Same

/-- A conditional with two statements in its first body and an `if` in the second. -/
theorem nestedLineIf_eq_blockIf :
    let cond := "x < 3 and not a[1]"
    let body := "y = 1 : print \"then: \", y"
    let otherwise := some "if x : end : endif"
    (parseProgram (lineIf cond body otherwise ++ "do\nloop")).result.isSome ∧
      (parseProgram (lineIf cond body otherwise ++ "do\nloop")).result.map Program.text =
        (parseProgram (blockIf cond body otherwise ++ "do\nloop")).result.map Program.text := by
  refine ⟨by decide +kernel, lineIf_eq_blockIf ?_ ?_ (by decide +kernel) ?_ _⟩
  · exact ⟨⟨by decide +kernel, by decide +kernel⟩, by decide +kernel, by decide +kernel⟩
  · exact ⟨⟨by decide +kernel, by decide +kernel⟩, by decide +kernel, by decide +kernel, by decide +kernel⟩
  · rintro other ⟨⟩
    exact ⟨⟨by decide +kernel, by decide +kernel⟩, by decide +kernel, by decide +kernel, by decide +kernel⟩

end BasicCompiler.Source
