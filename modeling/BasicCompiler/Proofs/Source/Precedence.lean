/-
# Expressions are read back as they are written

`Expr.pieces` writes an expression with as few parentheses as the precedences of its operators allow. Reading what it
writes gives the expression back, up to places, and takes nothing else off the tokens: `expression_pieces`.
-/
import BasicCompiler.Proofs.Source.Reading
import BasicCompiler.Proofs.Source.Rewording
import Mathlib.Data.List.Forall2

namespace BasicCompiler

open List Source.Parse

def BinaryOp.operandLevels (op : BinaryOp) : Nat × Nat :=
  if op = .pow then (13, 12) else (op.precedence, op.precedence + 1)

/-- Whether an expression ends before a token: the token begins a statement, or it is
nothing that an expression goes on with. -/
def Token.EndsExpression (t : Token) : Prop :=
  t.startsLine = true ∨
    (BinaryOp.ofToken? t = none ∧ t.kind ≠ .punct .dot ∧ t.kind ≠ .punct .openSquare ∧ t.kind ≠ .punct .openParen)

namespace Source

/-! ## Writing expressions -/

/-- What one token of an expression writes. -/
inductive Piece where
  | sign (s : Punct)
  | prefixOp (op : UnaryOp)
  | binaryOp (op : BinaryOp)
  | name (text : String)
  | literal (value : SourceLiteral)

/-- Whether a token writes a piece. The places and the other texts of tokens do not matter,
and an operator may be written by any of its signs. -/
def Piece.WrittenBy (t : Token) : Piece → Prop
  | .sign s => t.kind = .punct s
  | .prefixOp op => UnaryOp.ofToken? t = some op
  | .binaryOp op => BinaryOp.ofToken? t = some op
  | .name text => t.kind = .ident ∧ t.text = text
  | .literal (.token value) => t.kind = .literal value
  | .literal (.bool value) => t.kind = .keyword (if value then .kwTrue else .kwFalse)

instance (t : Token) (p : Piece) : Decidable (p.WrittenBy t) :=
  match p with
  | .sign _ | .prefixOp _ | .binaryOp _ | .literal (.token _) | .literal (.bool _) =>
      inferInstanceAs (Decidable (_ = _))
  | .name _ => inferInstanceAs (Decidable (_ ∧ _))

def Writes (tokens : List Token) (pieces : List Piece) : Prop :=
  List.Forall₂ (fun t p => Piece.WrittenBy t p) tokens pieces

instance (tokens : List Token) (pieces : List Piece) : Decidable (Writes tokens pieces) :=
  inferInstanceAs (Decidable (List.Forall₂ _ _ _))

/-- The pieces of an operator with its operands, in parentheses if it binds less tightly
than asked for. -/
def inParens (level precedence : Nat) (pieces : List Piece) : List Piece :=
  if precedence < level then .sign .openParen :: (pieces ++ [.sign .closeParen]) else pieces

mutual

/-- How an expression is written where only operators of the level `level` or above may
stand without parentheses. -/
def Expr.pieces (level : Nat) : Expr → List Piece
  | .literal _ value => [.literal value]
  | .name _ id => [.name id.node]
  | .member _ base id => base.pieces 13 ++ [.sign .dot, .name id.node]
  | .index _ base place => base.pieces 13 ++ .sign .openSquare :: (place.pieces 1 ++ [.sign .closeSquare])
  | .call _ callee args _ => .name callee.node :: .sign .openParen :: (argumentPieces args ++ [.sign .closeParen])
  | .unary _ op operand => inParens level op.node.precedence (.prefixOp op.node :: operand.pieces op.node.precedence)
  | .binary _ op left right =>
      inParens level op.node.precedence
        (left.pieces op.node.operandLevels.1 ++ .binaryOp op.node :: right.pieces op.node.operandLevels.2)

def argumentPieces : List Expr → List Piece
  | [] => []
  | [e] => e.pieces 1
  | e :: rest => e.pieces 1 ++ .sign .comma :: argumentPieces rest

end

/-! ## What stands behind an expression -/

def NoSuffix (t : Token) : Prop :=
  t.startsLine = true ∨ (t.kind ≠ .punct .dot ∧ t.kind ≠ .punct .openSquare ∧ t.kind ≠ .punct .openParen)

def IfOperator (P : BinaryOp → Prop) (t : Token) : Prop :=
  t.startsLine = true ∨ ∀ op, BinaryOp.ofToken? t = some op → P op

def CompleteBefore (level : Nat) (op : BinaryOp) : Prop := op.precedence < level ∨ op.precedence = level ∧ op ≠ .pow

variable {t : Token}

theorem NoSuffix.of_kind (is : t.kind = kind)
    (other : kind ≠ .punct .dot ∧ kind ≠ .punct .openSquare ∧ kind ≠ .punct .openParen) : NoSuffix t := .inr (is ▸ other)

theorem IfOperator.of_none (none : BinaryOp.ofToken? t = none) : IfOperator P t := by
  refine .inr fun op found => ?_
  rw [none] at found
  cases found

theorem IfOperator.mono (h : IfOperator P t) (more : ∀ op, P op → Q op) : IfOperator Q t :=
  h.imp_right fun all op is => more op (all op is)

theorem ofToken?_sign (is : t.kind = .punct s) : BinaryOp.ofToken? t = BinaryOp.ofPunct? s := by
  unfold BinaryOp.ofToken?
  rw [is]

/-! ## Levels -/

variable {op : BinaryOp}

theorem CompleteBefore.mono (h : CompleteBefore level op) (le : level ≤ level') : CompleteBefore level' op := by
  rcases h with below | ⟨same, notPow⟩
  · exact .inl (by omega)
  · rcases Nat.lt_or_ge op.precedence level' with below | above
    · exact .inl below
    · exact .inr ⟨by omega, notPow⟩

theorem operandLevels_right (op : BinaryOp) : op.operandLevels.2 = op.rightLevel := by
  cases op <;> rfl

theorem precedence_le_left (op : BinaryOp) : op.precedence ≤ op.operandLevels.1 := by
  cases op <;> decide

theorem completeBefore_left (op : BinaryOp) : CompleteBefore op.operandLevels.1 op := by
  cases op <;> simp [CompleteBefore, BinaryOp.operandLevels, BinaryOp.precedence]

theorem CompleteBefore.right {next : BinaryOp} (h : CompleteBefore op.precedence next) :
    next.precedence < op.rightLevel := by
  cases op <;> cases next <;> simp_all [CompleteBefore, BinaryOp.precedence, BinaryOp.rightLevel]

/-- Where a prefix operator with its operand is complete, its operand is: no operator
between operands has the precedence of one before an operand. -/
theorem CompleteBefore.operand {op : UnaryOp} {next : BinaryOp} (h : CompleteBefore op.precedence next) :
    next.precedence < op.precedence := by
  cases op <;> cases next <;> simp_all [CompleteBefore, BinaryOp.precedence, UnaryOp.precedence]

/-! ## Parsers that come to an end -/

variable {eof : Token}

/-- A parser takes off `tokens` all but `rest` with nothing to report, and what it answers
satisfies `Q`. -/
def Answers (eof : Token) (m : Parse α) (tokens rest : List Token) (Q : α → Prop) : Prop :=
  ∀ last, ∃ a last', m ⟨tokens, eof, last, []⟩ = .ok (a, ⟨rest, eof, last', []⟩) ∧ Q a

namespace Answers

variable {f : α → Parse β} {t : Token} {tokens rest : List Token}

theorem pure (answer : Q b) : Answers eof (Pure.pure b) rest rest Q := fun last => ⟨b, last, rfl, answer⟩

theorem bind (first : Answers eof m tokens mid P)
    (second : ∀ a, P a → Answers eof (f a) mid rest Q) : Answers eof (m >>= f) tokens rest Q := by
  intro last
  obtain ⟨a, last1, run1, answer1⟩ := first last
  obtain ⟨b, last2, run2, answer2⟩ := second a answer1 last1
  exact ⟨b, last2, bind_ok.mpr ⟨a, _, run1, run2⟩, answer2⟩

variable {f : Token → Parse β}

theorem peek (next : Answers eof (f (tokens.headD eof)) tokens rest Q) : Answers eof (peek >>= f) tokens rest Q :=
  bind (P := (· = tokens.headD eof)) (fun last => ⟨_, last, rfl, rfl⟩) fun _ same => same ▸ next

theorem advance (next : Answers eof (f t) tokens rest Q) : Answers eof (advance >>= f) (t :: tokens) rest Q :=
  bind (P := (· = t)) (fun _ => ⟨_, t.span, rfl, rfl⟩) fun _ same => same ▸ next

theorem consume (what : Expectation) (is : t.kind = kind) (next : Answers eof (f t) tokens rest Q) :
    Answers eof (consume kind what >>= f) (t :: tokens) rest Q := by
  refine bind (P := (· = t)) (fun last => ⟨t, t.span, ?_, rfl⟩) fun _ same => same ▸ next
  exact if_pos is

end Answers

def Reaches (eof : Token) (parse : Nat → Parse α) (n : Nat) (tokens rest : List Token)
    (Q : α → Prop) : Prop :=
  ∀ m, n ≤ m → Answers eof (parse m) tokens rest Q

variable {tokens rest : List Token}

theorem Reaches.mono (h : Reaches eof parse n tokens rest Q) (le : n ≤ n') : Reaches eof parse n' tokens rest Q :=
  fun m enough => h m (by omega)

theorem Reaches.imp (h : Reaches eof parse n tokens rest P) (more : ∀ a, P a → Q a) :
    Reaches eof parse n tokens rest Q := by
  intro m enough last
  obtain ⟨a, last', run, answer⟩ := h m enough last
  exact ⟨a, last', run, more a answer⟩

theorem Reaches.succ (h : ∀ m, n ≤ m → Answers eof (parse (m + 1)) tokens rest Q) :
    Reaches eof parse (n + 1) tokens rest Q := by
  intro m enough
  obtain ⟨m, rfl⟩ : ∃ k, m = k + 1 := ⟨m - 1, by omega⟩
  exact h m (by omega)

namespace Reaches

open Parse

variable {t : Token} {tokens rest : List Token} {e : Expr}

/-! ### Operators -/

theorem exprAtLevel (first : Reaches eof operand n tokens mid P)
    (second : ∀ e, P e → Reaches eof (binaryTail · least e) n mid rest Q) :
    Reaches eof (exprAtLevel · least) (n + 1) tokens rest Q := by
  refine succ fun m enough => ?_
  exact (first m enough).bind fun e answer => second e answer m enough

theorem binaryTail_stop (stops : IfOperator (·.precedence < least) (rest.headD eof)) (answer : Q left) :
    Reaches eof (binaryTail · least left) 1 rest rest Q := by
  refine succ fun m _ => ?_
  have missing : Answers eof (nextBinaryOp? least) rest rest (· = none) := by
    refine .peek ?_
    split
    · exact .pure rfl
    · next inline =>
      split
      · next op is =>
        have below := (stops.resolve_left inline) op is
        rw [if_neg (by omega)]
        exact .pure rfl
      · exact .pure rfl
  refine missing.bind fun op missing => ?_
  subst missing
  exact .pure answer

theorem binaryTail_step (inline : t.startsLine = false)
    (is : BinaryOp.ofToken? t = some op) (le : least ≤ op.precedence)
    (right : Reaches eof (Parse.exprAtLevel · op.rightLevel) n tokens mid P) (more : ∀ e span, P e →
      Reaches eof (binaryTail · least (.binary span ⟨op, t.span⟩ left e)) n mid rest Q) :
    Reaches eof (binaryTail · least left) (n + 1) (t :: tokens) rest Q := by
  refine succ fun m enough => ?_
  have found : Answers eof (nextBinaryOp? least) (t :: tokens) (t :: tokens) (· = some ⟨op, t.span⟩) := by
    refine .peek ?_
    rw [headD_cons, inline, is]
    simp only [if_pos le]
    exact .pure rfl
  refine found.bind fun op found => ?_
  subst found
  exact .advance ((right m enough).bind fun e answer => more e _ answer m enough)

theorem operand_prefix {op : UnaryOp} (is : UnaryOp.ofToken? t = some op)
    (inner : Reaches eof (Parse.exprAtLevel · op.precedence) n tokens rest P)
    (answer : ∀ e span, P e → Q (.unary span ⟨op, t.span⟩ e)) : Reaches eof operand (n + 1) (t :: tokens) rest Q := by
  refine succ fun m enough => ?_
  refine .peek ?_
  rw [headD_cons, is]
  exact .advance ((inner m enough).bind fun e inner => .pure (answer e _ inner))

theorem operand_term (is : UnaryOp.ofToken? (tokens.headD eof) = none) (first : Reaches eof term n tokens mid P)
    (second : ∀ e, P e → Reaches eof (suffixTail · e) n mid rest Q) : Reaches eof operand (n + 1) tokens rest Q := by
  refine succ fun m enough => ?_
  refine .peek ?_
  rw [is]
  exact (first m enough).bind fun e answer => second e answer m enough

/-! ### Terms and suffixes -/

theorem term_simple (is : simpleTerm? t = some e) (answer : Q e) : Reaches eof term 1 (t :: rest) rest Q := by
  refine succ fun m _ => ?_
  refine .peek ?_
  rw [headD_cons, is]
  exact .advance (.pure answer)

theorem term_parens (opens : t.kind = .punct .openParen)
    (inner : Reaches eof (Parse.exprAtLevel · 1) n tokens (close :: rest) P)
    (closes : close.kind = .punct .closeParen) (answer : ∀ e span, P e → Q (e.withSpan span)) :
    Reaches eof term (n + 1) (t :: tokens) rest Q := by
  refine succ fun m enough => ?_
  refine .peek ?_
  have notSimple : simpleTerm? t = none := by
    unfold simpleTerm?
    rw [opens]
  rw [headD_cons, notSimple]
  simp only [if_pos opens]
  exact .advance ((inner m enough).bind fun e inner => .consume _ closes (.pure (answer e _ inner)))

theorem suffixTail_stop (stops : NoSuffix (rest.headD eof)) (answer : Q e) :
    Reaches eof (suffixTail · e) 1 rest rest Q := by
  refine succ fun m _ => ?_
  refine .peek ?_
  split
  · exact .pure answer
  · next inline =>
    obtain ⟨noDot, noSquare, noParen⟩ := stops.resolve_left inline
    split
    · exact absurd ‹_› noDot
    · exact absurd ‹_› noSquare
    · exact absurd ‹_› noParen
    · exact .pure answer

section

variable (inline : t.startsLine = false)
include inline

theorem suffixTail_member {id : Token} (isDot : t.kind = .punct .dot) (isName : id.kind = .ident)
    (more : ∀ span, Reaches eof (suffixTail · (.member span e ⟨id.text, id.span⟩)) n tokens rest Q) :
    Reaches eof (suffixTail · e) (n + 1) (t :: id :: tokens) rest Q := by
  refine succ fun m enough => ?_
  refine .peek ?_
  rw [headD_cons, inline, isDot]
  refine .advance ?_
  have member : Answers eof (memberOf e) (id :: tokens) tokens
      fun e' => ∃ span, e' = .member span e ⟨id.text, id.span⟩ := by
    refine .bind (P := (· = ⟨id.text, id.span⟩)) (.consume _ isName (.pure rfl)) fun name same => ?_
    subst same
    exact .pure ⟨_, rfl⟩
  refine member.bind fun e' found => ?_
  obtain ⟨span, rfl⟩ := found
  exact more span m enough

theorem suffixTail_index (opens : t.kind = .punct .openSquare)
    (inner : Reaches eof (Parse.exprAtLevel · 1) n tokens (close :: mid) P)
    (closes : close.kind = .punct .closeSquare)
    (more : ∀ place span, P place → Reaches eof (suffixTail · (.index span e place)) n mid rest Q) :
    Reaches eof (suffixTail · e) (n + 1) (t :: tokens) rest Q := by
  refine succ fun m enough => ?_
  refine .peek ?_
  rw [headD_cons, inline, opens]
  exact .advance ((inner m enough).bind fun place answer => .consume _ closes (more place _ answer m enough))

theorem suffixTail_call (opens : t.kind = .punct .openParen)
    (named : e.asName? = some callee) (inner : Reaches eof (arguments · t.span) n tokens mid R)
    (more : ∀ args span, R args → Reaches eof (suffixTail · (.call span callee args.exprs args.span)) n mid rest Q) :
    Reaches eof (suffixTail · e) (n + 1) (t :: tokens) rest Q := by
  refine succ fun m enough => ?_
  refine .peek ?_
  rw [headD_cons, inline, opens, named]
  exact .advance ((inner m enough).bind fun args answer => more args _ answer m enough)

end

/-! ### Arguments -/

theorem arguments_none (closes : t.kind = .punct .closeParen) :
    Reaches eof (arguments · openSpan) 1 (t :: rest) rest fun args => args.exprs = [] := by
  refine succ fun m _ => ?_
  have closed : Answers eof (nextIs (.punct .closeParen)) (t :: rest) (t :: rest) (· = true) :=
    fun last => ⟨_, last, rfl, decide_eq_true closes⟩
  refine closed.bind fun _ closed => ?_
  subst closed
  exact Answers.bind (P := (· = [])) (.pure rfl) fun exprs missing => .consume _ closes (.pure missing)

theorem arguments_some (notClosed : (tokens.headD eof).kind ≠ .punct .closeParen)
    (inner : Reaches eof commaSeparated n tokens (close :: rest) R) (closes : close.kind = .punct .closeParen) :
    Reaches eof (arguments · openSpan) (n + 1) tokens rest fun args => R args.exprs := by
  refine succ fun m enough => ?_
  have notClosed : Answers eof (nextIs (.punct .closeParen)) tokens tokens (· = false) :=
    fun last => ⟨_, last, rfl, decide_eq_false notClosed⟩
  refine notClosed.bind fun _ closed => ?_
  subst closed
  exact (inner m enough).bind fun exprs answer => .consume _ closes (.pure answer)

theorem commaSeparated_last (noComma : (rest.headD eof).kind ≠ .punct .comma)
    (inner : Reaches eof (Parse.exprAtLevel · 1) n tokens rest P) (answer : ∀ e, P e → R [e]) :
    Reaches eof commaSeparated (n + 1) tokens rest R := by
  refine succ fun m enough => ?_
  refine (inner m enough).bind fun e inner => ?_
  have notEaten : Answers eof (eatPunct .comma) rest rest (· = false) := fun last => ⟨_, last, if_neg noComma, rfl⟩
  refine notEaten.bind fun _ eaten => ?_
  subst eaten
  exact .pure (answer e inner)

theorem commaSeparated_cons (comma : t.kind = .punct .comma)
    (first : Reaches eof (Parse.exprAtLevel · 1) n tokens (t :: mid) P)
    (others : Reaches eof commaSeparated n mid rest R) (answer : ∀ e es, P e → R es → S (e :: es)) :
    Reaches eof commaSeparated (n + 1) tokens rest S := by
  refine succ fun m enough => ?_
  refine (first m enough).bind fun e first => ?_
  have eaten : Answers eof (eatPunct .comma) (t :: mid) mid (· = true) := fun last => ⟨_, t.span, if_pos comma, rfl⟩
  refine eaten.bind fun _ eaten => ?_
  subst eaten
  exact (others m enough).bind fun es others => .pure (answer e es first others)

end Reaches

/-! ## Pieces and their tokens -/

def Expr.Alike (e e' : Expr) : Prop := e.reword .erase = e'.reword .erase

variable (span : Span)

theorem Expr.alike_withSpan (e : Expr) : (e.withSpan span).Alike e := by
  cases e <;> simp [Alike, withSpan, reword, Rewording.erase]

variable {e : Expr}

theorem rewordExprs_cons (first : e.reword w = e'.reword w) (others : rewordExprs w es = rewordExprs w es') :
    rewordExprs w (e :: es) = rewordExprs w (e' :: es') := by
  simp only [rewordExprs, first, others]

def Inline (tokens : List Token) : Prop := ∀ t ∈ tokens.tail, t.startsLine = false

theorem Inline.of_all (all : ∀ t ∈ tokens, t.startsLine = false) :
    Inline tokens := fun t inside => all t (mem_of_mem_tail inside)

theorem Inline.append (h : Inline (front ++ back)) (found : front ≠ []) :
    Inline front ∧ ∀ t ∈ back, t.startsLine = false := by
  unfold Inline at h
  rw [tail_append_of_ne_nil found] at h
  exact ⟨fun t inside => h t (mem_append_left _ inside), fun t inside => h t (mem_append_right _ inside)⟩

theorem Writes.append (h : Writes tokens (front ++ back)) :
    ∃ written rest, tokens = written ++ rest ∧ Writes written front ∧ Writes rest back := by
  induction front generalizing tokens with
  | nil => exact ⟨[], tokens, rfl, .nil, h⟩
  | cons p front ih =>
    obtain ⟨t, tokens, first, others, rfl⟩ := forall₂_cons_right_iff.mp h
    obtain ⟨written, rest, rfl, inFront, inBack⟩ := ih others
    exact ⟨t :: written, rest, rfl, .cons first inFront, inBack⟩

variable {pieces : List Piece}

theorem Writes.cons (h : Writes tokens (p :: pieces)) :
    ∃ t rest, tokens = t :: rest ∧ p.WrittenBy t ∧ Writes rest pieces := by
  obtain ⟨t, rest, first, others, rfl⟩ := forall₂_cons_right_iff.mp h
  exact ⟨t, rest, rfl, first, others⟩

theorem Writes.single (h : Writes tokens [p]) : ∃ t, tokens = [t] ∧ p.WrittenBy t := by
  obtain ⟨t, rest, rfl, first, others⟩ := h.cons
  cases others
  exact ⟨t, rfl, first⟩

def Begins : Piece → Prop
  | .sign s => s = .openParen
  | .binaryOp _ => False
  | .prefixOp _ | .name _ | .literal _ => True

theorem pieces_begin : ∀ (e : Expr) (level : Nat), ∃ p rest, e.pieces level = p :: rest ∧ Begins p
  | .literal _ value, _ | .name _ id, _ | .call _ callee args _, _ => ⟨_, _, rfl, trivial⟩
  | .member _ base id, level | .index _ base place, level => by
      obtain ⟨p, rest, first, begins⟩ := pieces_begin base 13
      exact ⟨p, _, by rw [Expr.pieces, first, cons_append], begins⟩
  | .unary _ op operand, level => by
      unfold Expr.pieces inParens
      split
      · exact ⟨_, _, rfl, rfl⟩
      · exact ⟨_, _, rfl, trivial⟩
  | .binary _ op left right, level => by
      obtain ⟨p, rest, first, begins⟩ := pieces_begin left op.node.operandLevels.1
      unfold Expr.pieces inParens
      split
      · exact ⟨_, _, rfl, rfl⟩
      · exact ⟨p, _, by rw [first, cons_append], begins⟩

theorem Writes.ne_nil (h : Writes tokens (e.pieces level)) : tokens ≠ [] := by
  obtain ⟨p, rest, first, -⟩ := pieces_begin e level
  rw [first] at h
  obtain ⟨t, tokens, rfl, -⟩ := h.cons
  exact cons_ne_nil _ _

theorem Writes.not_closeParen
    (h : Writes tokens (e.pieces level)) : ((tokens ++ rest).headD eof).kind ≠ .punct .closeParen := by
  obtain ⟨p, pieces, first, begins⟩ := pieces_begin e level
  rw [first] at h
  obtain ⟨t, tokens, rfl, writes, -⟩ := h.cons
  rw [cons_append, headD_cons]
  intro closes
  cases p with
  | sign s =>
    cases begins
    cases writes.symm.trans closes
  | prefixOp op =>
    unfold Piece.WrittenBy UnaryOp.ofToken? at writes
    rw [closes] at writes
    cases writes
  | binaryOp op => exact begins
  | name text => cases writes.1.symm.trans closes
  | literal value =>
    cases value with
    | token value | bool value => cases Eq.trans (Eq.symm writes) closes

/-! ## Reading what is written -/

/-- What is written at a level is read as the left operand of what follows, wherever it is
complete before that. -/
def ReadsOperators (eof : Token) (e : Expr) (level : Nat) (pieces : List Piece) : Prop :=
  ∀ (least k : Nat) (written rest goal : List Token) (Q : Expr → Prop), least ≤ level →
    Writes written pieces → Inline written → NoSuffix (rest.headD eof) →
    IfOperator (CompleteBefore level) (rest.headD eof) →
    (∀ e', e'.Alike e → Reaches eof (binaryTail · least e') (k + 1) rest goal Q) →
    Reaches eof (exprAtLevel · least) (k + 4 * written.length + 2) (written ++ rest) goal Q

/-- What is written as a term is read as what the suffixes that follow belong to. -/
def ReadsSuffixes (eof : Token) (e : Expr) (pieces : List Piece) : Prop :=
  ∀ (k : Nat) (written rest goal : List Token) (Q : Expr → Prop), Writes written pieces → Inline written →
    (∀ e', e'.Alike e → Reaches eof (suffixTail · e') (k + 1) rest goal Q) →
    Reaches eof operand (k + 4 * written.length) (written ++ rest) goal Q

structure ReadsBack (eof : Token) (e : Expr) : Prop where
  operators : ∀ level, ReadsOperators eof e level (e.pieces level)
  suffixes : ReadsSuffixes eof e (e.pieces 13)

theorem ReadsOperators.reads (h : ReadsOperators eof e level pieces) (rest : List Token)
    (writes : Writes written pieces) (inline : Inline written) (noSuffix : NoSuffix (rest.headD eof))
    (stops : IfOperator (·.precedence < level) (rest.headD eof)) :
    Reaches eof (exprAtLevel · level) (4 * written.length + 2) (written ++ rest) rest (·.Alike e) := by
  have complete : IfOperator (CompleteBefore level) (rest.headD eof) := stops.mono fun op => .inl
  have := h level 0 written rest rest (·.Alike e) (Nat.le_refl _) writes inline noSuffix complete
    fun e' alike => .binaryTail_stop stops alike
  exact this.mono (by omega)

theorem ReadsSuffixes.operators (level : Nat) (h : ReadsSuffixes eof e pieces) : ReadsOperators eof e level pieces := by
  intro least k written rest goal Q _ writes inline noSuffix _ more
  have first := h 0 written rest rest (·.Alike e) writes inline fun e' alike => .suffixTail_stop noSuffix alike
  have := Reaches.exprAtLevel (n := k + 4 * written.length + 1) (first.mono (by omega)) fun e' alike =>
    (more e' alike).mono (by omega)
  exact this

theorem ReadsSuffixes.readsBack (same : ∀ level, e.pieces level = e.pieces 13)
    (h : ReadsSuffixes eof e (e.pieces 13)) : ReadsBack eof e :=
  ⟨fun level => same level ▸ h.operators level, h⟩

theorem ReadsOperators.parenthesized (h : ReadsOperators eof e 1 pieces) :
    ReadsSuffixes eof e (.sign .openParen :: (pieces ++ [.sign .closeParen])) := by
  intro k written rest goal Q writes inline more
  obtain ⟨t, tokens, rfl, opens, others⟩ := writes.cons
  obtain ⟨inner, back, rfl, written, last⟩ := others.append
  obtain ⟨close, rfl, closes⟩ := last.single
  have notOperator : UnaryOp.ofToken? t = none := by
    unfold UnaryOp.ofToken?
    rw [opens]
  have inlineInner : Inline inner := .of_all fun t inside => inline t (mem_append_left _ inside)
  have ends : IfOperator (·.precedence < 1) close := .of_none (ofToken?_sign closes)
  have reads := h.reads (close :: rest) written inlineInner (.of_kind closes (by decide)) ends
  have term := Reaches.term_parens (Q := (·.Alike e)) opens reads closes fun e' span alike =>
    (e'.alike_withSpan span).trans alike
  have : Reaches eof operand (k + 4 * inner.length + 4) (t :: (inner ++ close :: rest)) goal Q :=
    .operand_term notOperator (term.mono (by omega)) fun e' alike => (more e' alike).mono (by omega)
  simp only [cons_append, append_assoc, length_cons, length_append, nil_append]
  exact this.mono (by omega)

theorem ReadsBack.of_operator (written : ∀ level, e.pieces level = inParens level precedence pieces)
    (least : 1 ≤ precedence) (most : precedence < 13)
    (bare : ∀ level, level ≤ precedence → ReadsOperators eof e level pieces) : ReadsBack eof e := by
  have parens : ReadsSuffixes eof e (.sign .openParen :: (pieces ++ [.sign .closeParen])) :=
    (bare 1 least).parenthesized
  constructor
  · intro level
    rw [written level, inParens]
    split
    · exact parens.operators level
    · exact bare level (by omega)
  · rw [written 13, inParens, if_pos most]
    exact parens

/-! ### Terms -/

theorem ReadsSuffixes.of_simple (simple : ∀ t, p.WrittenBy t →
    UnaryOp.ofToken? t = none ∧ ∃ e', simpleTerm? t = some e' ∧ e'.Alike e) : ReadsSuffixes eof e [p] := by
  intro k written rest goal Q writes _ more
  obtain ⟨t, rfl, byToken⟩ := writes.single
  obtain ⟨notOperator, e', is, alike⟩ := simple t byToken
  have term : Reaches eof term (k + 1) (t :: rest) rest (·.Alike e) := (Reaches.term_simple is alike).mono (by omega)
  have : Reaches eof operand (k + 2) (t :: rest) goal Q := .operand_term notOperator term more
  exact this.mono (by simp only [length_singleton]; omega)

theorem literal_readsBack (value : SourceLiteral) : ReadsBack eof (.literal span value) := by
  refine ReadsSuffixes.readsBack (fun _ => rfl) (.of_simple fun t writes => ?_)
  have is : t.kind = .keyword .kwTrue ∧ value = .bool true ∨ t.kind = .keyword .kwFalse ∧ value = .bool false ∨
      ∃ v, t.kind = .literal v ∧ value = .token v := by
    cases value with
    | token v => exact .inr (.inr ⟨v, writes, rfl⟩)
    | bool b =>
      cases b with
      | true => exact .inl ⟨writes, rfl⟩
      | false => exact .inr (.inl ⟨writes, rfl⟩)
  unfold UnaryOp.ofToken? simpleTerm?
  rcases is with ⟨is, rfl⟩ | ⟨is, rfl⟩ | ⟨v, is, rfl⟩ <;> rw [is] <;> exact ⟨rfl, _, rfl, rfl⟩

theorem name_readsBack (id : Ident) : ReadsBack eof (.name span id) := by
  refine ReadsSuffixes.readsBack (fun _ => rfl) (.of_simple fun t ⟨is, text⟩ => ?_)
  unfold UnaryOp.ofToken? simpleTerm?
  rw [is]
  refine ⟨rfl, _, rfl, ?_⟩
  simp only [Expr.Alike, Expr.reword, Rewording.ident, Rewording.erase, text]

/-! ### Suffixes -/

theorem member_readsBack (id : Ident) {base : Expr} (inner : ReadsBack eof base) :
    ReadsBack eof (.member span base id) := by
  refine ReadsSuffixes.readsBack (fun _ => rfl) ?_
  intro k written rest goal Q writes inline more
  obtain ⟨front, back, rfl, writesBase, writes⟩ := writes.append
  obtain ⟨dot, back, rfl, isDot, writes⟩ := writes.cons
  obtain ⟨name, rfl, isName, text⟩ := writes.single
  obtain ⟨inlineBase, inlineBack⟩ := inline.append writesBase.ne_nil
  have := inner.suffixes (k + 1) front (dot :: name :: rest) goal Q writesBase inlineBase
    fun base' alike => .suffixTail_member (inlineBack dot (by simp)) isDot isName fun span' =>
      more _ (by simp_all [Expr.Alike, Expr.reword, Rewording.ident, Rewording.erase])
  simp only [append_assoc, cons_append, nil_append]
  exact this.mono (by simp only [length_append, length_cons, length_nil]; omega)

theorem index_readsBack (innerBase : ReadsBack eof base) (innerPlace : ReadsBack eof place) :
    ReadsBack eof (.index span base place) := by
  refine ReadsSuffixes.readsBack (fun _ => rfl) ?_
  intro k written rest goal Q writes inline more
  obtain ⟨front, back, rfl, writesBase, writes⟩ := writes.append
  obtain ⟨opening, back, rfl, opens, writes⟩ := writes.cons
  obtain ⟨middle, back, rfl, writesPlace, writes⟩ := writes.append
  obtain ⟨close, rfl, closes⟩ := writes.single
  obtain ⟨inlineBase, inlineBack⟩ := inline.append writesBase.ne_nil
  have inlinePlace : Inline middle := .of_all fun t inside => inlineBack t (by simp [inside])
  have reads := (innerPlace.operators 1).reads (close :: rest) writesPlace inlinePlace
    (.of_kind closes (by decide)) (.of_none (ofToken?_sign closes))
  have := innerBase.suffixes (k + 4 * middle.length + 2) front (opening :: (middle ++ close :: rest)) goal Q
    writesBase inlineBase fun base' alike =>
      .suffixTail_index (inlineBack opening (by simp)) opens (reads.mono (by omega)) closes
        fun place' span' alike' => (more _ (by simp_all [Expr.Alike, Expr.reword, Rewording.erase])).mono (by omega)
  simp only [append_assoc, cons_append, nil_append]
  exact this.mono (by simp only [length_append, length_cons, length_nil]; omega)

theorem commaSeparated_reads (rest : List Token) (closes : close.kind = .punct .closeParen) :
    ∀ {es : List Expr} {written : List Token}, es ≠ [] → (∀ e ∈ es, ReadsBack eof e) →
      Writes written (argumentPieces es) → (∀ t ∈ written, t.startsLine = false) →
      Reaches eof Parse.commaSeparated (4 * written.length + 3) (written ++ close :: rest) (close :: rest)
        fun es' => rewordExprs .erase es' = rewordExprs .erase es
  | [e], written, _, all, writes, inline => by
      have reads := ((all e (by simp)).operators 1).reads (close :: rest) writes (.of_all inline)
        (.of_kind closes (by decide)) (.of_none (ofToken?_sign closes))
      refine .commaSeparated_last (fun comma => ?_) reads fun e' alike => rewordExprs_cons alike rfl
      cases closes.symm.trans comma
  | e :: e2 :: es, written, _, all, writes, inline => by
      obtain ⟨front, back, rfl, writesFirst, writesBack⟩ := writes.append
      obtain ⟨comma, back, rfl, isComma, writesOthers⟩ := writesBack.cons
      have others := commaSeparated_reads rest closes (by simp) (fun e inside => all e (by simp [inside]))
        writesOthers fun t inside => inline t (by simp [inside])
      have reads := ((all e (by simp)).operators 1).reads (comma :: (back ++ close :: rest)) writesFirst
        (.of_all fun t inside => inline t (by simp [inside])) (.of_kind isComma (by decide))
        (.of_none (ofToken?_sign isComma))
      have := Reaches.commaSeparated_cons (n := 4 * front.length + 4 * back.length + 3)
        (S := fun es' => rewordExprs .erase es' = rewordExprs .erase (e :: e2 :: es)) isComma
        (reads.mono (by omega)) (others.mono (by omega)) fun e' es' alike same => rewordExprs_cons alike same
      simp only [append_assoc, cons_append]
      exact this.mono (by simp only [length_append, length_cons]; omega)

theorem arguments_read (openSpan : Span) (rest : List Token) (closes : close.kind = .punct .closeParen)
    (all : ∀ e ∈ es, ReadsBack eof e) (writes : Writes written (argumentPieces es))
    (inline : ∀ t ∈ written, t.startsLine = false) :
    Reaches eof (arguments · openSpan) (4 * written.length + 4) (written ++ close :: rest) rest
      fun args => rewordExprs .erase args.exprs = rewordExprs .erase es := by
  cases es with
  | nil =>
    cases writes
    exact (Reaches.arguments_none closes).mono (by omega) |>.imp fun args missing => by rw [missing]
  | cons e es =>
    refine .arguments_some ?_ (commaSeparated_reads rest closes (by simp) all writes inline) closes
    cases es with
    | nil => exact Writes.not_closeParen writes
    | cons e2 es =>
      obtain ⟨front, back, rfl, writesFirst, -⟩ := writes.append
      rw [append_assoc]
      exact writesFirst.not_closeParen

theorem call_readsBack (callee : Ident) (argsSpan : Span) (inner : ∀ e ∈ args, ReadsBack eof e) :
    ReadsBack eof (.call span callee args argsSpan) := by
  refine ReadsSuffixes.readsBack (fun _ => rfl) ?_
  intro k written rest goal Q writes inline more
  obtain ⟨name, back, rfl, ⟨isName, text⟩, writesBack⟩ := writes.cons
  obtain ⟨opening, back, rfl, opens, writesBack⟩ := writesBack.cons
  obtain ⟨middle, back, rfl, writesArgs, writesBack⟩ := writesBack.append
  obtain ⟨close, rfl, closes⟩ := writesBack.single
  have inlineBack : ∀ t ∈ opening :: (middle ++ [close]), t.startsLine = false := inline
  have notOperator : UnaryOp.ofToken? name = none := by
    unfold UnaryOp.ofToken?
    rw [isName]
  have isTerm : simpleTerm? name = some (.name name.span ⟨name.text, name.span⟩) := by
    unfold simpleTerm?
    rw [isName]
  have reads := arguments_read opening.span rest closes inner writesArgs
    fun t inside => inlineBack t (by simp [inside])
  have suffix : Reaches eof (suffixTail · (.name name.span ⟨name.text, name.span⟩))
      (k + 4 * middle.length + 5) (opening :: (middle ++ close :: rest)) goal Q :=
    .suffixTail_call (inlineBack opening (by simp)) opens rfl (reads.mono (by omega))
      fun args' span' same => (more _ (by
        simp only [Expr.Alike, Expr.reword, Rewording.ident, Rewording.erase] at same ⊢
        rw [text, same])).mono (by omega)
  have term : Reaches eof term (k + 4 * middle.length + 5)
      (name :: opening :: (middle ++ close :: rest)) (opening :: (middle ++ close :: rest))
      (· = .name name.span ⟨name.text, name.span⟩) :=
    Reaches.mono (n := 1) (.term_simple isTerm rfl) (by omega)
  have : Reaches eof operand (k + 4 * middle.length + 6)
      (name :: opening :: (middle ++ close :: rest)) goal Q :=
    .operand_term notOperator term fun e same => same ▸ suffix
  simp only [append_assoc, cons_append, nil_append]
  exact this.mono (by simp only [length_append, length_cons, length_nil]; omega)

/-! ### Operators -/

theorem unary_readsBack (op : Spanned UnaryOp) {operand : Expr} (inner : ReadsBack eof operand) :
    ReadsBack eof (.unary span op operand) := by
  refine .of_operator (fun level => by rw [Expr.pieces]) ?_ ?_ fun level le => ?_
  · cases op.node <;> decide
  · cases op.node <;> decide
  intro least k written rest goal Q _ writes inline noSuffix complete more
  obtain ⟨t, tokens, rfl, is, writesOperand⟩ := writes.cons
  have reads := (inner.operators op.node.precedence).reads rest writesOperand (.of_all inline) noSuffix
    (complete.mono fun next h => (h.mono le).operand)
  have prefixed := Reaches.operand_prefix (Q := (·.Alike (.unary span op operand))) is reads
    fun e' span' alike => by
      simp only [Expr.Alike, Expr.reword, Rewording.sign, Rewording.erase] at alike ⊢
      rw [alike]
  have := Reaches.exprAtLevel (n := k + 4 * tokens.length + 3) (prefixed.mono (by omega))
    fun e' alike => (more e' alike).mono (by omega)
  exact this.mono (by simp only [length_cons]; omega)

theorem binary_readsBack (op : Spanned BinaryOp) (innerLeft : ReadsBack eof left) (innerRight : ReadsBack eof right) :
    ReadsBack eof (.binary span op left right) := by
  refine .of_operator (fun level => by rw [Expr.pieces]) ?_ ?_ fun level le => ?_
  · cases op.node <;> decide
  · cases op.node <;> decide
  intro least k written rest goal Q leastLe writes inline noSuffix complete more
  obtain ⟨front, back, rfl, writesLeft, writesBack⟩ := writes.append
  obtain ⟨t, back, rfl, is, writesRight⟩ := writesBack.cons
  obtain ⟨inlineLeft, inlineBack⟩ := inline.append writesLeft.ne_nil
  have inlineRight : Inline back := .of_all fun t inside => inlineBack t (by simp [inside])
  have reads := (innerRight.operators op.node.operandLevels.2).reads rest writesRight inlineRight noSuffix
    (complete.mono fun next h => by
      rw [operandLevels_right]
      exact (h.mono le).right)
  rw [operandLevels_right] at reads
  have tail : ∀ left', left'.Alike left → Reaches eof (Parse.binaryTail · least left')
      (k + 4 * back.length + 3) (t :: (back ++ rest)) goal Q := fun left' alike =>
    .binaryTail_step (inlineBack t (by simp)) is (by omega) (reads.mono (by omega))
      fun right' span' alike' => (more _ (by
        simp only [Expr.Alike, Expr.reword, Rewording.sign, Rewording.erase] at alike alike' ⊢
        rw [alike, alike'])).mono (by omega)
  have noSuffixLeft : NoSuffix t := by
    refine .inr ⟨fun h => ?_, fun h => ?_, fun h => ?_⟩ <;>
      cases (ofToken?_sign h).symm.trans is
  have completeLeft : IfOperator (CompleteBefore op.node.operandLevels.1) t := by
    refine .inr fun next isNext => ?_
    cases is.symm.trans isNext
    exact completeBefore_left op.node
  have := innerLeft.operators op.node.operandLevels.1 least (k + 4 * back.length + 2) front
    (t :: (back ++ rest)) goal Q (by have := precedence_le_left op.node; omega) writesLeft inlineLeft
    noSuffixLeft completeLeft tail
  simp only [append_assoc, cons_append]
  exact this.mono (by simp only [length_append, length_cons]; omega)

/-! ## The round trip -/

mutual

theorem readsBack (eof : Token) : ∀ e : Expr, ReadsBack eof e
  | .literal span value => literal_readsBack span value
  | .name span id => name_readsBack span id
  | .member span base id => member_readsBack span id (readsBack eof base)
  | .index span base place => index_readsBack span (readsBack eof base) (readsBack eof place)
  | .call span callee args argsSpan => call_readsBack span callee argsSpan (readsBackAll eof args)
  | .unary span op operand => unary_readsBack span op (readsBack eof operand)
  | .binary span op left right => binary_readsBack span op (readsBack eof left) (readsBack eof right)

theorem readsBackAll (eof : Token) : ∀ es : List Expr, ∀ e ∈ es, ReadsBack eof e
  | [] => forall_mem_nil _
  | e :: es => forall_mem_cons.mpr ⟨readsBack eof e, readsBackAll eof es⟩

end

/-- Tokens that write an expression with as few parentheses as possible, none but perhaps
the first of them at the start of a line, are read as that expression, up to places. They are
all taken and nothing is reported, and the tokens behind them are not taken, if an expression
ends before those. -/
theorem expression_pieces (e : Expr) (written rest : List Token) (eof : Token) (last : Span)
    (writes : Writes written (e.pieces 1)) (inline : ∀ t ∈ written.tail, t.startsLine = false)
    (ends : (rest.headD eof).EndsExpression) :
    ∃ e' last', Parse.expression ⟨written ++ rest, eof, last, []⟩ = .ok (e', ⟨rest, eof, last', []⟩) ∧
      e'.reword .erase = e.reword .erase := by
  have noSuffix : NoSuffix (rest.headD eof) := ends.imp_right fun h => h.2
  have stops : IfOperator (·.precedence < 1) (rest.headD eof) := by
    refine ends.imp_right fun h op is => ?_
    cases h.1.symm.trans is
  have reads := ((readsBack eof e).operators 1).reads rest writes inline noSuffix stops
  refine reads _ ?_ last
  simp only [List.length_append]
  omega

def mixedOperators : Expr :=
  let place := Span.none
  let name (text : String) : Expr := .name place ⟨text, place⟩
  let sum := Expr.binary place ⟨.add, place⟩ (name "c") (name "d")
  let power := Expr.binary place ⟨.pow, place⟩ (.unary place ⟨.neg, place⟩ (name "a")) (name "b")
  let element := Expr.index place sum (.literal place (.token (.int 1)))
  let product := Expr.binary place ⟨.mul, place⟩ power (.member place element ⟨"e", place⟩)
  let call := Expr.call place ⟨"f", place⟩ [name "g", .unary place ⟨.not, place⟩ (name "h")] place
  .unary place ⟨.not, place⟩ (.binary place ⟨.eq, place⟩ product call)

theorem mixedOperators_read :
    let tokens := (TokenStream.ofText "!(-a) ^ b * (c + d)[1].e == f(g, not h)").lexemes.map (·.token)
    Writes tokens (mixedOperators.pieces 1) ∧
      ∃ e last, Parse.expression ⟨tokens ++ [Token.impliedEndIf 0], Token.endOfInput 0, Span.none, []⟩ =
        .ok (e, ⟨[Token.impliedEndIf 0], Token.endOfInput 0, last, []⟩) ∧
      e.reword .erase = mixedOperators.reword .erase := by
  have writes : Writes ((TokenStream.ofText "!(-a) ^ b * (c + d)[1].e == f(g, not h)").lexemes.map (·.token))
      (mixedOperators.pieces 1) := by decide +kernel
  exact ⟨writes, expression_pieces mixedOperators _ _ _ _ writes (by decide +kernel) (.inl rfl)⟩

end Source

end BasicCompiler
