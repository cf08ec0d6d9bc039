/-
# Parsers take tokens off the front

Whatever a parser reads, it takes some tokens off the front and leaves the others as they are. It reports nothing as
long as it goes on, and one fault when it stops.
-/
import BasicCompiler.Proofs.Runs
import BasicCompiler.Proofs.Source.Surroundings

namespace BasicCompiler.Source

open Parse

def namesOf (tokens : List Token) : List Ident := (tokens.filter fun t => t.kind = .ident).map fun t => ⟨t.text, t.span⟩

theorem namesOf_append (front rest : List Token) : namesOf (front ++ rest) = namesOf front ++ namesOf rest := by
  simp [namesOf]

variable {m : Parse α}

namespace Parse

theorem bind_ok : (m >>= f) r = .ok (b, r') ↔ ∃ a r1, m r = .ok (a, r1) ∧ f a r1 = .ok (b, r') := run_bind_ok

end Parse

def TokenReader.Ends (r : TokenReader) : Prop := r.eof.kind = .eof

/-- Behind `reports` a parse that went on has reported nothing, and one that stopped has
reported one fault. A fault of placement has its reason in the text. -/
def Tells (text : String) (reports : List ParseError) : Except (List ParseError) (α × TokenReader) → Prop
  | .ok (_, r) => r.reports = reports
  | .error es => ∃ e, es = reports ++ [e] ∧ (e.fault.ofPlacement = true → Misplaced text e.fault e.span)

/-- From `r` a parser takes tokens off the front. It answers what it should, given names
among those tokens, and it tells of one fault if it stops. -/
def Takes (text : String) (r : TokenReader) (m : Parse α) (Q : List Ident → α → Prop) : Prop :=
  r.Ends → (∀ a r', m r = .ok (a, r') → r'.Ends ∧
      ∃ front names, r.rest = front ++ r'.rest ∧ names.Sublist (namesOf front) ∧ Q names a) ∧ Tells text r.reports (m r)

def Reads (m : Parse α) : Prop := ∀ text r, Takes text r m fun names _ => names = []

namespace Takes

theorem pure (answer : Q [] a) : Takes text r (Pure.pure a) Q := by
  intro ends
  refine ⟨fun b r' run => ?_, rfl⟩
  cases run
  exact ⟨ends, [], [], rfl, List.nil_sublist _, answer⟩

theorem bindRun (first : Takes text r m Q) (second : ∀ names a r1, m r = .ok (a, r1) → Q names a →
    Takes text r1 (f a) fun more b => R (names ++ more) b) : Takes text r (m >>= f) R := by
  intro ends
  constructor
  · intro b r' run
    obtain ⟨a, r1, run1, run2⟩ := bind_ok.mp run
    obtain ⟨ends1, front, names, taken, inside, answer⟩ := (first ends).1 a r1 run1
    obtain ⟨ends', front', more, taken', inside', answer'⟩ := (second names a r1 run1 answer ends1).1 b r' run2
    refine ⟨ends', front ++ front', names ++ more, ?_, ?_, answer'⟩
    · rw [taken, taken', List.append_assoc]
    · rw [namesOf_append]
      exact inside.append inside'
  · change Tells text r.reports (m r >>= fun p => f p.1 p.2)
    have told := (first ends).2
    cases ran : m r with
    | error es => rwa [ran] at told
    | ok p =>
      obtain ⟨ends1, front, names, taken, inside, answer⟩ := (first ends).1 p.1 p.2 ran
      rw [ran] at told
      exact told ▸ (second names p.1 p.2 ran answer ends1).2

theorem bind (first : Takes text r m Q)
    (second : ∀ names a r1, Q names a → Takes text r1 (f a) fun more b => R (names ++ more) b) :
    Takes text r (m >>= f) R :=
  bindRun first fun names a r1 _ answer => second names a r1 answer

theorem weaken (h : Takes text r m Q) (more : ∀ names a, Q names a → Q' names a) : Takes text r m Q' := by
  intro ends
  refine ⟨fun a r' run => ?_, (h ends).2⟩
  obtain ⟨ends', front, names, taken, inside, answer⟩ := (h ends).1 a r' run
  exact ⟨ends', front, names, taken, inside, more names a answer⟩

theorem congr (h : Takes text r m' Q) (same : m r = m' r) : Takes text r m Q := by
  unfold Takes
  rwa [same]

theorem after (first : Reads m) (second : ∀ a r1, m r = .ok (a, r1) → Takes text r1 (f a) R) :
    Takes text r (m >>= f) R := by
  refine bindRun (first text r) fun names a r1 ran none => ?_
  subst none
  exact second a r1 ran

theorem silent (first : Reads m) (second : ∀ a r1, Takes text r1 (f a) R) : Takes text r (m >>= f) R :=
  after first fun a r1 _ => second a r1

theorem peek (next : Takes text r (f r.peek) Q) : Takes text r (peek >>= f) Q := next

theorem stop {hidden : Nat} (reason : fault.ofPlacement = true → Misplaced text fault span) :
    Takes text r (report fault span hidden >>= fun _ => Parse.stop : Parse α) Q :=
  fun _ => ⟨fun a r' run => (by cases run), _, rfl, reason⟩

theorem failNext (reason : (fault r.peek).ofPlacement = true → Misplaced text (fault r.peek) r.peek.span) :
    Takes text r (failNext fault) Q := peek (stop reason)

theorem exhausted : Takes text r (Parse.failNext fun _ => .exhausted) Q := failNext fun placement => by cases placement

theorem expected (what : Expectation) : Takes text r (expected what) Q := failNext fun placement => by cases placement

end Takes

/-! ## Single tokens -/

theorem TokenReader.advance_rest (r : TokenReader) :
    r.rest = [] ∧ r.advance.rest = [] ∨ r.rest = r.peek :: r.advance.rest := by
  unfold peek advance
  cases tokens : r.rest with
  | nil => exact .inl ⟨rfl, rfl⟩
  | cons t rest => exact .inr rfl

namespace Reads

theorem pure (a : α) : Reads (Pure.pure a) := fun _ _ => .pure rfl

theorem bind (first : Reads m) (second : ∀ a, Reads (f a)) : Reads (m >>= f) :=
  fun text _ => .silent first fun a => second a text

theorem of_takes (h : ∀ text r, Takes text r m Q) : Reads m := by
  intro text r ends
  refine ⟨fun a r' run => ?_, (h text r ends).2⟩
  obtain ⟨ends', front, -, taken, -⟩ := (h text r ends).1 a r' run
  exact ⟨ends', front, [], taken, List.nil_sublist _, rfl⟩

theorem of_look (look : TokenReader → α) : Reads fun r => .ok (look r, r) := by
  intro text r ends
  refine ⟨fun a r' run => ?_, rfl⟩
  cases run
  exact ⟨ends, [], [], rfl, List.nil_sublist _, rfl⟩

theorem peek : Reads peek := of_look _

theorem lastSpan : Reads lastSpan := of_look _

theorem nextIs (kind : TokenKind) : Reads (nextIs kind) := of_look _

theorem atStatementEnd : Reads atStatementEnd := of_look _

theorem steps : Reads steps := of_look _

theorem advance : Reads advance := by
  intro text r ends
  refine ⟨fun a r' run => ?_, rfl⟩
  cases run
  refine ⟨ends, ?_⟩
  rcases r.advance_rest with ⟨none, none'⟩ | taken
  · exact ⟨[], [], by rw [none, none']; rfl, List.nil_sublist _, rfl⟩
  · exact ⟨[r.peek], [], taken, List.nil_sublist _, rfl⟩

theorem failNext (other : ∀ t, (fault t).ofPlacement = false) : Reads (failNext fault : Parse α) := by
  refine fun _ r => .failNext fun placement => ?_
  rw [other] at placement
  cases placement

theorem exhausted : Reads (Parse.failNext fun _ => .exhausted : Parse α) := failNext fun _ => rfl

theorem expected (what : Expectation) : Reads (expected what : Parse α) := failNext fun _ => rfl

theorem eat (kind : TokenKind) : Reads (eat kind) := by
  intro text r
  by_cases found : r.peek.kind = kind
  · exact .congr ((advance.bind fun _ => pure true) text r) (if_pos found)
  · exact .congr ((pure false) text r) (if_neg found)

theorem consume (kind : TokenKind) (what : Expectation) : Reads (consume kind what) := by
  intro text r
  by_cases found : r.peek.kind = kind
  · exact .congr (advance text r) (if_pos found)
  · exact .congr (expected what text r) (if_neg found)

theorem spanFrom (start : Span) : Reads (spanFrom start) := bind lastSpan fun _ => pure _

theorem endOfStatement : Reads endOfStatement := by
  refine bind atStatementEnd fun ends => ?_
  cases ends with
  | true => exact pure _
  | false => exact expected _

end Reads

theorem Takes.past (next : Takes text r.advance (f r.peek) Q) : Takes text r (advance >>= f) Q := by
  refine after .advance fun t r1 taken => ?_
  cases taken
  exact next

theorem Takes.name (isName : r.peek.kind = .ident)
    (next : Takes text r.advance (f r.peek) fun more a => Q (⟨r.peek.text, r.peek.span⟩ :: more) a ∨ Q more a) :
    Takes text r (advance >>= f) Q := by
  intro ends
  refine ⟨fun a r' run => ?_, (next ends).2⟩
  obtain ⟨ends', front, names, taken, inside, answer⟩ := (next ends).1 a r' run
  rcases r.advance_rest with ⟨none, -⟩ | first
  · -- the end of input is no name
    unfold TokenReader.peek at isName
    rw [none, List.headD_nil, ends] at isName
    cases isName
  · have first_name : namesOf (r.peek :: front) = ⟨r.peek.text, r.peek.span⟩ :: namesOf front := by
      simp [namesOf, isName]
    refine ⟨ends', r.peek :: front, ?_⟩
    rw [first, taken, first_name]
    rcases answer with told | silent
    · exact ⟨⟨r.peek.text, r.peek.span⟩ :: names, rfl, inside.cons_cons _, told⟩
    · exact ⟨names, rfl, inside.cons _, silent⟩

theorem Takes.ident (what : Expectation) : Takes text r (ident what) fun names id => names = [id] := by
  by_cases isName : r.peek.kind = .ident
  · have named : Takes text r (advance >>= fun t => Pure.pure (⟨t.text, t.span⟩ : Ident))
        fun names id => names = [id] := name isName (pure (.inl rfl))
    refine .congr named ?_
    change (consume .ident what r >>= fun p => _) = _
    rw [consume, if_pos isName]
    rfl
  · refine .congr (expected what) ?_
    change (consume .ident what r >>= fun p => _) = _
    rw [consume, if_neg isName]
    rfl

theorem Reads.ident (what : Expectation) : Reads (ident what) := .of_takes fun _ _ => .ident what

/-! ## Expressions -/

theorem Reads.nextBinaryOp? (least : Nat) : Reads (nextBinaryOp? least) := by
  refine bind peek fun t => ?_
  split
  · exact pure _
  · split <;> exact pure _

theorem Reads.memberOf (base : Expr) : Reads (memberOf base) := bind (ident _) fun _ => pure _

/-- What the functions that read expressions take, with calls nested at most `n` deep. -/
structure ReadsExprs (n : Nat) : Prop where
  exprAtLevel : ∀ least, Reads (exprAtLevel n least)
  binaryTail : ∀ least left, Reads (binaryTail n least left)
  operand : Reads (operand n)
  term : Reads (term n)
  suffixTail : ∀ e, Reads (suffixTail n e)
  arguments : ∀ openSpan, Reads (arguments n openSpan)
  commaSeparated : Reads (commaSeparated n)

namespace ReadsExprs

open Reads

variable (inner : ReadsExprs n)
include inner

theorem binaryTail_succ (least : Nat) (left : Expr) : Reads (Parse.binaryTail (n + 1) least left) := by
  refine bind (nextBinaryOp? least) fun op => ?_
  split
  · exact pure _
  · exact bind advance fun _ => bind (inner.exprAtLevel _) fun _ => inner.binaryTail _ _

theorem operand_succ : Reads (Parse.operand (n + 1)) := by
  refine bind peek fun t => ?_
  split
  · exact bind advance fun _ => bind (inner.exprAtLevel _) fun _ => pure _
  · exact bind inner.term fun e => inner.suffixTail e

theorem term_succ : Reads (Parse.term (n + 1)) := by
  refine bind peek fun t => ?_
  split
  · exact bind advance fun _ => pure _
  · split
    · exact bind advance fun _ => bind (inner.exprAtLevel 1) fun _ => bind (consume _ _) fun _ => pure _
    · exact expected _

theorem suffixTail_succ (e : Expr) : Reads (Parse.suffixTail (n + 1) e) := by
  refine bind peek fun t => ?_
  split
  · exact pure _
  · split
    · exact bind advance fun _ => bind (memberOf e) fun e => inner.suffixTail e
    · exact bind advance fun _ => bind (inner.exprAtLevel 1) fun _ => bind (consume _ _) fun _ => inner.suffixTail _
    · split
      · exact failNext fun _ => rfl
      · exact bind advance fun _ => bind (inner.arguments _) fun _ => inner.suffixTail _
    · exact pure _

theorem arguments_succ (openSpan : Span) : Reads (Parse.arguments (n + 1) openSpan) := by
  refine bind (nextIs _) fun closed => ?_
  cases closed with
  | true => exact bind (pure _) fun _ => bind (consume _ _) fun _ => pure _
  | false => exact bind inner.commaSeparated fun _ => bind (consume _ _) fun _ => pure _

theorem commaSeparated_succ : Reads (Parse.commaSeparated (n + 1)) := by
  refine bind (inner.exprAtLevel 1) fun e => bind (eat _) fun more => ?_
  cases more with
  | true => exact bind inner.commaSeparated fun _ => pure _
  | false => exact pure _

end ReadsExprs

theorem readsExprs (n : Nat) : ReadsExprs n := by
  induction n with
  | zero =>
    exact {
      exprAtLevel := fun _ => .exhausted
      binaryTail := fun _ _ => .exhausted
      operand := .exhausted
      term := .exhausted
      suffixTail := fun _ => .exhausted
      arguments := fun _ => .exhausted
      commaSeparated := .exhausted }
  | succ n inner =>
    exact {
      exprAtLevel := fun least => .bind inner.operand fun left => inner.binaryTail least left
      binaryTail := inner.binaryTail_succ
      operand := inner.operand_succ
      term := inner.term_succ
      suffixTail := inner.suffixTail_succ
      arguments := inner.arguments_succ
      commaSeparated := inner.commaSeparated_succ }

namespace Reads

theorem expression : Reads expression := bind steps fun n => (readsExprs n).exprAtLevel 1

theorem expressions : Reads expressions := bind steps fun n => (readsExprs n).commaSeparated

theorem callArguments (openSpan : Span) : Reads (callArguments openSpan) :=
  bind steps fun n => (readsExprs n).arguments openSpan

theorem behind (kind : TokenKind) (read : Reads m) :
    Reads (do if ← Parse.eat kind then Pure.pure (some (← m)) else Pure.pure none) := by
  refine bind (eat kind) fun found => ?_
  cases found with
  | true => exact bind read fun _ => pure _
  | false => exact pure _

theorem typeName : Reads typeName := by
  refine bind (ident _) fun id => bind peek fun t => ?_
  split
  · exact bind advance fun _ => bind (consume _ _) fun _ => pure _
  · exact pure _

theorem optionalType : Reads optionalType := behind (.keyword .kwAs) typeName

end Reads

end BasicCompiler.Source
