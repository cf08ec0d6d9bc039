/-
# Reading on demand is reading one fixed stream

What a lexer answers does not depend on when its tokens were made.
-/
import BasicCompiler.Token.Lexer

namespace BasicCompiler

open List TokenStream Option

/-! ## The rest of the stream -/

namespace TokenStream

variable {whole : TokenStream}

/-- `x` comes first and `later` behind it. The end of input comes again behind itself, but
without the faults before it. -/
def Splits (whole : TokenStream) (x : Lexeme) (later : TokenStream) : Prop :=
  whole = later.prepend [x] ∨ whole = ⟨[], x⟩ ∧ later = ⟨[], ⟨[], x.token⟩⟩

theorem Splits.get_zero (h : whole.Splits x later) : whole.get 0 = x.token := by
  obtain rfl | ⟨rfl, rfl⟩ := h <;> rfl

theorem Splits.get_succ (h : whole.Splits x later) (i : Nat) : whole.get (i + 1) = later.get i := by
  obtain rfl | ⟨rfl, rfl⟩ := h <;> rfl

theorem Splits.faultsUpTo_succ (h : whole.Splits x later) (n : Nat) :
    whole.faultsUpTo (n + 1) = x.faults ++ later.faultsUpTo n := by
  obtain rfl | ⟨rfl, rfl⟩ := h
  · rfl
  · cases n <;> simp [faultsUpTo, toList]

end TokenStream

namespace Scanner

def stream (s : Scanner) : TokenStream := (scanFrom s.pos s.rest s.line []).prepend (s.queued.map (⟨[], ·⟩))

theorem scanFrom_end (pos : Nat) (line : LineState) :
    scanFrom pos [] { line with openIfs := 0 } [] = ⟨[], ⟨[], Token.endOfInput pos⟩⟩ := by
  rw [scanFrom]
  rfl

theorem scanOn_splits (pos : Nat) (chars : List Char) (line : LineState) (faults : List (Spanned LexFault)) :
    (scanFrom pos chars line faults).Splits (scanOn pos chars line faults).1
      (scanOn pos chars line faults).2.stream := by
  fun_induction scanOn pos chars line faults with
  | case1 pos line faults none =>
    refine .inr ⟨?_, ?_⟩
    · rw [scanFrom, none]
      rfl
    · rw [stream, scanFrom, none]
      rfl
  | case2 pos line faults t queued some =>
    refine .inl ?_
    rw [stream, scanFrom_end, scanFrom, some]
    simp only [withFaults, prepend, append_nil, cons_append, nil_append]
  | case3 pos line faults c rest step next faults' none ih =>
    rw [scanFrom]
    simp only [show (scanStep pos c rest line).tokens = [] from none]
    exact ih
  | case4 pos line faults c rest step next faults' t queued some =>
    refine .inl ?_
    rw [scanFrom]
    simp only [show (scanStep pos c rest line).tokens = t :: queued from some]
    rfl

theorem produce_splits (s : Scanner) : s.stream.Splits s.produce.1 s.produce.2.stream := by
  obtain ⟨pos, rest, line, queued⟩ := s
  cases queued with
  | nil => exact scanOn_splits pos rest line []
  | cons t queued => exact .inl rfl

end Scanner

/-! ## The lexer and the cursor -/

/-- The lexer has made the first tokens of the stream, has noted the faults before them, and
its scanner stands behind them. -/
structure Lexer.Reads (stream : TokenStream) (l : Lexer) : Prop where
  made : l.made = (List.range l.made.length).map stream.get
  reported : l.reported = stream.faultsUpTo l.made.length
  ahead : ∀ i, stream.get (l.made.length + i) = l.scanner.stream.get i
  faults : ∀ n, stream.faultsUpTo (l.made.length + n) =
    stream.faultsUpTo l.made.length ++ l.scanner.stream.faultsUpTo n
  cursor : l.cursor ≤ l.made.length

namespace Lexer

variable {stream : TokenStream} {l : Lexer}

theorem reads_ofText (text : String) : (ofText text).Reads (TokenStream.ofText text) where
  made := rfl
  reported := rfl
  ahead i := congrArg (TokenStream.ofText text).get (Nat.zero_add i)
  faults n := congrArg (TokenStream.ofText text).faultsUpTo (Nat.zero_add n)
  cursor := Nat.le_refl 0

theorem made_extend (l : Lexer) : l.extend.made = l.made ++ [l.scanner.produce.1.token] := rfl

theorem length_extend (l : Lexer) : l.extend.made.length = l.made.length + 1 := by
  rw [made_extend, length_append, length_singleton]

theorem Reads.extend (h : l.Reads stream) : l.extend.Reads stream := by
  have splits := l.scanner.produce_splits
  have first : stream.get l.made.length = l.scanner.produce.1.token := (h.ahead 0).trans splits.get_zero
  have upTo : stream.faultsUpTo (l.made.length + 1) = stream.faultsUpTo l.made.length ++ l.scanner.produce.1.faults := by
    rw [h.faults 1, splits.faultsUpTo_succ 0]
    exact congrArg (_ ++ ·) (append_nil _)
  constructor
  · rw [length_extend, range_succ, map_append, ← h.made, map_singleton, first]
    rfl
  · rw [length_extend, upTo, ← h.reported]
    rfl
  · intro i
    rw [length_extend, Nat.add_assoc, Nat.add_comm 1 i, h.ahead (i + 1), splits.get_succ i]
    rfl
  · intro n
    rw [length_extend, Nat.add_assoc, Nat.add_comm 1 n, h.faults (n + 1), splits.faultsUpTo_succ n, upTo, append_assoc]
    rfl
  · rw [length_extend]
    exact Nat.le_succ_of_le h.cursor

theorem Reads.next (h : l.Reads stream) :
    l.next.1 = stream.get l.cursor ∧ l.next.2.Reads stream ∧ l.next.2.cursor = l.cursor + 1 ∧
      l.next.2.made.length = max l.made.length (l.cursor + 1) := by
  -- it makes no difference here whether the token had to be made
  have taken {k : Lexer} (reads : k.Reads stream) (same : k.cursor = l.cursor) (there : l.cursor < k.made.length) :
      k.made.getD k.cursor (Token.endOfInput 0) = stream.get l.cursor ∧
        ({ k with cursor := k.cursor + 1 } : Lexer).Reads stream := by
    refine ⟨?_, reads.made, reads.reported, reads.ahead, reads.faults, same ▸ there⟩
    rw [same, reads.made, getD_eq_getElem?_getD, getElem?_map, getElem?_range there]
    rfl
  by_cases last : l.cursor = l.made.length
  · obtain ⟨answer, reads⟩ := taken h.extend rfl (by rw [length_extend, last]; exact Nat.lt_succ_self _)
    unfold Lexer.next
    rw [if_pos last]
    refine ⟨answer, reads, rfl, ?_⟩
    rw [last, Nat.max_eq_right (Nat.le_succ _)]
    exact l.length_extend
  · have there : l.cursor < l.made.length := Nat.lt_of_le_of_ne h.cursor last
    obtain ⟨answer, reads⟩ := taken h rfl there
    unfold Lexer.next
    rw [if_neg last]
    exact ⟨answer, reads, rfl, (Nat.max_eq_left there).symm⟩

theorem Reads.nextAfter (count : Nat) (h : l.Reads stream) :
    (l.nextAfter count).1 = stream.get (l.cursor + count) ∧ (l.nextAfter count).2.Reads stream ∧
      (l.nextAfter count).2.cursor = l.cursor + count + 1 ∧
        (l.nextAfter count).2.made.length = max l.made.length (l.cursor + count + 1) := by
  induction count generalizing l with
  | zero => exact h.next
  | succ count ih =>
    obtain ⟨-, reads, cursor, length⟩ := h.next
    obtain ⟨answer, reads', cursor', length'⟩ := ih reads
    have same : l.nextAfter (count + 1) = l.next.2.nextAfter count := rfl
    have place : l.cursor + (count + 1) = l.next.2.cursor + count := by omega
    rw [same, place]
    refine ⟨answer, reads', cursor', ?_⟩
    omega

theorem Reads.unget (h : l.Reads stream) {count : Nat} (enough : count ≤ l.cursor) :
    ∃ k, l.ungetMany? count = some k ∧ k.Reads stream ∧ k.cursor = l.cursor - count ∧ k.made = l.made := by
  induction count generalizing l with
  | zero => exact ⟨l, rfl, h, rfl, rfl⟩
  | succ count ih =>
    have back : l.unget? = some { l with cursor := l.cursor - 1 } := if_neg (by omega)
    have reads : ({ l with cursor := l.cursor - 1 } : Lexer).Reads stream :=
      ⟨h.made, h.reported, h.ahead, h.faults, Nat.le_trans (Nat.sub_le _ _) h.cursor⟩
    obtain ⟨k, ran, reads', cursor, made⟩ := ih reads (Nat.le_sub_of_add_le enough)
    refine ⟨k, ?_, reads', ?_, made⟩
    · rw [ungetMany?, back]
      exact ran
    · rw [cursor]
      dsimp only
      omega

end Lexer

/-- The lexer is at the place of the cursor, and has made what the cursor has looked at. -/
structure Keeps (l : Lexer) (c : TokenCursor) : Prop where
  reads : l.Reads c.stream
  index : c.index = l.cursor
  looked : c.looked = l.made.length

variable {steps : List CursorStep}

namespace Keeps

variable {l : Lexer}

theorem ofText (text : String) : Keeps (Lexer.ofText text) (TokenCursor.ofText text) :=
  ⟨Lexer.reads_ofText text, rfl, rfl⟩

theorem faults (h : Keeps l c) : c.faults = l.reported := by
  rw [TokenCursor.faults, h.looked, h.reads.reported]

theorem lookAhead (h : Keeps l c) (ahead : Nat) :
    ∃ k, l.lookAhead? (ahead + 1) = some ((c.lookAhead ahead).1, k) ∧ Keeps k (c.lookAhead ahead).2 := by
  obtain ⟨answer, reads, cursor, length⟩ := h.reads.nextAfter ahead
  obtain ⟨k, back, reads', cursor', made⟩ := reads.unget (show ahead + 1 ≤ _ by omega)
  have place : k.cursor = l.cursor := by omega
  have looked : max c.looked (c.index + ahead + 1) = k.made.length := by rw [h.looked, h.index, made, length]
  refine ⟨k, ?_, reads', h.index.trans place.symm, looked⟩
  unfold Lexer.lookAhead? TokenCursor.lookAhead
  dsimp only
  rw [back, answer, h.index]
  rfl

theorem step (h : Keeps l c) (a : CursorStep) :
    (l.step? a = none ∧ c.step? a = none) ∨
      ∃ answer l' c', l.step? a = some (answer, l') ∧ c.step? a = some (answer, c') ∧ Keeps l' c' := by
  cases a with
  | next =>
    obtain ⟨answer, reads, cursor, length⟩ := h.reads.next
    refine .inr ⟨some (c.stream.get c.index), l.next.2, c.next.2, ?_, rfl, reads, ?_, ?_⟩
    · rw [Lexer.step?, answer, h.index]
    · rw [cursor, ← h.index]
      rfl
    · rw [length, ← h.looked, ← h.index]
      rfl
  | peek =>
    obtain ⟨k, look, keeps⟩ := h.lookAhead 0
    refine .inr ⟨_, k, _, ?_, rfl, keeps⟩
    rw [Lexer.step?, Lexer.peek?, look]
    rfl
  | look dist =>
    cases dist with
    | zero => exact .inl ⟨rfl, rfl⟩
    | succ ahead =>
      obtain ⟨k, look, keeps⟩ := h.lookAhead ahead
      refine .inr ⟨_, k, _, ?_, rfl, keeps⟩
      rw [Lexer.step?, look]
      rfl
  | unget =>
    by_cases first : l.cursor = 0
    · refine .inl ⟨?_, ?_⟩
      · rw [Lexer.step?, Lexer.unget?, if_pos first]
        rfl
      · rw [TokenCursor.step?, TokenCursor.back?, if_pos (h.index.trans first)]
        rfl
    · have reads : ({ l with cursor := l.cursor - 1 } : Lexer).Reads c.stream :=
        ⟨h.reads.made, h.reads.reported, h.reads.ahead, h.reads.faults, Nat.le_trans (Nat.sub_le _ _) h.reads.cursor⟩
      refine .inr ⟨none, _, { c with index := c.index - 1 }, ?_, ?_, reads, ?_, h.looked⟩
      · rw [Lexer.step?, Lexer.unget?, if_neg first]
        rfl
      · rw [TokenCursor.step?, TokenCursor.back?, if_neg (h.index ▸ first)]
        rfl
      · exact congrArg (· - 1) h.index

theorem takeSteps (h : Keeps l c) (taken : BasicCompiler.takeSteps TokenCursor.step? c steps = some (answers, c')) :
    ∃ l', BasicCompiler.takeSteps Lexer.step? l steps = some (answers, l') ∧ Keeps l' c' := by
  induction steps generalizing l c answers with
  | nil =>
    cases taken
    exact ⟨l, rfl, h⟩
  | cons a rest ih =>
    unfold BasicCompiler.takeSteps at taken ⊢
    obtain ⟨-, none⟩ | ⟨answer, l1, c1, byLexer, byCursor, keeps⟩ := h.step a
    · rw [none] at taken
      cases taken
    · rw [byCursor] at taken
      rw [byLexer]
      simp only [Option.bind_eq_bind, Option.bind_some, Option.pure_def] at taken ⊢
      obtain ⟨⟨others, c2⟩, later, same⟩ := bind_eq_some_iff.mp taken
      cases same
      obtain ⟨l2, ran, keeps'⟩ := ih keeps later
      refine ⟨l2, ?_, keeps'⟩
      rw [ran]
      rfl

end Keeps

/-! ## Where steps lead -/

namespace CursorStep

def move (c : Nat) : CursorStep → Nat
  | .next => c + 1
  | .unget => c - 1
  | .peek | .look _ => c

def allowedAt (c : Nat) : CursorStep → Bool
  | .unget => 0 < c
  | .look dist => 0 < dist
  | .next | .peek => true

/-- What a step answers at a place of a stream. -/
def answer (stream : TokenStream) (c : Nat) : CursorStep → Option Token
  | .next | .peek => some (stream.get c)
  | .look dist => some (stream.get (c + dist - 1))
  | .unget => none

def reach (c : Nat) : CursorStep → Nat
  | .next | .peek => c + 1
  | .look dist => c + dist
  | .unget => 0

end CursorStep

/-- Whether steps can be taken one after the other: no look at nothing, no step back from the
first token. -/
def allowedFrom (c : Nat) : List CursorStep → Bool
  | [] => true
  | a :: rest => a.allowedAt c && allowedFrom (a.move c) rest

/-- How many tokens have been looked at in the end. -/
def reachFrom (c : Nat) : List CursorStep → Nat
  | [] => 0
  | a :: rest => max (a.reach c) (reachFrom (a.move c) rest)

/-- The place that steps from the first token lead to: the steps forward less those back. -/
def placeAfter (steps : List CursorStep) : Nat := steps.count .next - steps.count .unget

def answersFrom (stream : TokenStream) (c : Nat) : List CursorStep → List (Option Token)
  | [] => []
  | a :: rest => a.answer stream c :: answersFrom stream (a.move c) rest

theorem length_answersFrom (stream : TokenStream) (c : Nat) (steps : List CursorStep) :
    (answersFrom stream c steps).length = steps.length := by
  induction steps generalizing c with
  | nil => rfl
  | cons a rest ih => rw [answersFrom, length_cons, length_cons, ih]

theorem getElem?_answersFrom (stream : TokenStream) (c : Nat) (before after : List CursorStep) (a : CursorStep) :
    (answersFrom stream c (before ++ a :: after))[before.length]? =
      some (a.answer stream (before.foldl CursorStep.move c)) := by
  induction before generalizing c with
  | nil => rfl
  | cons b before ih => exact ih (b.move c)

theorem foldl_move (allowed : allowedFrom c steps = true) :
    steps.foldl CursorStep.move c + steps.count .unget = c + steps.count .next := by
  induction steps generalizing c with
  | nil => rfl
  | cons a rest ih =>
    obtain ⟨now, later⟩ := (Bool.and_eq_true _ _).mp allowed
    have counted := ih later
    cases a with
    | next =>
      simp only [CursorStep.move] at counted
      simp only [foldl_cons, CursorStep.move, count_cons_self, count_cons_of_ne
        (show CursorStep.next ≠ CursorStep.unget by decide)]
      omega
    | unget =>
      have inside : 0 < c := of_decide_eq_true now
      simp only [CursorStep.move] at counted
      simp only [foldl_cons, CursorStep.move, count_cons_self, count_cons_of_ne
        (show CursorStep.unget ≠ CursorStep.next by decide)]
      omega
    | peek | look dist =>
      exact counted

theorem foldl_move_zero (allowed : allowedFrom 0 steps = true) : steps.foldl CursorStep.move 0 = placeAfter steps := by
  have counted := foldl_move allowed
  unfold placeAfter
  omega

theorem allowedFrom_append {after : List CursorStep} (allowed : allowedFrom c (before ++ after) = true) :
    allowedFrom c before = true := by
  induction before generalizing c with
  | nil => rfl
  | cons a before ih =>
    obtain ⟨now, later⟩ := (Bool.and_eq_true _ _).mp allowed
    exact (Bool.and_eq_true _ _).mpr ⟨now, ih later⟩

namespace TokenCursor

theorem step?_eq {c : TokenCursor} (allowed : a.allowedAt c.index = true) :
    c.step? a = some (a.answer c.stream c.index,
      { c with index := a.move c.index, looked := max c.looked (a.reach c.index) }) := by
  cases a with
  | next => rfl
  | peek => rfl
  | look dist =>
    cases dist with
    | zero => cases allowed
    | succ ahead => rfl
  | unget =>
    have inside : c.index ≠ 0 := Nat.pos_iff_ne_zero.mp (of_decide_eq_true allowed)
    rw [step?, back?, if_neg inside, CursorStep.reach, Nat.max_zero]
    rfl

theorem takeSteps_eq {c : TokenCursor} (allowed : allowedFrom c.index steps = true) :
    takeSteps step? c steps = some (answersFrom c.stream c.index steps,
      { c with index := steps.foldl CursorStep.move c.index, looked := max c.looked (reachFrom c.index steps) }) := by
  induction steps generalizing c with
  | nil =>
    rw [reachFrom, Nat.max_zero]
    rfl
  | cons a rest ih =>
    obtain ⟨now, later⟩ := (Bool.and_eq_true _ _).mp allowed
    rw [takeSteps, step?_eq now]
    simp only [bind_eq_bind, bind_some]
    rw [ih later]
    simp only [Option.bind_some, Option.pure_def, Nat.max_assoc]
    rfl

end TokenCursor

/-! ## Any steps over any text -/

/-- Whatever steps are taken that can be taken, each is answered from the stream of the text
at the place that the steps before it lead to. In the end the lexer is at the place that all
of them lead to, and has noted the faults before the tokens that were looked at. -/
theorem Lexer.takeSteps_ofText (text : String) (steps : List CursorStep) (allowed : allowedFrom 0 steps = true) :
    ∃ answers l, takeSteps Lexer.step? (ofText text) steps = some (answers, l) ∧ answers.length = steps.length ∧
      (∀ before a after, steps = before ++ a :: after →
        answers[before.length]? = some (a.answer (TokenStream.ofText text) (placeAfter before))) ∧
      l.cursor = placeAfter steps ∧
      l.reported = (TokenStream.ofText text).faultsUpTo (reachFrom 0 steps) := by
  have walked : takeSteps TokenCursor.step? (TokenCursor.ofText text) steps = some (_, _) :=
    TokenCursor.takeSteps_eq allowed
  obtain ⟨l, ran, keeps⟩ := (Keeps.ofText text).takeSteps walked
  refine ⟨_, l, ran, length_answersFrom _ _ _, fun before a after split => ?_, ?_, ?_⟩
  · subst split
    rw [← foldl_move_zero (allowedFrom_append allowed)]
    exact getElem?_answersFrom _ _ _ _ _
  · rw [← keeps.index]
    exact foldl_move_zero allowed
  · rw [← keeps.faults]
    exact congrArg (TokenStream.faultsUpTo _) (Nat.zero_max _)

/-- Back and forth over a single-line `if`, its implied end and the end of input, with a
character between them that is no token. -/
def backAndForth : List CursorStep :=
  [.look 4, .next, .next, .peek, .unget, .next, .look 5, .next, .unget, .unget, .look 1]

theorem backAndForth_answered : allowedFrom 0 backAndForth = true ∧
    ∃ answers l, takeSteps Lexer.step? (Lexer.ofText "if a then b @\n\"c") backAndForth = some (answers, l) ∧
      answers[10]? = some (some ((TokenStream.ofText "if a then b @\n\"c").get 1)) ∧ l.cursor = 1 ∧
        l.reported = (TokenStream.ofText "if a then b @\n\"c").faultsUpTo 7 := by
  have allowed : allowedFrom 0 backAndForth = true := by decide
  obtain ⟨answers, l, ran, -, each, cursor, reported⟩ :=
    Lexer.takeSteps_ofText "if a then b @\n\"c" backAndForth allowed
  exact ⟨allowed, answers, l, ran, each (backAndForth.take 10) (.look 1) [] rfl, cursor, reported⟩

end BasicCompiler
