/-
# The tokens of a text without their places

The scanner reads a text alike wherever it stands in the source: the `outline` of a text, its tokens without their
places, does not depend on the offset.
-/
import BasicCompiler.Proofs.Source.Rewording
import BasicCompiler.Proofs.Token.Gaps

namespace BasicCompiler

open List TokenStream

/-! ## Steps without places -/

def Step.erase (s : Step) : Step :=
  ⟨s.extent, s.line, s.tokens.map Rewording.erase.token, s.faults.map fun f => ⟨f.node, Span.none⟩⟩

namespace Step

theorem erase_lineEnd (extent : Nat) (line : LineState) (pos : Nat) (faults : List (Spanned LexFault)) :
    (lineEnd extent line pos faults).erase =
      (lineEnd extent line 0 (faults.map fun f => ⟨f.node, Span.none⟩)).erase := by
  simp only [erase, lineEnd, map_replicate, map_map]
  simp only [isEmpty_replicate]
  rfl

theorem erase_ite [Decidable c] {s t s' t' : Step} (yes : s.erase = s'.erase) (no : t.erase = t'.erase) :
    (if c then s else t).erase = (if c then s' else t').erase := by
  split
  · exact yes
  · exact no

end Step

section Anywhere

variable (pos : Nat) (c : Char) (rest : List Char) (line : LineState)

theorem commentStep_erase (opening : Nat) (mark : List Char) :
    (commentStep pos c rest line opening mark).erase = (commentStep 0 c rest line opening mark).erase := by
  cases found : indexOfMark? mark (rest.drop opening) with
  | none =>
    simp only [commentStep, found]
    split
    · rw [Step.erase_lineEnd, Step.erase_lineEnd _ _ 0]
      rfl
    · rfl
  | some n =>
    simp only [commentStep, found]
    split
    · exact Step.erase_lineEnd _ _ _ _
    · rfl

theorem wordStep_erase (extent : Nat) (after : List Char) (word : String) (span : Span) :
    (wordStep extent after line word span).erase = (wordStep extent after line word Span.none).erase := by
  unfold wordStep
  split
  · rfl
  · unfold thenStep
    cases line.opener <;> rfl
  · rfl
  · rfl
  · split <;> rfl

theorem nameStep_erase : (nameStep pos c rest line).erase = (nameStep 0 c rest line).erase := by
  rw [nameStep_eq, nameStep_eq]
  refine Step.erase_ite rfl (Step.erase_ite rfl (Step.erase_ite (commentStep_erase _ _ _ _ _ _) ?_))
  rw [wordStep_erase, wordStep_erase _ _ _ _ ⟨0, _⟩]

theorem numberStep_erase : (numberStep pos c rest line).erase = (numberStep 0 c rest line).erase := by
  unfold numberStep
  dsimp only
  split <;> rfl

theorem stringStep_erase : (stringStep pos c rest line).erase = (stringStep 0 c rest line).erase := by
  unfold stringStep
  dsimp only
  split <;> rfl

theorem colonStep_erase : (colonStep pos rest line).erase = (colonStep 0 rest line).erase := by
  unfold colonStep
  split <;> rfl

theorem signStep_erase : (signStep pos c rest line).erase = (signStep 0 c rest line).erase := by
  unfold signStep
  split <;> rfl

theorem scanStep_erase : (scanStep pos c rest line).erase = (scanStep 0 c rest line).erase := by
  unfold scanStep
  refine Step.erase_ite (Step.erase_lineEnd _ _ _ _) ?_
  refine Step.erase_ite rfl (Step.erase_ite rfl (Step.erase_ite rfl (Step.erase_ite rfl ?_)))
  refine Step.erase_ite (commentStep_erase _ _ _ _ _ _) ?_
  refine Step.erase_ite (colonStep_erase _ _ _) ?_
  refine Step.erase_ite (stringStep_erase _ _ _ _) ?_
  refine Step.erase_ite (numberStep_erase _ _ _ _) ?_
  exact Step.erase_ite (nameStep_erase _ _ _ _) (signStep_erase _ _ _ _)

end Anywhere

/-! ## Outlines -/

namespace TokenStream

theorem map_withFaults (faults : List (Spanned LexFault)) (tokens : List Token) :
    (withFaults faults tokens).map (·.token) = tokens := by
  cases tokens with
  | nil => rfl
  | cons t ts => simp [withFaults, Function.comp_def]

theorem tokens_prepend (front : List Lexeme) (s : TokenStream) :
    (s.prepend front).tokens = front.map (·.token) ++ s.tokens := by
  simp only [tokens, toList, prepend, map_append, append_assoc]

theorem scanFrom_nil_tokens (pos : Nat) (line : LineState) (faults : List (Spanned LexFault)) :
    (scanFrom pos [] line faults).tokens =
      replicate line.openIfs (Token.impliedEndIf pos) ++ [Token.endOfInput pos] := by
  rw [scanFrom]
  cases line.openIfs with
  | zero => rfl
  | succ n => simp [withFaults, replicate_succ, tokens, toList]

theorem scanFrom_cons_tokens (pos : Nat) (c : Char) (rest : List Char) (line : LineState)
    (faults : List (Spanned LexFault)) :
    ∃ later, (scanFrom pos (c :: rest) line faults).tokens =
      (scanStep pos c rest line).tokens ++
        (scanFrom (pos + byteLength (c :: rest.take (scanStep pos c rest line).extent))
          (rest.drop (scanStep pos c rest line).extent) (scanStep pos c rest line).line later).tokens := by
  rw [scanFrom]
  cases found : (scanStep pos c rest line).tokens with
  | nil => exact ⟨_, rfl⟩
  | cons t ts => exact ⟨[], by rw [tokens_prepend, map_withFaults]⟩

end TokenStream

def outline (chars : List Char) (line : LineState) : List Token :=
  (scanFrom 0 chars line []).tokens.map Rewording.erase.token

theorem scanFrom_erase (pos : Nat) (chars : List Char) (line : LineState) (faults : List (Spanned LexFault)) :
    (scanFrom pos chars line faults).tokens.map Rewording.erase.token = outline chars line := by
  suffices same : ∀ (n pos pos' : Nat) (chars : List Char) (line : LineState) (faults faults' : List (Spanned LexFault)),
      chars.length = n → (scanFrom pos chars line faults).tokens.map Rewording.erase.token =
        (scanFrom pos' chars line faults').tokens.map Rewording.erase.token from
    same _ _ _ _ _ _ _ rfl
  intro n
  induction n using Nat.strongRecOn with
  | ind n ih =>
    intro pos pos' chars line faults faults' length
    cases chars with
    | nil =>
      rw [scanFrom_nil_tokens, scanFrom_nil_tokens]
      simp only [map_append, map_replicate]
      rfl
    | cons c rest =>
      obtain ⟨later, tokens⟩ := scanFrom_cons_tokens pos c rest line faults
      obtain ⟨later', split'⟩ := scanFrom_cons_tokens pos' c rest line faults'
      have step := (scanStep_erase pos c rest line).trans (scanStep_erase pos' c rest line).symm
      simp only [Step.erase, Step.mk.injEq] at step
      rw [tokens, split', map_append, map_append, step.1, step.2.1, step.2.2.1]
      congr 1
      refine ih (rest.drop (scanStep pos' c rest line).extent).length ?_ _ _ _ _ _ _ rfl
      rw [← length, length_cons, length_drop]
      omega

theorem outline_cons (c : Char) (rest : List Char) (line : LineState) :
    outline (c :: rest) line =
      (scanStep 0 c rest line).tokens.map Rewording.erase.token ++
        outline (rest.drop (scanStep 0 c rest line).extent) (scanStep 0 c rest line).line := by
  obtain ⟨later, tokens⟩ := scanFrom_cons_tokens 0 c rest line []
  rw [outline, tokens, map_append, scanFrom_erase]

/-! ## Plain texts -/

/-- A character at which the scanner takes a step, what follows it, and the state of its line. -/
structure Stop where
  char : Char
  rest : List Char
  line : LineState

namespace Stop

def step (s : Stop) : Step := scanStep 0 s.char s.rest s.line

def keyword? (s : Stop) : Option Keyword := keywordAt? s.char s.rest

/-- Neither the end of the line, nor a line to be joined, nor a comment begins here. -/
def isPlain (s : Stop) : Bool := s.char != '\n' && !joinsLines s.char s.rest && !beginsComment s.char s.rest

def separates (s : Stop) : Bool := s.char == ':' && s.step.tokens.isEmpty

end Stop

def stopsFrom (chars : List Char) (line : LineState) : List Stop :=
  match chars with
  | [] => []
  | c :: rest => ⟨c, rest, line⟩ :: stopsFrom (rest.drop (scanStep 0 c rest line).extent) (scanStep 0 c rest line).line
termination_by chars.length
decreasing_by
  simp only [length_drop, length_cons]; omega

variable {line : LineState}

namespace TokenStream

def stops (text : String) : List Stop := stopsFrom text.toList LineState.start

theorem faults_prepend (front : List Lexeme) (s : TokenStream) :
    (s.prepend front).faults = front.flatMap (·.faults) ++ s.faults := by
  simp only [faults, toList, prepend, flatMap_append, append_assoc]

theorem flatMap_withFaults (fs : List (Spanned LexFault)) (t : Token) (ts : List Token) :
    (withFaults fs (t :: ts)).flatMap (·.faults) = fs := by
  simp [withFaults, flatMap_map]

theorem scanFrom_no_faults (clean : (scanFrom pos chars line fs).faults = []) : fs = [] := by
  fun_induction scanFrom pos chars line fs with
  | case1 pos line fs empty => simpa [faults, toList] using clean
  | case2 pos line fs nonempty =>
    cases implied : replicate line.openIfs (Token.impliedEndIf pos) with
    | nil => simp [implied, withFaults] at nonempty
    | cons t ts =>
      rw [faults, toList, implied, flatMap_append, flatMap_withFaults] at clean
      exact (append_eq_nil_iff.mp clean).1
  | case3 pos line fs c rest step next more empty ih => exact (append_eq_nil_iff.mp (ih clean)).1
  | case4 pos line fs c rest step next more nonempty ih =>
    cases tokens : step.tokens with
    | nil => exact absurd tokens nonempty
    | cons t ts =>
      rw [tokens, faults_prepend, flatMap_withFaults] at clean
      exact (append_eq_nil_iff.mp (append_eq_nil_iff.mp clean).1).1

theorem scanFrom_cons_faults (clean : (scanFrom pos (c :: rest) line fs).faults = []) :
    (scanStep pos c rest line).faults = [] ∧ ∃ next later,
      (scanFrom next (rest.drop (scanStep pos c rest line).extent) (scanStep pos c rest line).line later).faults =
        [] := by
  rw [scanFrom] at clean
  cases found : (scanStep pos c rest line).tokens with
  | nil =>
    simp only [found] at clean
    exact ⟨(append_eq_nil_iff.mp (scanFrom_no_faults clean)).2, _, _, clean⟩
  | cons t ts =>
    simp only [found, faults_prepend, flatMap_withFaults, append_eq_nil_iff] at clean
    exact ⟨clean.1.2, _, _, clean.2⟩

theorem stopsFrom_clean
    (clean : (scanFrom pos chars line fs).faults = []) : ∀ s ∈ stopsFrom chars line, s.step.faults = [] := by
  fun_induction stopsFrom chars line generalizing pos fs with
  | case1 line => exact fun s empty => nomatch empty
  | case2 line c rest ih =>
    have step := scanStep_erase pos c rest line
    simp only [Step.erase, Step.mk.injEq] at step
    obtain ⟨extent, ahead, -, faults⟩ := step
    obtain ⟨now, next, later, clean⟩ := scanFrom_cons_faults clean
    rw [extent, ahead] at clean
    rw [now, map_nil, eq_comm, map_eq_nil_iff] at faults
    exact forall_mem_cons.mpr ⟨faults, ih clean⟩

end TokenStream

/-! ## Lines -/

namespace LineState

def mayLabel (l : LineState) : Bool := l.afterLineName && !l.atStart

def Alike (l l' : LineState) : Prop := l.atStart = l'.atStart ∧ l.mayLabel = l'.mayLabel

end LineState

/-- A text of one line without `then` and `else`. -/
structure IsInline (chars : List Char) (line : LineState) : Prop where
  plain : ∀ s ∈ stopsFrom chars line, s.isPlain = true
  clean : ∀ s ∈ stopsFrom chars line, s.step.faults = []
  unbranched : ∀ s ∈ stopsFrom chars line, s.keyword? ≠ some .kwThen ∧ s.keyword? ≠ some .kwElse

namespace IsInline

section

variable (is : IsInline (c :: rest) line)
include is

theorem tail : IsInline (rest.drop (scanStep 0 c rest line).extent) (scanStep 0 c rest line).line where
  plain s later := is.plain s (by rw [stopsFrom]; exact .tail _ later)
  clean s later := is.clean s (by rw [stopsFrom]; exact .tail _ later)
  unbranched s later := is.unbranched s (by rw [stopsFrom]; exact .tail _ later)

theorem head_unbranched : keywordAt? c rest ≠ some .kwThen ∧ keywordAt? c rest ≠ some .kwElse :=
  is.unbranched ⟨c, rest, line⟩ (by rw [stopsFrom]; exact .head _)

theorem head : StandsAlone c rest := by
  have first : ⟨c, rest, line⟩ ∈ stopsFrom (c :: rest) line := by
    rw [stopsFrom]
    exact .head _
  have plain := is.plain _ first
  simp only [Stop.isPlain, Bool.and_eq_true, bne_iff_ne, Bool.not_eq_true'] at plain
  exact standsAlone plain.1.1 plain.1.2 plain.2 is.head_unbranched.1 (is.clean _ first)

end

end IsInline

/-! ## Runs through a text -/

theorem LineState.alike_start (atStart : line.atStart = true) : line.Alike .start := by
  refine ⟨atStart, ?_⟩
  rw [LineState.mayLabel, atStart, Bool.not_true, Bool.and_false]
  rfl

def LineState.afterToken (line : LineState) (kind : TokenKind) : LineState :=
  { line with atStart := false, afterLineName := decide (kind = .ident) && line.atStart }

theorem Step.token_eq (plain : kind ≠ .keyword .kwElse) (extent : Nat) (line : LineState)
    (text : String) (span : Span) :
    token extent line kind text span =
      ⟨extent, line.afterToken kind, [⟨kind, text, span, line.atStart, false⟩], []⟩ := by
  simp [token, plain, Token.isLineName, LineState.afterToken]

section

variable (blank : isBlank c = true) (rest : List Char) (line : LineState)
include blank

theorem scanStep_blank : scanStep pos c rest line = Step.skip 0 line := by
  simp only [isBlank, Bool.or_eq_true, beq_iff_eq] at blank
  rcases blank with (rfl | rfl) | rfl <;> rfl

theorem outline_blank : outline (c :: rest) line = outline rest line := by
  rw [outline_cons, scanStep_blank blank]
  rfl

end

theorem outline_dropWhile_blank (chars : List Char) (line : LineState) :
    outline (chars.dropWhile isBlank) line = outline chars line := by
  induction chars with
  | nil => rfl
  | cons c rest ih =>
    cases blank : isBlank c with
    | true => rw [dropWhile_cons_of_pos blank, ih, outline_blank blank]
    | false => rw [dropWhile_cons_of_neg (by simp [blank])]

theorem scanStep_colon (rest : List Char) (line : LineState) :
    scanStep 0 ':' rest line =
      if line.mayLabel && restOfLineBlank rest then Step.token 0 line (.punct .colon) ":" ⟨0, 0 + 1⟩
      else Step.skip 0 { line with atStart := true } := by
  simp [scanStep, isBlank, colonStep, LineState.mayLabel]

theorem outline_colon (rest : List Char) (line : LineState) :
    outline (':' :: rest) line =
      if line.mayLabel && restOfLineBlank rest then
        ⟨.punct .colon, ":", Span.none, line.atStart, false⟩ :: outline rest (line.afterToken (.punct .colon))
      else outline rest { line with atStart := true } := by
  rw [outline_cons, scanStep_colon]
  split
  · rw [Step.token_eq (by decide)]
    rfl
  · rfl

theorem outline_token {tail : List Char} {span : Span} (inside : extent ≤ rest.length)
    (plain : kind ≠ .keyword .kwElse)
    (read : scanStep 0 c (rest ++ tail) line = Step.token extent (line.openedBy opener) kind text span) :
    outline (c :: rest ++ tail) line =
      ⟨kind, text, Span.none, line.atStart, false⟩ ::
        outline (rest.drop extent ++ tail) ((line.openedBy opener).afterToken kind) := by
  rw [cons_append, outline_cons, read, Step.token_eq plain, drop_append_of_le_length inside]
  cases opener <;> rfl

theorem alike_afterToken (alike : line.Alike own) (opener opener' : Option LineOpener)
    (kind : TokenKind) : ((line.openedBy opener).afterToken kind).Alike ((own.openedBy opener').afterToken kind) := by
  have atStart (l : LineState) (o : Option LineOpener) : (l.openedBy o).atStart = l.atStart := by cases o <;> rfl
  simp only [LineState.Alike, LineState.mayLabel, LineState.afterToken, atStart, alike.1, and_self]

theorem IsInline.dropWhile_blank (is : IsInline chars line) : IsInline (chars.dropWhile isBlank) line := by
  induction chars with
  | nil => exact is
  | cons c rest ih =>
    cases blank : isBlank c with
    | true =>
      have later := is.tail
      rw [scanStep_blank blank] at later
      rw [dropWhile_cons_of_pos blank]
      exact ih later
    | false => rwa [dropWhile_cons_of_neg (by simp [blank])]

/-! ## Bodies of branches -/

def lastVisible (chars : List Char) : Option Char := (chars.filter (!isBlank ·)).getLast?

theorem dropWhile_of_lastVisible (visible : lastVisible chars ≠ none) :
    ∃ d more, chars.dropWhile isBlank = d :: more := by
  induction chars with
  | nil => exact absurd rfl visible
  | cons c rest ih =>
    cases blank : isBlank c with
    | true =>
      rw [dropWhile_cons_of_pos blank]
      exact ih (by simpa [lastVisible, blank] using visible)
    | false => exact ⟨c, rest, dropWhile_cons_of_neg (by simp [blank])⟩

theorem lastVisible_drop (last : lastVisible (d :: chars) ≠ some c) (n : Nat) :
    lastVisible (chars.drop n) ≠ some c := by
  intro later
  apply last
  rw [← take_append_drop n chars, ← cons_append, lastVisible, filter_append, getLast?_append]
  rw [lastVisible] at later
  rw [later, Option.some_or]

theorem visible_behind (visible : isBlank c = false)
    (last : lastVisible (c :: rest) ≠ some c) : ∃ d more, rest.dropWhile isBlank = d :: more := by
  cases behind : rest.dropWhile isBlank with
  | cons d more => exact ⟨d, more, rfl⟩
  | nil =>
    refine absurd ?_ last
    have blanks : ∀ d ∈ rest, isBlank d = true := by
      rw [← takeWhile_append_dropWhile (p := isBlank) (l := rest), behind, append_nil]
      exact fun d inside => (all_eq_true.mp all_takeWhile) d inside
    have unseen : rest.filter (!isBlank ·) = [] := filter_eq_nil_iff.mpr (by simpa using blanks)
    simp [lastVisible, visible, unseen]

theorem restOfLineBlank_cons (behind : rest.dropWhile isBlank = d :: more) :
    restOfLineBlank rest = (d == '\n' || d == '\x60' || (d == '/' && more.head? == some '/') ||
      fold (String.ofList ((d :: more).takeWhile isNameChar)) == "rem") := by
  unfold restOfLineBlank
  rw [behind]
  split
  · next empty => cases empty
  · next first => cases first; rfl
  · next first => cases first; rfl
  · next first => cases first; rfl
  · next newline mark slashes =>
    have notNewline : (d == '\n') = false := beq_eq_false_iff_ne.mpr fun is => newline more (by rw [is])
    have notMark : (d == '\x60') = false := beq_eq_false_iff_ne.mpr fun is => mark more (by rw [is])
    have notSlashes : (d == '/' && more.head? == some '/') = false := by
      rw [Bool.eq_false_iff]
      intro both
      simp only [Bool.and_eq_true, beq_iff_eq, head?_eq_some_iff] at both
      obtain ⟨rfl, more, rfl⟩ := both
      exact slashes more rfl
    rw [notNewline, notMark, notSlashes]
    rfl

theorem restOfLineBlank_gap {tail : List Char} (gap : Gap tail) (behind : rest.dropWhile isBlank = d :: more) :
    restOfLineBlank (rest ++ tail) = restOfLineBlank rest := by
  have behind' : (rest ++ tail).dropWhile isBlank = d :: (more ++ tail) := by
    rw [dropWhile_append, behind]
    rfl
  rw [restOfLineBlank_cons behind, restOfLineBlank_cons behind', head?_gap gap more (by decide) (by decide),
    ← cons_append, names_gap gap]

/-- The text adds the same tokens to all lines that read it like `own`, whatever follows it. -/
def Contributes (chars : List Char) (own : LineState) : Prop :=
  ∃ ts, ∀ line tail, line.Alike own → Gap tail → ∃ line', line'.openIfs = line.openIfs ∧
    outline (chars ++ tail) line = ts ++ outline tail line'

namespace Contributes

theorem blank (blank : isBlank c = true) (later : Contributes rest own) : Contributes (c :: rest) own := by
  obtain ⟨ts, run⟩ := later
  refine ⟨ts, fun line tail alike gap => ?_⟩
  rw [cons_append, outline_blank blank]
  exact run line tail alike gap

theorem label (behind : rest.dropWhile isBlank = d :: more) (label : (own.mayLabel && restOfLineBlank rest) = true)
    (later : Contributes rest (own.afterToken (.punct .colon))) : Contributes (':' :: rest) own := by
  obtain ⟨ts, run⟩ := later
  refine ⟨⟨.punct .colon, ":", Span.none, own.atStart, false⟩ :: ts, fun line tail alike gap => ?_⟩
  obtain ⟨line', ifs, same⟩ := run _ tail (alike_afterToken alike none none _) gap
  refine ⟨line', ifs, ?_⟩
  rw [cons_append, outline_colon, alike.2, restOfLineBlank_gap gap behind, if_pos label, alike.1, cons_append, ← same]
  rfl

theorem separator (behind : rest.dropWhile isBlank = d :: more)
    (separates : ¬(own.mayLabel && restOfLineBlank rest) = true)
    (later : Contributes rest { own with atStart := true }) : Contributes (':' :: rest) own := by
  obtain ⟨ts, run⟩ := later
  refine ⟨ts, fun line tail alike gap => ?_⟩
  have begins : LineState.Alike { line with atStart := true } { own with atStart := true } := by
    simp only [LineState.Alike, LineState.mayLabel, Bool.not_true, Bool.and_false, and_self]
  obtain ⟨line', ifs, same⟩ := run _ tail begins gap
  refine ⟨line', ifs, ?_⟩
  rw [cons_append, outline_colon, alike.2, restOfLineBlank_gap gap behind, if_neg separates, same]

theorem token (inside : extent ≤ rest.length) (plain : kind ≠ .keyword .kwElse) (read : ∀ pos tail line, Gap tail →
      scanStep pos c (rest ++ tail) line = Step.token extent (line.openedBy opener) kind text
        ⟨pos, pos + byteLength (c :: rest.take extent)⟩)
    (later : Contributes (rest.drop extent) ((own.openedBy opener).afterToken kind)) :
    Contributes (c :: rest) own := by
  obtain ⟨ts, run⟩ := later
  refine ⟨⟨kind, text, Span.none, own.atStart, false⟩ :: ts, fun line tail alike gap => ?_⟩
  obtain ⟨line', ifs, same⟩ := run _ tail (alike_afterToken alike opener opener kind) gap
  refine ⟨line', ?_, ?_⟩
  · rw [ifs]
    cases opener <;> rfl
  · rw [outline_token inside plain (read 0 tail line gap), alike.1, same]
    rfl

end Contributes

theorem scanStep_token (plain : kind ≠ .keyword .kwElse) (read : ∀ pos tail line, Gap tail →
      scanStep pos c (rest ++ tail) line = Step.token extent (line.openedBy opener) kind text
        ⟨pos, pos + byteLength (c :: rest.take extent)⟩) (line : LineState) :
    (scanStep 0 c rest line).extent = extent ∧
      (scanStep 0 c rest line).line = (line.openedBy opener).afterToken kind := by
  have step := read 0 [] line .nil
  rw [append_nil, Step.token_eq plain] at step
  rw [step]
  exact ⟨rfl, rfl⟩

theorem contributes_body (is : IsInline chars own) (last : lastVisible chars ≠ some ':') : Contributes chars own := by
  fun_induction stopsFrom chars own with
  | case1 own => exact ⟨[], fun line tail _ _ => ⟨line, rfl, rfl⟩⟩
  | case2 own c rest ih =>
    replace ih := ih is.tail (lastVisible_drop last _)
    cases is.head with
    | blank blank =>
      rw [scanStep_blank blank] at ih
      exact .blank blank ih
    | colon colon =>
      subst colon
      obtain ⟨d, more, behind⟩ := visible_behind (by decide) last
      rw [scanStep_colon] at ih
      by_cases label : (own.mayLabel && restOfLineBlank rest) = true
      · rw [if_pos label, Step.token_eq (by decide)] at ih
        exact .label behind label ih
      · rw [if_neg label] at ih
        exact .separator behind label ih
    | token extent kind text opener inside onlyElse opens read =>
      have plain : kind ≠ .keyword .kwElse := fun isElse => is.head_unbranched.2 (onlyElse isElse)
      obtain ⟨ends, ahead⟩ := scanStep_token plain read own
      rw [ends, ahead] at ih
      exact .token inside plain read ih

/-! ## Conditions -/

/-- A condition is an inline text without separators and without `if` and `elseif`. -/
structure IsCondition (chars : List Char) (line : LineState) : Prop extends IsInline chars line where
  undivided : ∀ s ∈ stopsFrom chars line, s.separates = false
  closed : ∀ s ∈ stopsFrom chars line, s.keyword? ≠ some .kwIf ∧ s.keyword? ≠ some .kwElseIf

namespace IsCondition

variable (is : IsCondition (c :: rest) line)
include is

theorem tail : IsCondition (rest.drop (scanStep 0 c rest line).extent) (scanStep 0 c rest line).line where
  toIsInline := is.toIsInline.tail
  undivided s later := is.undivided s (by rw [stopsFrom]; exact .tail _ later)
  closed s later := is.closed s (by rw [stopsFrom]; exact .tail _ later)

theorem head_undivided : (Stop.mk c rest line).separates = false := is.undivided _ (by rw [stopsFrom]; exact .head _)

theorem head_closed : keywordAt? c rest ≠ some .kwIf ∧ keywordAt? c rest ≠ some .kwElseIf :=
  is.closed ⟨c, rest, line⟩ (by rw [stopsFrom]; exact .head _)

end IsCondition

def LineState.IsInside (l : LineState) : Prop := l.atStart = false ∧ l.afterLineName = false

theorem LineState.IsInside.afterToken (inside : line.IsInside) (kind : TokenKind) : (line.afterToken kind).IsInside :=
  ⟨rfl, by simp only [LineState.afterToken, inside.1, Bool.and_false]⟩

def AddsTokens (chars : List Char) (line : LineState) : Prop :=
  ∃ ts line', line'.opener = line.opener ∧ line'.openIfs = line.openIfs ∧
    ∀ tail, Gap tail → outline (chars ++ tail) line = ts ++ outline tail line'

namespace AddsTokens

theorem blank (blank : isBlank c = true) (later : AddsTokens rest line) : AddsTokens (c :: rest) line := by
  obtain ⟨ts, line', opener, ifs, run⟩ := later
  refine ⟨ts, line', opener, ifs, fun tail gap => ?_⟩
  rw [cons_append, outline_blank blank, run tail gap]

theorem separator (inside : line.IsInside) (later : AddsTokens rest { line with atStart := true }) :
    AddsTokens (':' :: rest) line := by
  obtain ⟨ts, line', opener, ifs, run⟩ := later
  refine ⟨ts, line', opener, ifs, fun tail gap => ?_⟩
  have unlabelled : line.mayLabel = false := by rw [LineState.mayLabel, inside.2, Bool.false_and]
  rw [cons_append, outline_colon, unlabelled, Bool.false_and, if_neg Bool.false_ne_true, run tail gap]

theorem token (inside : extent ≤ rest.length) (plain : kind ≠ .keyword .kwElse) (read : ∀ pos tail line, Gap tail →
      scanStep pos c (rest ++ tail) line = Step.token extent (line.openedBy none) kind text
        ⟨pos, pos + byteLength (c :: rest.take extent)⟩)
    (later : AddsTokens (rest.drop extent) (line.afterToken kind)) : AddsTokens (c :: rest) line := by
  obtain ⟨ts, line', opener, ifs, run⟩ := later
  refine ⟨⟨kind, text, Span.none, line.atStart, false⟩ :: ts, line', opener, ifs, fun tail gap => ?_⟩
  rw [outline_token inside plain (read 0 tail line gap), cons_append, ← run tail gap]
  rfl

end AddsTokens

/-- Behind the `if` no `:` marks a label, so a condition is read the same whatever follows it.
On its own it has at most one `:`, that of a label, behind which no other can come. -/
theorem addsTokens_condition (is : IsCondition chars own) (line : LineState)
    (inside : line.IsInside ∨ own.IsInside) : AddsTokens chars line := by
  fun_induction stopsFrom chars own generalizing line with
  | case1 own => exact ⟨[], line, rfl, rfl, fun _ _ => rfl⟩
  | case2 own c rest ih =>
    replace ih := ih is.tail
    cases is.head with
    | blank blank =>
      rw [scanStep_blank blank] at ih
      exact .blank blank (ih line inside)
    | colon colon =>
      subst colon
      have label : (own.mayLabel && restOfLineBlank rest) = true := by
        have undivided := is.head_undivided
        rw [Stop.separates, Stop.step, scanStep_colon] at undivided
        split at undivided
        · assumption
        · cases undivided
      have ownOutside : ¬own.IsInside := by
        intro ownInside
        rw [LineState.mayLabel, ownInside.2] at label
        cases label
      rw [scanStep_colon, if_pos label, Step.token_eq (by decide)] at ih
      exact .separator (inside.resolve_right ownOutside) (ih _ (.inr ⟨rfl, rfl⟩))
    | token extent kind text opener inText onlyElse opens read =>
      have plain : kind ≠ .keyword .kwElse := fun isElse => is.head_unbranched.2 (onlyElse isElse)
      obtain rfl : opener = none := by
        cases opener with
        | none => rfl
        | some opener =>
          rcases opens (Option.some_ne_none opener) with isIf | isElseIf
          · exact absurd isIf is.head_closed.1
          · exact absurd isElseIf is.head_closed.2
      obtain ⟨ends, ahead⟩ := scanStep_token plain read own
      rw [ends, ahead] at ih
      exact .token inText plain read (ih _ (inside.imp (·.afterToken kind) (·.afterToken kind)))

end BasicCompiler
