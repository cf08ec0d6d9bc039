/-
# Tokens are slices of their text

Later stages index the source with the spans of tokens, and tell declarations apart by them.
-/
import BasicCompiler.Proofs.Token.Outline
import Mathlib.Data.String.Basic

namespace BasicCompiler

open List

/-! ## Offsets in a text -/

theorem byteLength_append (front back : List Char) :
    byteLength (front ++ back) = byteLength front + byteLength back := by
  induction front with
  | nil => exact (Nat.zero_add _).symm
  | cons c front ih => rw [cons_append, byteLength, byteLength, ih, Nat.add_assoc]

theorem utf8Len_eq_byteLength (chars : List Char) : String.utf8Len chars = byteLength chars := by
  induction chars with
  | nil => rfl
  | cons c chars ih => rw [String.utf8Len_cons, byteLength, ih, Nat.add_comm]

theorem utf8ByteSize_eq_byteLength (text : String) : text.utf8ByteSize = byteLength text.toList := by
  rw [← utf8Len_eq_byteLength, ← String.utf8ByteSize_ofList, String.ofList_toList]

theorem byteLength_cons_pos (c : Char) (rest : List Char) : 0 < byteLength (c :: rest) :=
  Nat.lt_of_lt_of_le c.utf8Size_pos (Nat.le_add_right _ _)

def Span.slice (text : String) (span : Span) : String := String.Pos.Raw.extract text ⟨span.lo⟩ ⟨span.hi⟩

/-- Both ends of a span lie between characters of the text. -/
structure Span.Fits (text : String) (span : Span) : Prop where
  ordered : span.lo ≤ span.hi
  inside : span.hi ≤ text.utf8ByteSize
  lo : String.Pos.Raw.IsValid text ⟨span.lo⟩
  hi : String.Pos.Raw.IsValid text ⟨span.hi⟩

section Splitting

variable {text : String} {before word after : List Char}

theorem isValid_of_append (split : text.toList = before ++ after) :
    String.Pos.Raw.IsValid text ⟨byteLength before⟩ := by
  refine String.Pos.Raw.isValid_iff_exists_append.mpr ⟨String.ofList before, String.ofList after, ?_, ?_⟩
  · rw [← String.ofList_append, ← split, String.ofList_toList]
  · rw [String.Pos.Raw.ext_iff, String.byteIdx_rawEndPos, String.utf8ByteSize_ofList, utf8Len_eq_byteLength]

theorem Span.fits_of_append (split : text.toList = before ++ word ++ after) :
    Span.Fits text ⟨byteLength before, byteLength before + byteLength word⟩ where
  ordered := Nat.le_add_right _ _
  inside := by
    rw [utf8ByteSize_eq_byteLength, split, byteLength_append, byteLength_append]
    exact Nat.le_add_right _ _
  lo := isValid_of_append (split.trans (append_assoc _ _ _))
  hi := by
    rw [← byteLength_append]
    exact isValid_of_append split

theorem Span.slice_of_append (split : text.toList = before ++ word ++ after) :
    Span.slice text ⟨byteLength before, byteLength before + byteLength word⟩ = String.ofList word := by
  have whole : text = String.ofList (before ++ word ++ after) := by rw [← split, String.ofList_toList]
  rw [Span.slice, whole, ← utf8Len_eq_byteLength, ← utf8Len_eq_byteLength]
  exact String.extract_of_valid before word after

end Splitting

/-! ## String literals -/

/-- A text with each double quote written twice. -/
def doubled (text : List Char) : List Char := text.flatMap fun c => if c = '"' then ['"', '"'] else [c]

/-- The literal that stands for a text: the text between double quotes, with its own doubled. -/
def stringLiteral (text : String) : List Char := '"' :: (doubled text.toList ++ ['"'])

theorem doubled_cons (text : List Char) (plain : c ≠ '"') : doubled (c :: text) = c :: doubled text := by
  simp [doubled, plain]

theorem undoubled_doubled (text : List Char) : undoubled (doubled text) = text := by
  induction text with
  | nil => rfl
  | cons c text ih =>
    by_cases quote : c = '"'
    · rw [quote]
      exact congrArg ('"' :: ·) ih
    · rw [doubled_cons text quote, undoubled, ih]
      exact fun _ isQuote _ => quote isQuote

theorem stringExtent_doubled {text tail : List Char} (oneLine : '\n' ∉ text) (apart : tail.head? ≠ some '"') :
    stringExtent (doubled text ++ '"' :: tail) = ((doubled text).length + 1, true) := by
  induction text with
  | nil =>
    cases tail with
    | nil => rfl
    | cons d tail =>
      have other : d ≠ '"' := fun same => apart (congrArg some same)
      simp [doubled, stringExtent, other]
  | cons c text ih =>
    obtain ⟨here, behind⟩ := not_or.mp (mt mem_cons.mpr oneLine)
    by_cases quote : c = '"'
    · subst quote
      change stringExtent ('"' :: '"' :: (doubled text ++ '"' :: tail)) = _
      rw [stringExtent, ih behind]
      rfl
    · rw [doubled_cons text quote, cons_append, stringExtent, ih behind]
      · rfl
      all_goals grind

theorem take_stringExtent (closed : (stringExtent rest).2 = true) :
    ∃ text, rest.take (stringExtent rest).1 = doubled text ++ ['"'] := by
  fun_induction stringExtent rest with
  | case1 rest later ih =>
    obtain ⟨text, same⟩ := ih closed
    exact ⟨'"' :: text, by simpa [doubled, later] using same⟩
  | case2 => exact ⟨[], rfl⟩
  | case3 | case4 => cases closed
  | case5 c rest _ plain _ later ih =>
    obtain ⟨text, same⟩ := ih closed
    exact ⟨c :: text, by rw [doubled_cons _ plain, take_succ_cons, same, cons_append]⟩

theorem scanNumber_ne_string {chars : List Char} : (scanNumber chars).result ≠ .ok (.str content) := by
  unfold scanNumber numberLiteral integerLiteral
  dsimp only
  repeat' split
  all_goals exact nofun

/-! ## Streams of slices -/

def TokenKind.isQuoted : TokenKind → Bool
  | .literal (.str _) => true
  | _ => false

def Stop.opensBody (s : Stop) : Bool :=
  s.keyword? == some .kwThen && s.line.opener == some .ifWord &&
    !restOfLineBlank (s.rest.drop (s.rest.takeWhile isNameChar).length)

/-- The tokens of a text as its slices. -/
structure TokenStream.Sliced (text : String) (tokens : List Token) : Prop where
  ends : ∃ front, tokens = front ++ [Token.endOfInput text.utf8ByteSize] ∧ ∀ t ∈ front, t.kind ≠ .eof
  fits : ∀ t ∈ tokens, t.span.Fits text
  ordered : tokens.Pairwise fun t t' => t.span.hi ≤ t'.span.lo
  written : ∀ t ∈ tokens, t.kind ≠ .eof → t.isVirtual = false →
    t.span.lo < t.span.hi ∧ (t.kind.isQuoted = false → t.text = t.span.slice text)
  implied : ∀ t ∈ tokens, t.isVirtual = true →
    t.kind = .keyword .kwEndIf ∧ t.span.lo = t.span.hi ∧ t.startsLine = true
  starts : ∃ t later, tokens = t :: later ∧ t.startsLine = true
  closed : tokens.countP (·.isVirtual) = (TokenStream.stops text).countP (·.opensBody)

/-! ## One step of the scanner -/

/-- The word is one that names something: a letter or `_` with letters, digits and marks of
types behind it. -/
def IsName (word : String) : Prop :=
  ∃ c rest, word = String.ofList (c :: rest) ∧ isNameStart c = true ∧
    ∀ d ∈ rest, isNameChar d = true ∨ d = '#' ∨ d = '$'

theorem isName_of_take (rest : List Char) (start : isNameStart c = true) :
    IsName (String.ofList (c :: rest.take (rest.takeWhile isNameChar).length)) := by
  refine ⟨c, _, rfl, start, fun d mem => .inl ?_⟩
  rw [← prefix_iff_eq_take.mp ( takeWhile_prefix _)] at mem
  exact all_eq_true.mp all_takeWhile d mem

theorem isName_of_suffix (start : isNameStart c = true) (suffix : hasSuffix rest = true) :
    IsName (String.ofList (c :: rest.take ((rest.takeWhile isNameChar).length + 1))) := by
  unfold hasSuffix at suffix
  split at suffix
  next mark more behind =>
    have atEnd : rest[(rest.takeWhile isNameChar).length]? = some mark := by
      rw [← head?_drop, behind, head?_cons]
    refine ⟨c, _, rfl, start, fun d mem => ?_⟩
    rw [take_add_one, atEnd, take_length_takeWhile] at mem
    rcases mem_append.mp mem with front | last
    · exact .inl (all_eq_true.mp all_takeWhile d front)
    · rw [Option.toList_some, mem_singleton] at last
      exact .inr (last ▸ by simpa using suffix)
  next => cases suffix

/-- A token written with the characters `word` at an offset. -/
structure Token.WrittenAt (pos : Nat) (word : List Char) (t : Token) : Prop where
  kind : t.kind ≠ .eof
  real : t.isVirtual = false
  span : t.span = ⟨pos, pos + byteLength word⟩
  text : t.kind.isQuoted = false → t.text = String.ofList word
  name : t.kind = .ident → IsName (String.ofList word)
  quoted : ∀ content, t.kind = .literal (.str content) → t.text = content ∧ word = stringLiteral content

/-- What a step makes of the characters it takes. -/
inductive Step.Makes (pos : Nat) (word : List Char) : List Token → Prop
  | written (t : Token) (is : t.WrittenAt pos word) : Makes pos word [t]
  | implied (count : Nat) : Makes pos word (List.replicate count (Token.impliedEndIf pos))

/-- A step at `c`, with `opens` for whether it begins the body of a single-line `if`. -/
structure Step.Cuts (pos : Nat) (c : Char) (rest : List Char) (line : LineState) (opens : Bool) (step : Step) :
    Prop where
  tokens : Step.Makes pos (c :: rest.take step.extent) step.tokens
  starts : line.atStart = true →
    (∃ t later, step.tokens = t :: later ∧ t.startsLine = true) ∨ step.tokens = [] ∧ step.line.atStart = true
  account : step.line.openIfs + step.tokens.countP (·.isVirtual) = line.openIfs + opens.toNat

namespace Step.Cuts

variable {pos : Nat} {c : Char} {rest : List Char} {line : LineState} (extent : Nat)

theorem pass (faults : List (Spanned LexFault)) (starts : line.atStart = true → line'.atStart = true)
    (account : line'.openIfs = line.openIfs + opens.toNat) :
    (Step.mk extent line' [] faults).Cuts pos c rest line opens :=
  ⟨.implied 0, fun start => .inr ⟨rfl, starts start⟩, account⟩

theorem skip : (Step.skip extent line).Cuts pos c rest line false := pass extent [] id rfl

theorem fault (f : LexFault) (span : Span) : (Step.fault extent line f span).Cuts pos c rest line false :=
  pass extent _ id rfl

theorem token {extent : Nat} {kind : TokenKind} (starts : line'.atStart = line.atStart)
    (account : line'.openIfs = line.openIfs) (real : kind ≠ .eof)
    (written : kind.isQuoted = false → text = String.ofList (c :: rest.take extent))
    (name : kind = .ident → IsName (String.ofList (c :: rest.take extent)))
    (quoted : ∀ content, kind = .literal (.str content) → text = content ∧ c :: rest.take extent = stringLiteral content) :
    (Step.token extent line' kind text ⟨pos, pos + byteLength (c :: rest.take extent)⟩).Cuts pos c rest line false where
  tokens := .written _ ⟨real, rfl, rfl, written, name, quoted⟩
  starts start := by
    refine .inl ⟨_, _, rfl, ?_⟩
    simp only [starts, start, Bool.true_or]
  account := account

theorem lineEnd (faults : List (Spanned LexFault)) :
    (Step.lineEnd extent line pos faults).Cuts pos c rest line false where
  tokens := .implied _
  starts _ := by
    cases ifs : line.openIfs with
    | zero => exact .inr ⟨by rw [Step.lineEnd, ifs]; rfl, rfl⟩
    | succ n => exact .inl ⟨Token.impliedEndIf pos, _, by rw [Step.lineEnd, ifs]; rfl, rfl⟩
  account := by
    have all : (replicate line.openIfs (Token.impliedEndIf pos)).countP (·.isVirtual) = line.openIfs := by
      rw [countP_replicate]
      exact if_pos rfl
    simp only [Step.lineEnd, LineState.newline, all, Nat.zero_add, Bool.toNat_false, Nat.add_zero]

theorem either {p : Prop} [Decidable p] {step step' : Step} (first : p → step.Cuts pos c rest line opens)
    (second : ¬p → step'.Cuts pos c rest line opens) : (if p then step else step').Cuts pos c rest line opens := by
  by_cases h : p
  · rw [if_pos h]
    exact first h
  · rw [if_neg h]
    exact second h

theorem commentStep (opening : Nat) (mark : List Char) :
    (commentStep pos c rest line opening mark).Cuts pos c rest line false := by
  unfold BasicCompiler.commentStep
  dsimp only
  split
  · exact either (fun _ => lineEnd _ _) fun _ => pass _ _ id rfl
  · exact either (fun _ => lineEnd _ _) fun _ => pass _ _ id rfl

theorem numberStep : (numberStep pos c rest line).Cuts pos c rest line false := by
  unfold BasicCompiler.numberStep
  dsimp only
  split
  next value scanned =>
    refine token rfl rfl nofun (fun _ => rfl) nofun fun content is => ?_
    cases is
    exact absurd scanned scanNumber_ne_string
  · exact fault _ _ _

theorem stringStep (is : c = '"') : (stringStep pos c rest line).Cuts pos c rest line false := by
  subst is
  refine either (fun closed => token rfl rfl nofun nofun nofun fun content is => ?_) fun _ => fault _ _ _
  cases is
  obtain ⟨text, same⟩ := take_stringExtent closed
  simp only [stringLiteral, String.toList_ofList, same, dropLast_concat, undoubled_doubled, true_and]

theorem colonStep (is : c = ':') : (colonStep pos rest line).Cuts pos c rest line false := by
  subst is
  exact either (fun _ => token rfl rfl nofun (fun _ => rfl) nofun nofun) fun _ => pass _ _ (fun _ => rfl) rfl

theorem signStep : (signStep pos c rest line).Cuts pos c rest line false := by
  unfold BasicCompiler.signStep
  split
  · exact token rfl rfl nofun (fun _ => rfl) nofun nofun
  · exact fault _ _ _

/-! ### Words -/

theorem thenStep (after : List Char) (span : Span) :
    (thenStep extent after line span).Cuts pos c rest line
      (line.opener == some .ifWord && !restOfLineBlank after) := by
  unfold BasicCompiler.thenStep
  cases waits : line.opener with
  | none => exact pass _ _ id rfl
  | some opener =>
    cases blank : restOfLineBlank after with
    | true => exact pass _ _ id (by simp)
    | false => exact pass _ _ (fun _ => rfl) (by cases opener <;> rfl)

theorem wordStep (after : List Char) {extent : Nat} {word : String} (is : word = String.ofList (c :: rest.take extent))
    (spelled : IsName (String.ofList (c :: rest.take extent))) :
    (wordStep extent after line word ⟨pos, pos + byteLength (c :: rest.take extent)⟩).Cuts pos c rest line
      (Keyword.ofWord? word == some .kwThen && line.opener == some .ifWord && !restOfLineBlank after) := by
  by_cases isThen : Keyword.ofWord? word = some .kwThen
  · have known : BasicCompiler.wordStep extent after line word ⟨pos, pos + byteLength (c :: rest.take extent)⟩ =
        BasicCompiler.thenStep extent after line ⟨pos, pos + byteLength (c :: rest.take extent)⟩ := by
      rw [BasicCompiler.wordStep, isThen]
    rw [known, isThen, beq_self_eq_true, Bool.true_and]
    exact thenStep _ _ _
  · rw [wordStep_token isThen, beq_eq_false_iff_ne.mpr isThen, Bool.false_and, Bool.false_and]
    refine token ?_ ?_ ?_ (fun _ => is) (fun _ => spelled) fun content => ?_
    · cases wordOpener (Keyword.ofWord? word) <;> rfl
    · cases wordOpener (Keyword.ofWord? word) <;> rfl
    all_goals
      unfold wordKind
      split
      · exact nofun
      · split <;> exact nofun

theorem nameStep (name : isNameStart c = true) :
    (nameStep pos c rest line).Cuts pos c rest line (Stop.opensBody ⟨c, rest, line⟩) := by
  cases suffix : hasSuffix rest with
  | true =>
    have plain : Stop.opensBody ⟨c, rest, line⟩ = false := by
      simp [Stop.opensBody, Stop.keyword?, keywordAt?, wordAt?, suffix]
    rw [plain, nameStep_of_suffix suffix]
    exact token rfl rfl (by decide) (fun _ => rfl) (fun _ => isName_of_suffix name suffix) (fun _ is => by cases is)
  | false =>
    have keyword : keywordAt? c rest = Keyword.ofWord? (String.ofList (c :: rest.takeWhile isNameChar)) := by
      simp only [keywordAt?, wordAt?, name, suffix, Bool.not_false, Bool.and_true, if_true, Option.bind_some]
    have word : rest.takeWhile isNameChar = rest.take (rest.takeWhile isNameChar).length :=
      (take_length_takeWhile _ _).symm
    rw [nameStep_of_word suffix]
    -- a comment begins with a word that is no keyword
    by_cases comment : fold (String.ofList (c :: rest.takeWhile isNameChar)) = "rem" ∨
        fold (String.ofList (c :: rest.takeWhile isNameChar)) = "remstart"
    · have plain : Stop.opensBody ⟨c, rest, line⟩ = false := by
        simp only [Stop.opensBody, Stop.keyword?, keyword, Keyword.ofWord?]
        rcases comment with is | is <;> rw [is] <;> rfl
      rw [plain]
      rcases comment with is | is
      · rw [is]
        exact skip _
      · rw [is]
        exact commentStep _ _
    · rw [not_or] at comment
      rw [if_neg (by simpa using comment.1), if_neg (by simpa using comment.2), Stop.opensBody, Stop.keyword?, keyword]
      have written := congrArg (fun w => String.ofList (c :: w)) word
      have cut := @wordStep pos c rest line (rest.drop (rest.takeWhile isNameChar).length) _ _ written
        (isName_of_take rest name)
      rwa [← word] at cut

theorem scanStep (pos : Nat) (c : Char) (rest : List Char) (line : LineState) :
    (scanStep pos c rest line).Cuts pos c rest line (Stop.opensBody ⟨c, rest, line⟩) := by
  by_cases name : isNameStart c = true
  · rw [scanStep_of_nameStart name]
    exact nameStep name
  · have plain : Stop.opensBody ⟨c, rest, line⟩ = false := by
      simp [Stop.opensBody, Stop.keyword?, keywordAt?, wordAt?, name]
    rw [plain]
    refine either (fun _ => lineEnd _ _) fun _ => either (fun _ => skip _) fun _ => either (fun _ => skip _) fun _ => ?_
    refine either (fun _ => skip _) fun _ => either (fun _ => skip _) fun _ => either (fun _ => commentStep _ _) fun _ => ?_
    refine either (fun is => colonStep (eq_of_beq is)) fun _ => either (fun is => stringStep (eq_of_beq is)) fun _ => ?_
    exact either (fun _ => numberStep) fun _ => either (fun is => absurd is name) fun _ => signStep

end Step.Cuts

/-! ## Whole texts -/

/-- A token that is not the end of input, somewhere in a text. -/
inductive Token.Stands (whole : List Char) (t : Token) : Prop
  | written (before word after : List Char) (split : whole = before ++ word ++ after) (nonempty : word ≠ [])
      (is : t.WrittenAt (byteLength before) word)
  | implied (before after : List Char) (split : whole = before ++ after)
      (is : t = Token.impliedEndIf (byteLength before))

namespace TokenStream

/-- The tokens of a text from an offset on, without the end of input. -/
structure Lies (whole : List Char) (pos : Nat) (tokens : List Token) : Prop where
  stand : ∀ t ∈ tokens, t.Stands whole
  behind : ∀ t ∈ tokens, pos ≤ t.span.lo
  ordered : tokens.Pairwise fun t t' => t.span.hi ≤ t'.span.lo

theorem Lies.implied {whole before after : List Char} (split : whole = before ++ after) (count : Nat) :
    Lies whole (byteLength before) (replicate count (Token.impliedEndIf (byteLength before))) where
  stand t inside := .implied before after split (eq_of_mem_replicate inside)
  behind t inside := by
    rw [eq_of_mem_replicate inside]
    exact Nat.le_refl _
  ordered := pairwise_replicate.mpr (.inr (Nat.le_refl _))

theorem Lies.append {next : Nat} (first : Lies whole pos front) (second : Lies whole next back)
    (forward : pos ≤ next) (upTo : ∀ t ∈ front, t.span.hi ≤ next) :
    Lies whole pos (front ++ back) where
  stand := forall_mem_append.mpr ⟨first.stand, second.stand⟩
  behind := forall_mem_append.mpr ⟨first.behind, fun t inside => Nat.le_trans forward (second.behind t inside)⟩
  ordered := by
    refine pairwise_append.mpr ⟨first.ordered, second.ordered, fun t inside t' inside' => ?_⟩
    exact Nat.le_trans (upTo t inside) (second.behind t' inside')

theorem Lies.step {before word after : List Char} {tokens : List Token} (nonempty : word ≠ [])
    (makes : Step.Makes (byteLength before) word tokens) :
    Lies (before ++ word ++ after) (byteLength before) tokens ∧
      ∀ t ∈ tokens, t.span.hi ≤ byteLength before + byteLength word := by
  cases makes with
  | written t is =>
    refine ⟨⟨?_, ?_, pairwise_singleton _ t⟩, ?_⟩
    · exact forall_mem_singleton.mpr (.written before word after rfl nonempty is)
    · exact forall_mem_singleton.mpr (by rw [is.span])
    · exact forall_mem_singleton.mpr (by rw [is.span])
  | implied count =>
    refine ⟨Lies.implied (append_assoc _ _ _) count, fun t inside => ?_⟩
    rw [eq_of_mem_replicate inside]
    exact Nat.le_add_right _ _

theorem scanFrom_lies (before chars : List Char) (line : LineState) (faults : List (Spanned LexFault)) :
    ∃ front, (scanFrom (byteLength before) chars line faults).tokens =
        front ++ [Token.endOfInput (byteLength (before ++ chars))] ∧
      Lies (before ++ chars) (byteLength before) front := by
  induction length : chars.length using Nat.strongRecOn generalizing before chars line faults with
  | ind n ih =>
    cases chars with
    | nil =>
      rw [scanFrom_nil_tokens, append_nil]
      exact ⟨_, rfl, Lies.implied (append_nil _).symm _⟩
    | cons c rest =>
      obtain ⟨later, tokens⟩ := scanFrom_cons_tokens (byteLength before) c rest line faults
      have cuts := Step.Cuts.scanStep (byteLength before) c rest line
      generalize scanStep (byteLength before) c rest line = step at tokens cuts
      have shorter : (rest.drop step.extent).length < n := by
        rw [← length, length_drop, length_cons]
        omega
      have whole : (before ++ c :: rest.take step.extent) ++ rest.drop step.extent = before ++ c :: rest := by
        rw [append_assoc, cons_append, take_append_drop]
      obtain ⟨front, others, lies⟩ := ih _ shorter (before ++ c :: rest.take step.extent) (rest.drop step.extent)
        step.line later rfl
      rw [byteLength_append, whole] at others lies
      obtain ⟨stepLies, upTo⟩ := @Lies.step before _ (rest.drop step.extent) _ (cons_ne_nil _ _) cuts.tokens
      rw [whole] at stepLies
      refine ⟨step.tokens ++ front, by rw [tokens, others, append_assoc], ?_⟩
      exact stepLies.append lies (Nat.le_add_right _ _) upTo

section

variable (pos : Nat) (chars : List Char) (line : LineState) (faults : List (Spanned LexFault))

theorem scanFrom_starts (start : line.atStart = true) :
    ∃ t later, (scanFrom pos chars line faults).tokens = t :: later ∧ t.startsLine = true := by
  induction length : chars.length using Nat.strongRecOn generalizing pos chars line faults with
  | ind n ih =>
    cases chars with
    | nil =>
      rw [scanFrom_nil_tokens]
      cases line.openIfs with
      | zero | succ count => exact ⟨_, _, rfl, rfl⟩
    | cons c rest =>
      obtain ⟨later, tokens⟩ := scanFrom_cons_tokens pos c rest line faults
      have cuts := Step.Cuts.scanStep pos c rest line
      generalize scanStep pos c rest line = step at tokens cuts
      rcases cuts.starts start with ⟨t, more, made, starts⟩ | ⟨noToken, start⟩
      · exact ⟨t, _, by rw [tokens, made, cons_append], starts⟩
      · rw [tokens, noToken, nil_append]
        refine ih _ ?_ _ (rest.drop step.extent) step.line later start rfl
        rw [← length, length_drop, length_cons]
        omega

theorem scanFrom_closed : (scanFrom pos chars line faults).tokens.countP (·.isVirtual) =
      line.openIfs + (stopsFrom chars line).countP (·.opensBody) := by
  fun_induction stopsFrom chars line generalizing pos faults with
  | case1 line =>
    rw [scanFrom_nil_tokens, countP_append, countP_replicate]
    rfl
  | case2 line c rest ih =>
    obtain ⟨later, tokens⟩ := scanFrom_cons_tokens pos c rest line faults
    have step := scanStep_erase pos c rest line
    simp only [Step.erase, Step.mk.injEq] at step
    have account := (Step.Cuts.scanStep pos c rest line).account
    rw [tokens, countP_append, step.1, step.2.1, ih, countP_cons]
    rw [step.2.1] at account
    cases opens : Stop.opensBody ⟨c, rest, line⟩ <;> rw [opens] at account <;> simp at account ⊢ <;> omega

end

end TokenStream

/-! ## Tokens are slices -/

namespace Token.Stands

variable {text : String} {t : Token}

section

variable (stands : t.Stands text.toList)
include stands

theorem name (isName : t.kind = .ident) : t.span.lo < t.span.hi ∧ IsName t.text := by
  cases stands with
  | written before word after split nonempty is =>
    obtain ⟨c, rest, rfl⟩ := exists_cons_of_ne_nil nonempty
    rw [is.span, is.text (by rw [isName]; rfl)]
    exact ⟨Nat.lt_add_of_pos_right (byteLength_cons_pos c rest), is.name isName⟩
  | implied before after split is =>
    rw [is] at isName
    cases isName

theorem ne_eof : t.kind ≠ .eof := by
  cases stands with
  | written before word after split nonempty is => exact is.kind
  | implied before after split is =>
    rw [is]
    exact nofun

theorem fits : t.span.Fits text := by
  cases stands with
  | written before word after split nonempty is =>
    rw [is.span]
    exact Span.fits_of_append split
  | implied before after split is =>
    rw [is]
    exact @Span.fits_of_append _ before [] after (by rw [split, append_nil])

theorem slice (real : t.isVirtual = false) :
    t.span.lo < t.span.hi ∧ (t.kind.isQuoted = false → t.text = t.span.slice text) := by
  cases stands with
  | written before word after split nonempty is =>
    obtain ⟨c, rest, rfl⟩ := exists_cons_of_ne_nil nonempty
    rw [is.span, Span.slice_of_append split]
    exact ⟨Nat.lt_add_of_pos_right (byteLength_cons_pos c rest), is.text⟩
  | implied before after split is =>
    rw [is] at real
    cases real

theorem literal (is : t.kind = .literal (.str content)) :
    t.text = content ∧ t.span.slice text = String.ofList (stringLiteral content) := by
  cases stands with
  | written before word after split nonempty written =>
    obtain ⟨same, spelled⟩ := written.quoted content is
    rw [written.span, Span.slice_of_append split, spelled]
    exact ⟨same, rfl⟩
  | implied before after split implied =>
    rw [implied] at is
    cases is

theorem endIf (isVirtual : t.isVirtual = true) :
    t.kind = .keyword .kwEndIf ∧ t.span.lo = t.span.hi ∧ t.startsLine = true := by
  cases stands with
  | written before word after split nonempty is =>
    rw [is.real] at isVirtual
    cases isVirtual
  | implied before after split is =>
    rw [is]
    exact ⟨rfl, rfl, rfl⟩

end

end Token.Stands

namespace TokenStream

theorem ofText_lies (text : String) : Lies text.toList 0 ((ofText text).lexemes.map (·.token)) ∧
    (ofText text).eof.token = Token.endOfInput (byteLength text.toList) := by
  obtain ⟨front, tokens, lies⟩ := scanFrom_lies [] text.toList LineState.start []
  rw [TokenStream.tokens, toList, map_append] at tokens
  obtain ⟨rfl, last⟩ := append_inj' tokens rfl
  exact ⟨lies, singleton_inj.mp last⟩

theorem ofText_sliced (text : String) : Sliced text (ofText text).tokens := by
  obtain ⟨front, tokens, lies⟩ := scanFrom_lies [] text.toList LineState.start []
  rw [List.nil_append, ← utf8ByteSize_eq_byteLength] at tokens
  have cut : (ofText text).tokens = front ++ [Token.endOfInput text.utf8ByteSize] := tokens
  have each : ∀ t ∈ (ofText text).tokens, t.Stands text.toList ∨ t = Token.endOfInput text.utf8ByteSize := by
    intro t inside
    rw [cut, List.mem_append, List.mem_singleton] at inside
    exact inside.imp_left (lies.stand t)
  refine ⟨⟨front, cut, fun t inside => (lies.stand t inside).ne_eof⟩, ?_, ?_, ?_, ?_, ?_, ?_⟩
  · intro t inside
    rcases each t inside with stands | rfl
    · exact stands.fits
    · have last := @Span.fits_of_append text text.toList [] [] (by rw [List.append_nil, List.append_nil])
      rwa [← utf8ByteSize_eq_byteLength] at last
  · rw [cut]
    refine List.pairwise_append.mpr ⟨lies.ordered, List.pairwise_singleton _ _, fun t inside t' last => ?_⟩
    rw [List.mem_singleton.mp last]
    exact (lies.stand t inside).fits.inside
  · intro t inside kind real
    rcases each t inside with stands | rfl
    · exact stands.slice real
    · exact absurd rfl kind
  · intro t inside isVirtual
    rcases each t inside with stands | rfl
    · exact stands.endIf isVirtual
    · cases isVirtual
  · exact scanFrom_starts 0 text.toList LineState.start [] rfl
  · exact (scanFrom_closed 0 text.toList LineState.start []).trans (Nat.zero_add _)

/-- A text without a newline is read back from its literal, wherever that stands and whatever follows it, unless that
begins with a double quote too. Every string literal of a text is that of the text it stands for. -/
theorem stringLiterals_decode :
    (∀ (content tail : String) (pos : Nat) (line : LineState) (faults : List (Spanned LexFault)),
      '\n' ∉ content.toList → tail.toList.head? ≠ some '"' →
      let next := pos + byteLength (stringLiteral content)
      scanFrom pos (stringLiteral content ++ tail.toList) line faults =
        (scanFrom next tail.toList { line with atStart := false, afterLineName := false } []).prepend
          [⟨faults, .literal (.str content), content, ⟨pos, next⟩, line.atStart, false⟩]) ∧
      ∀ (text content : String), ∀ t ∈ (ofText text).tokens, t.kind = .literal (.str content) →
        t.text = content ∧ t.span.slice text = String.ofList (stringLiteral content) := by
  constructor
  · intro content tail pos line faults oneLine apart
    have extent := stringExtent_doubled oneLine apart
    have step : scanStep pos '"' (doubled content.toList ++ '"' :: tail.toList) line =
        stringStep pos '"' (doubled content.toList ++ '"' :: tail.toList) line := rfl
    have split : stringLiteral content ++ tail.toList = '"' :: (doubled content.toList ++ '"' :: tail.toList) := by
      simp [stringLiteral]
    rw [split, scanFrom, step, stringStep, extent]
    simp [Step.token, stringLiteral, withFaults, Token.isLineName, undoubled_doubled, take_append, drop_append, take_of_length_le,
      drop_of_length_le]
  · intro text content t inside is
    obtain ⟨lies, last⟩ := ofText_lies text
    rw [tokens, toList, map_append] at inside
    rcases mem_append.mp inside with inside | inside
    · exact (lies.stand t inside).literal is
    · have isEnd : t = Token.endOfInput (byteLength text.toList) := (mem_singleton.mp inside).trans last
      rw [isEnd] at is
      cases is

/-- Quotes next to each other and at both ends, and a character of more than one byte. -/
theorem quotedQuotes_decode :
    ('\n' ∉ "\"é\"\"".toList ∧ " + x".toList.head? ≠ some '"' ∧
      scanFrom 0 (stringLiteral "\"é\"\"" ++ " + x".toList) .start [] =
        (scanFrom 10 " + x".toList { LineState.start with atStart := false } []).prepend
          [⟨[], .literal (.str "\"é\"\""), "\"é\"\"", ⟨0, 10⟩, true, false⟩]) ∧
      ∃ t ∈ (ofText "p \"é\"\"\"").tokens, t.kind = .literal (.str "é\"") ∧
        t.span.slice "p \"é\"\"\"" = String.ofList (stringLiteral "é\"") := by
  constructor
  · exact ⟨by decide, by decide, stringLiterals_decode.1 "\"é\"\"" " + x" 0 .start [] (by decide) (by decide)⟩
  · have read : ∃ t ∈ (ofText "p \"é\"\"\"").tokens, t.kind = .literal (.str "é\"") := by decide +kernel
    obtain ⟨t, inside, is⟩ := read
    exact ⟨t, inside, is, (stringLiterals_decode.2 _ _ t inside is).2⟩

end TokenStream

end BasicCompiler
