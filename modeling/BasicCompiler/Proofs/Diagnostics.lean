/-
# Where a diagnostic points

Every byte of a text lies on one line, or is the newline behind it. A diagnostic has the line and the column of such a
byte, and is shown under the line.
-/
import BasicCompiler.Proofs.Token.Slices

namespace BasicCompiler

open List

/-! ## Bytes -/

def bytesOf (chars : List Char) : List UInt8 := chars.flatMap String.utf8EncodeChar

def newlineByte : UInt8 := 10

theorem bytesOf_cons (c : Char) (rest : List Char) : bytesOf (c :: rest) = String.utf8EncodeChar c ++ bytesOf rest :=
  flatMap_cons

theorem length_bytesOf (chars : List Char) : (bytesOf chars).length = byteLength chars := by
  induction chars with
  | nil => rfl
  | cons c rest ih => rw [bytesOf_cons, length_append, String.length_utf8EncodeChar, ih, byteLength]

theorem newlineByte_not_mem_encode (other : c ≠ '\n') : newlineByte ∉ String.utf8EncodeChar c := by
  have value : c.val.toNat ≠ 10 := fun same => other (Char.ext (UInt32.toNat_inj.mp same))
  simp only [String.utf8EncodeChar, newlineByte]
  repeat' split
  all_goals
    simp only [mem_cons, ← UInt8.toNat_inj, UInt8.toNat_ofNat', UInt8.reduceToNat, Nat.reducePow, not_mem_nil, or_false]
    omega

theorem newlineByte_not_mem (none : '\n' ∉ chars) : newlineByte ∉ bytesOf chars := by
  intro mem
  obtain ⟨c, isChar, inside⟩ := mem_flatMap.mp mem
  exact newlineByte_not_mem_encode (fun same => none (same ▸ isChar)) inside

theorem count_newlineByte (chars : List Char) : (bytesOf chars).count newlineByte = chars.count '\n' := by
  induction chars with
  | nil => rfl
  | cons c rest ih =>
    rw [bytesOf_cons, count_append, ih, count_cons, Nat.add_comm]
    by_cases isNewline : c = '\n'
    · subst isNewline
      rfl
    · rw [count_eq_zero_of_not_mem (newlineByte_not_mem_encode isNewline)]
      simp [isNewline]

/-! ## Lines -/

/-- A text is cut into a line, what stands before it and what stands behind it. -/
structure IsLine (chars before line behind : List Char) : Prop where
  parts : chars = before ++ (line ++ behind)
  begins : before = [] ∨ ∃ front, before = front ++ ['\n']
  within : '\n' ∉ line
  ends : behind = [] ∨ ∃ rest, behind = '\n' :: rest

theorem byteLength_eq_zero (empty : byteLength chars = 0) : chars = [] := by
  cases chars with
  | nil => rfl
  | cons c rest => exact absurd empty (Nat.ne_of_gt (byteLength_cons_pos c rest))

theorem exists_line (inside : offset ≤ byteLength chars) :
    ∃ before line behind, IsLine chars before line behind ∧ byteLength before ≤ offset ∧
      offset ≤ byteLength before + byteLength line := by
  induction chars generalizing offset with
  | nil => exact ⟨[], [], [], ⟨rfl, .inl rfl, by simp, .inl rfl⟩, Nat.zero_le _, inside⟩
  | cons c rest ih =>
    by_cases atNewline : c = '\n' ∧ offset = 0
    · obtain ⟨rfl, rfl⟩ := atNewline
      exact ⟨[], [], _, ⟨rfl, .inl rfl, by simp, .inr ⟨rest, rfl⟩⟩, Nat.le_refl _, Nat.le_refl _⟩
    · obtain ⟨before, line, behind, ⟨parts, begins, within, ends⟩, low, high⟩ :=
        @ih (offset - c.utf8Size) (by rw [byteLength] at inside; omega)
      by_cases joins : c ≠ '\n' ∧ before = []
      · obtain ⟨other, rfl⟩ := joins
        refine ⟨[], c :: line, behind, ⟨by rw [parts]; rfl, .inl rfl, ?_, ends⟩, Nat.zero_le _, ?_⟩
        · simp [Ne.symm other, within]
        · simp only [byteLength] at high ⊢
          omega
      · have reached : c.utf8Size ≤ offset := by
          refine Nat.le_of_not_lt fun short => ?_
          have isEmpty : before = [] := byteLength_eq_zero (by omega)
          obtain rfl : c = '\n' := by simpa [isEmpty] using joins
          exact atNewline ⟨rfl, Nat.lt_one_iff.mp short⟩
        refine ⟨c :: before, line, behind, ⟨by rw [parts]; rfl, .inr ?_, within, ends⟩, ?_, ?_⟩
        · rcases begins with rfl | ⟨front, rfl⟩
          · exact ⟨[], by simpa using joins⟩
          · exact ⟨c :: front, rfl⟩
        · rw [byteLength]
          omega
        · rw [byteLength]
          omega

/-! ## The starts of lines -/

theorem offsetsAfterNewlines_append (pos : Nat) (front back : List Char) : offsetsAfterNewlines pos (front ++ back) =
    offsetsAfterNewlines pos front ++ offsetsAfterNewlines (pos + byteLength front) back := by
  induction front generalizing pos with
  | nil => rfl
  | cons c rest ih =>
    simp only [cons_append, offsetsAfterNewlines, byteLength, ih, ← Nat.add_assoc]
    split <;> rfl

theorem offsetsAfterNewlines_within (none : '\n' ∉ line) (pos : Nat) : offsetsAfterNewlines pos line = [] := by
  induction line generalizing pos with
  | nil => rfl
  | cons c rest ih =>
    obtain ⟨first, others⟩ := not_or.mp (mt mem_cons.mpr none)
    rw [offsetsAfterNewlines, if_neg (Ne.symm first), ih others]

theorem length_offsetsAfterNewlines (pos : Nat) (chars : List Char) :
    (offsetsAfterNewlines pos chars).length = chars.count '\n' := by
  induction chars generalizing pos with
  | nil => rfl
  | cons c rest ih =>
    rw [offsetsAfterNewlines, count_cons]
    by_cases isNewline : c = '\n' <;> simp [isNewline, ih]

theorem increasing_offsetsAfterNewlines (pos : Nat) (chars : List Char) :
    (pos :: offsetsAfterNewlines pos chars).Pairwise (· < ·) ∧
      ∀ start ∈ offsetsAfterNewlines pos chars, start ≤ pos + byteLength chars := by
  induction chars generalizing pos with
  | nil => exact ⟨pairwise_singleton .., by simp [offsetsAfterNewlines]⟩
  | cons c rest ih =>
    obtain ⟨increasing, below⟩ := ih (pos + c.utf8Size)
    have positive := c.utf8Size_pos
    rw [offsetsAfterNewlines, byteLength, ← Nat.add_assoc]
    split
    · refine ⟨pairwise_cons.mpr ⟨forall_mem_cons.mpr ⟨by omega, fun start mem => ?_⟩, increasing⟩,
        forall_mem_cons.mpr ⟨by omega, below⟩⟩
      exact Nat.lt_trans (by omega) (rel_of_pairwise_cons increasing mem)
    · refine ⟨pairwise_cons.mpr ⟨fun start mem => ?_, (pairwise_cons.mp increasing).2⟩, below⟩
      exact Nat.lt_trans (by omega) (rel_of_pairwise_cons increasing mem)

theorem lineOf_append {front back : List Nat} (increasing : (front ++ [start]).Pairwise (· < ·))
    (notBehind : start ≤ offset) (beyond : ∀ later ∈ back, offset < later) :
    LineIndex.lineOf ⟨front ++ start :: back⟩ offset = front.length := by
  have below : ∀ earlier ∈ front, decide (earlier < offset) = true := by
    intro earlier mem
    have := (pairwise_append.mp increasing).2.2 earlier mem start mem_cons_self
    simp only [decide_eq_true_eq]
    omega
  unfold LineIndex.lineOf LineIndex.search
  dsimp only
  rw [takeWhile_append_of_pos below]
  rcases Nat.eq_or_lt_of_le notBehind with rfl | before
  · simp
  · cases back with
    | nil => simp [before]
    | cons later more =>
      have behind := beyond later mem_cons_self
      simp [before, Nat.not_lt_of_lt behind, Nat.ne_of_gt behind]

/-- The starts of the lines are those in the text before this one, its own, and later ones. -/
theorem IsLine.starts {text : String} (h : IsLine text.toList before line behind)
    (high : offset ≤ byteLength before + byteLength line) : ∃ front later,
      (LineIndex.ofText text).starts = front ++ byteLength before :: later ∧ front.length = before.count '\n' ∧
        (front ++ [byteLength before]).Pairwise (· < ·) ∧ ∀ start ∈ later, offset < start := by
  have cut : offsetsAfterNewlines 0 text.toList = offsetsAfterNewlines 0 before ++
      offsetsAfterNewlines (byteLength before + byteLength line) behind := by
    rw [h.parts, offsetsAfterNewlines_append, offsetsAfterNewlines_append, offsetsAfterNewlines_within h.within,
      Nat.zero_add]
    rfl
  obtain ⟨front, last⟩ : ∃ front, 0 :: offsetsAfterNewlines 0 before = front ++ [byteLength before] := by
    rcases h.begins with rfl | ⟨front, rfl⟩
    · exact ⟨[], rfl⟩
    · refine ⟨0 :: offsetsAfterNewlines 0 front, ?_⟩
      rw [offsetsAfterNewlines_append, byteLength_append, Nat.zero_add]
      rfl
  have length := congrArg List.length last
  rw [length_cons, length_offsetsAfterNewlines, length_append] at length
  refine ⟨front, offsetsAfterNewlines (byteLength before + byteLength line) behind, ?_, (Nat.succ.inj length).symm,
    last ▸ (increasing_offsetsAfterNewlines 0 before).1, fun start mem => ?_⟩
  · rw [append_cons, ← last]
    exact congrArg (0 :: ·) cut
  · have := rel_of_pairwise_cons (increasing_offsetsAfterNewlines _ behind).1 mem
    omega

section

variable {text : String} (h : IsLine text.toList before line behind) (low : byteLength before ≤ offset)
  (high : offset ≤ byteLength before + byteLength line)
include h low high

theorem IsLine.location :
    (LineIndex.ofText text).location offset = ⟨before.count '\n' + 1, offset - byteLength before + 1⟩ := by
  obtain ⟨front, later, starts, length, increasing, beyond⟩ := h.starts high
  have found := lineOf_append increasing low beyond
  rw [← starts] at found
  unfold LineIndex.location
  rw [found, starts, ← length]
  simp

theorem IsLine.take_bytesOf : (bytesOf text.toList).take offset =
      bytesOf before ++ (bytesOf line).take (offset - byteLength before) := by
  rw [h.parts, bytesOf, flatMap_append, flatMap_append]
  change (bytesOf before ++ (bytesOf line ++ bytesOf behind)).take offset = _
  rw [take_append, take_of_length_le (by rwa [length_bytesOf]), length_bytesOf, take_append_of_le_length]
  rw [length_bytesOf]
  omega

theorem IsLine.column :
    (((bytesOf text.toList).take offset).reverse.takeWhile (· != newlineByte)).length = offset - byteLength before := by
  have ofLine : ∀ b ∈ ((bytesOf line).take (offset - byteLength before)).reverse, (b != newlineByte) = true := by
    intro b mem
    refine bne_iff_ne.mpr fun same => newlineByte_not_mem h.within ?_
    exact same ▸ mem_of_mem_take (mem_reverse.mp mem)
  have stops : (bytesOf before).reverse.takeWhile (· != newlineByte) = [] := by
    rcases h.begins with rfl | ⟨front, rfl⟩
    · rfl
    · rw [bytesOf, flatMap_append, reverse_append]
      rfl
  rw [h.take_bytesOf low high, reverse_append, takeWhile_append_of_pos ofLine, stops, append_nil, length_reverse,
    length_take, length_bytesOf]
  omega

end

theorem IsLine.lineStart (h : IsLine text.toList before line behind) :
    (LineIndex.ofText text).lineStart (before.count '\n' + 1) = byteLength before := by
  obtain ⟨front, later, starts, length, -⟩ := h.starts (Nat.le_add_right _ _)
  rw [LineIndex.lineStart, starts, Nat.add_sub_cancel, ← length]
  simp

/-! ## Places -/

/-- The place of the byte at an offset, counted over the bytes before it. It is found among the starts
of the lines, which increase: the one of its line is the last that is not behind it. -/
structure PointsTo (text : String) (offset : Nat) (place : Location) : Prop where
  line : place.line = 1 + ((bytesOf text.toList).take offset).count newlineByte
  column : place.column = 1 + (((bytesOf text.toList).take offset).reverse.takeWhile (· != newlineByte)).length
  start : (LineIndex.ofText text).lineStart place.line + place.column - 1 = offset
  sorted : (LineIndex.ofText text).starts.Pairwise (· < ·)
  inRange : place.line - 1 < (LineIndex.ofText text).starts.length
  notBehind : (LineIndex.ofText text).lineStart place.line ≤ offset
  last : ∀ start ∈ (LineIndex.ofText text).starts.drop place.line, offset < start

theorem location_pointsTo (inside : offset ≤ text.utf8ByteSize) :
    PointsTo text offset ((LineIndex.ofText text).location offset) := by
  obtain ⟨before, line, behind, isLine, low, high⟩ := exists_line (utf8ByteSize_eq_byteLength text ▸ inside)
  obtain ⟨front, later, starts, length, -, beyond⟩ := isLine.starts high
  rw [isLine.location low high]
  refine ⟨?_, ?_, ?_, (increasing_offsetsAfterNewlines 0 text.toList).1, ?_, ?_, ?_⟩
  · have within : newlineByte ∉ (bytesOf line).take (offset - byteLength before) :=
      fun mem => newlineByte_not_mem isLine.within (mem_of_mem_take mem)
    rw [isLine.take_bytesOf low high, count_append, count_newlineByte, count_eq_zero_of_not_mem within]
    exact Nat.add_comm ..
  · rw [isLine.column low high]
    exact Nat.add_comm ..
  · rw [isLine.lineStart]
    dsimp only
    omega
  · rw [starts, length_append, length_cons, length]
    dsimp only
    omega
  · rwa [isLine.lineStart]
  · rw [starts, ← length]
    simpa [drop_append, drop_of_length_le] using beyond

/-! ## What is shown -/

/-- The line of the byte at an offset stands alone, with blanks up to this byte and carets behind them: at
least one, and none behind the line, unless the byte is its newline. -/
structure Shows (text : String) (offset column : Nat) (shown : String) : Prop where
  shown : ∃ before line behind width, IsLine text.toList before line behind ∧
    byteLength before + column = offset + 1 ∧ shown = String.ofList line ++ "\n" ++
      String.ofList (replicate (column - 1) ' ' ++ replicate width '^') ++ "\n" ∧ 1 ≤ width ∧
    (offset + width ≤ byteLength before + byteLength line ∨
      width = 1 ∧ offset = byteLength before + byteLength line ∧ ∃ rest, behind = '\n' :: rest)

theorem lineFrom_go (before rest : List Char) :
    SourceFile.lineFrom.go (byteLength before) (before ++ rest) = rest.takeWhile (· != '\n') := by
  induction before with
  | nil => rw [byteLength, nil_append, SourceFile.lineFrom.go]
  | cons c before ih =>
    obtain ⟨n, size⟩ := Nat.exists_eq_succ_of_ne_zero (Nat.ne_of_gt c.utf8Size_pos)
    rw [byteLength, size, Nat.succ_add, cons_append, SourceFile.lineFrom.go, size, Nat.succ_sub_succ,
      Nat.add_sub_cancel_left]
    exact ih

theorem IsLine.lineFrom {file : SourceFile} (h : IsLine file.text.toList before line behind) :
    file.lineFrom (byteLength before) = line := by
  have all : ∀ c ∈ line, (c != '\n') = true := fun c mem => bne_iff_ne.mpr fun same => h.within (same ▸ mem)
  unfold SourceFile.lineFrom
  rw [h.parts, lineFrom_go, takeWhile_append_of_pos all]
  rcases h.ends with rfl | ⟨rest, rfl⟩
  · exact append_nil line
  · exact append_nil line

theorem echo_shows {file : SourceFile} {d : Diagnostic} (inside : d.span.lo < file.text.utf8ByteSize)
    (placed : d.location = (LineIndex.ofText file.text).location d.span.lo) :
    ∃ shown, d.echo file = d.text ++ "\n" ++ shown ∧ Shows file.text d.span.lo d.location.column shown := by
  have filled : file.text.isEmpty = false := by
    rw [String.isEmpty, beq_eq_false_iff_ne]
    exact Nat.ne_of_gt (Nat.zero_lt_of_lt inside)
  rw [utf8ByteSize_eq_byteLength] at inside
  obtain ⟨before, line, behind, isLine, low, high⟩ := exists_line (Nat.le_of_lt inside)
  rw [isLine.location low high] at placed
  refine ⟨_, ?_, before, line, behind, max 1 (min d.span.hi (byteLength before + byteLength line) - d.span.lo), isLine,
    ?_, rfl, Nat.le_max_left .., ?_⟩
  · simp only [Diagnostic.echo, filled, placed, isLine.lineStart, isLine.lineFrom, Nat.add_sub_cancel]
    simp only [Bool.false_eq_true, if_false, String.append_assoc]
  · rw [placed]
    dsimp only
    omega
  · by_cases atEnd : d.span.lo = byteLength before + byteLength line
    · refine .inr ⟨by omega, atEnd, isLine.ends.resolve_left ?_⟩
      rintro rfl
      rw [isLine.parts, append_nil, byteLength_append] at inside
      omega
    · exact .inl (by omega)

theorem lo_clamp (file : SourceFile) (span : Span) : (file.clamp span).lo ≤ file.text.utf8ByteSize ∧
    (file.text ≠ "" → (file.clamp span).lo < file.text.utf8ByteSize) := by
  unfold SourceFile.clamp
  dsimp only
  split
  · refine ⟨Nat.sub_le .., fun filled => Nat.sub_lt ?_ Nat.one_pos⟩
    exact Nat.pos_of_ne_zero fun none => filled (String.utf8ByteSize_eq_zero_iff.mp none)
  · exact ⟨by omega, fun _ => by omega⟩

/-- What is reported is recorded at its place, or at the last byte if it is behind the text. The line and the
column are those of the first byte, and every offset in the text has such a place. If there is a text, the
line with this byte is shown. -/
theorem add_pointsTo (log : DiagnosticLog) (report : Report) : ∃ d, (log.add report).entries = log.entries ++ [d] ∧
    d.span = (if report.span.lo < log.file.text.utf8ByteSize then report.span
      else ⟨log.file.text.utf8ByteSize - 1, log.file.text.utf8ByteSize⟩) ∧
    PointsTo log.file.text d.span.lo d.location ∧
    (∀ offset ≤ log.file.text.utf8ByteSize,
      PointsTo log.file.text offset ((LineIndex.ofText log.file.text).location offset)) ∧
    (log.file.text ≠ "" → ∃ shown, d.echo log.file = d.text ++ "\n" ++ shown ∧
      Shows log.file.text d.span.lo d.location.column shown) := by
  obtain ⟨inside, filled⟩ := lo_clamp log.file report.span
  refine ⟨_, rfl, ?_, location_pointsTo inside, fun _ => location_pointsTo, fun isText => echo_shows (filled isText) rfl⟩
  simp only [SourceFile.diagnose, SourceFile.clamp, ← Nat.not_lt, ite_not]

/-- A fault at the end of a text whose last character has two bytes. -/
theorem lateFault_pointsTo : ∃ d shown, ((DiagnosticLog.empty ⟨"a", "x\né"⟩).add ⟨.error, ⟨9, 9⟩, ""⟩).entries = [d] ∧
    d.span = ⟨3, 4⟩ ∧ d.location = ⟨2, 2⟩ ∧ "x\né" ≠ "" ∧ d.echo ⟨"a", "x\né"⟩ = d.text ++ "\n" ++ shown ∧
      Shows "x\né" 3 2 shown := by
  obtain ⟨d, entries, span, -, -, shows⟩ := add_pointsTo (.empty ⟨"a", "x\né"⟩) ⟨.error, ⟨9, 9⟩, ""⟩
  cases entries
  obtain ⟨shown, echo, isShown⟩ := shows (by decide)
  exact ⟨_, shown, rfl, by decide +kernel, by decide +kernel, by decide, echo, isShown⟩

end BasicCompiler
