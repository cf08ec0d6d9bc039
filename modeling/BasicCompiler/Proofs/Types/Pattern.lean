/-
# Signatures in letters can be read back

A member of a pattern is spelled in one part or more, and the suffixes stand behind the last of them.
-/
import BasicCompiler.Proofs.Typed.Checking
import BasicCompiler.Proofs.Types.Builtin

namespace BasicCompiler

open List

/-! ## Words -/

def IsWord (part : String) : Prop := part ≠ "" ∧ ∀ c ∈ part.toList, isWhiteSpace c = false

-- only the characters of the word are looked at, never all there are
instance (part : String) : Decidable (IsWord part) :=
  have := List.decidableBAll (fun c => isWhiteSpace c = false) part.toList
  inferInstanceAs (Decidable (_ ∧ _))

variable {part : List Char}

theorem wordsFrom_append (solid : ∀ c ∈ part, isWhiteSpace c = false)
    (word rest : List Char) : wordsFrom word (part ++ rest) = wordsFrom (part.reverse ++ word) rest := by
  induction part generalizing word with
  | nil => rfl
  | cons c part ih =>
    have first : isWhiteSpace c = false := solid c (by simp)
    rw [cons_append, wordsFrom, if_neg (by simp [first]), ih fun d mem => solid d (by simp [mem])]
    simp

section

variable (nonempty : part ≠ []) (solid : ∀ c ∈ part, isWhiteSpace c = false)
include nonempty solid

theorem wordsFrom_end : wordsFrom [] part = [part] := by
  have whole := wordsFrom_append solid [] []
  rw [append_nil] at whole
  rw [whole]
  simp [wordsFrom, nonempty]

theorem wordsFrom_blank (rest : List Char) : wordsFrom [] (part ++ ' ' :: rest) = part :: wordsFrom [] rest := by
  have isBlank : isWhiteSpace ' ' = true := by decide
  rw [wordsFrom_append solid, wordsFrom, if_pos isBlank]
  simp [nonempty]

end

theorem words_intercalate (each : ∀ part ∈ parts, IsWord part) :
    words (" ".intercalate parts) = parts := by
  induction parts with
  | nil => rfl
  | cons part rest ih =>
    obtain ⟨nonempty, solid⟩ := each part (by simp)
    have nonempty : part.toList ≠ [] := by simpa using nonempty
    have others := ih fun p mem => each p (by simp [mem])
    cases rest with
    | nil => simp [words, wordsFrom_end nonempty solid]
    | cons next rest =>
      have text : (" ".intercalate (part :: next :: rest)).toList =
          part.toList ++ ' ' :: (" ".intercalate (next :: rest)).toList := by
        rw [String.intercalate_cons_cons, String.toList_append, String.toList_append, append_assoc]
        rfl
      unfold words at others ⊢
      rw [text, wordsFrom_blank nonempty solid, map_cons, others, String.ofList_toList]

/-! ## Suffixes -/

def IsSuffix {α : Type} (read : Char → Option α) (default value : α) (suffix : List Char) : Prop :=
  suffix = [] ∧ value = default ∨ ∃ c, suffix = [c] ∧ read c = some value

theorem Repeat.isSuffix (count : Repeat) : IsSuffix repeatOfSuffix? .once count count.suffix.toList := by
  cases count with
  | once => exact .inl ⟨rfl, rfl⟩
  | variadic => exact .inr ⟨'~', rfl, rfl⟩
  | oneOrMore => exact .inr ⟨'+', rfl, rfl⟩
  | optional => exact .inr ⟨'?', rfl, rfl⟩

theorem PassBy.isSuffix (pass : PassBy) : IsSuffix passOfSuffix? .value pass pass.suffix.toList := by
  cases pass with
  | value => exact .inl ⟨rfl, rfl⟩
  | constRef => exact .inr ⟨'<', rfl, rfl⟩
  | outRef => exact .inr ⟨'>', rfl, rfl⟩
  | inOutRef => exact .inr ⟨'*', rfl, rfl⟩

theorem Repeat.suffix_of_read {count : Repeat} (read : repeatOfSuffix? c = some count) : count.suffix.toList = [c] := by
  unfold repeatOfSuffix? at read
  split at read <;> cases read <;> rfl

variable {pass : PassBy}

theorem PassBy.suffix_of_read (read : passOfSuffix? c = some pass) : pass.suffix.toList = [c] := by
  unfold passOfSuffix? at read
  split at read <;> cases read <;> rfl

theorem repeatOfSuffix?_of_pass (read : passOfSuffix? c = some pass) : repeatOfSuffix? c = none := by
  unfold passOfSuffix? at read
  split at read
  · rfl
  · rfl
  · rfl
  · cases read

section SplitLast

variable {read : Char → Option α} {default : α}

theorem splitLast_append (isSuffix : IsSuffix read default value suffix) (plain : chars.getLast?.bind read = none) :
    splitLast read default (chars ++ suffix) = (chars, value) := by
  rcases isSuffix with ⟨rfl, rfl⟩ | ⟨c, rfl, known⟩
  · rw [append_nil, splitLast, plain]
  · have last : (chars ++ [c]).getLast?.bind read = some value := by simp [known]
    rw [splitLast, last]
    simp

theorem splitLast_eq (split : splitLast read default chars = (front, value)) :
    front = chars ∧ value = default ∨ ∃ c, chars = front ++ [c] ∧ read c = some value := by
  unfold splitLast at split
  cases known : chars.getLast?.bind read with
  | none =>
    rw [known] at split
    cases split
    exact .inl ⟨rfl, rfl⟩
  | some v =>
    rw [known] at split
    cases split
    obtain ⟨c, isLast, reads⟩ := Option.bind_eq_some_iff.mp known
    obtain ⟨front, rfl⟩ := getLast?_eq_some_iff.mp isLast
    exact .inr ⟨c, by simp, reads⟩

end SplitLast

def IsPlainCode (code : String) : Prop :=
  code ≠ "" ∧ code.toList.getLast?.bind passOfSuffix? = none ∧ code.toList.getLast?.bind repeatOfSuffix? = none

instance (code : String) : Decidable (IsPlainCode code) := inferInstanceAs (Decidable (_ ∧ _ ∧ _))

theorem splitSuffixes_append (plain : IsPlainCode code) (pass : PassBy) (count : Repeat) :
    splitSuffixes (code ++ (pass.suffix ++ count.suffix)) = .ok (code, pass, count) := by
  obtain ⟨nonempty, noPass, noRepeat⟩ := plain
  have inner : (code.toList ++ pass.suffix.toList).getLast?.bind repeatOfSuffix? = none := by
    rcases pass.isSuffix with ⟨none, -⟩ | ⟨c, one, reads⟩
    · rw [none, append_nil]
      exact noRepeat
    · rw [one]
      simp [repeatOfSuffix?_of_pass reads]
  have outer : splitLast repeatOfSuffix? .once (code ++ (pass.suffix ++ count.suffix)).toList =
      (code.toList ++ pass.suffix.toList, count) := by
    rw [String.toList_append, String.toList_append, ← append_assoc]
    exact splitLast_append count.isSuffix inner
  unfold splitSuffixes
  rw [outer]
  dsimp only
  rw [splitLast_append pass.isSuffix noPass]
  have nonempty : code.toList ≠ [] := by simpa using nonempty
  simp [nonempty]

variable {part : String}

theorem splitSuffixes_ok {count : Repeat} (split : splitSuffixes part = .ok (code, pass, count)) :
    part = code ++ (pass.suffix ++ count.suffix) ∧ code ≠ "" := by
  unfold splitSuffixes at split
  obtain ⟨outer, count', outerSplit⟩ : ∃ a b, splitLast repeatOfSuffix? .once part.toList = (a, b) := ⟨_, _, rfl⟩
  rw [outerSplit] at split
  dsimp only at split
  obtain ⟨inner, pass', innerSplit⟩ : ∃ a b, splitLast passOfSuffix? .value outer = (a, b) := ⟨_, _, rfl⟩
  rw [innerSplit] at split
  dsimp only at split
  split at split
  · cases split
  next nonempty =>
    cases split
    have behindOuter : part.toList = outer ++ count.suffix.toList := by
      rcases splitLast_eq outerSplit with ⟨rfl, rfl⟩ | ⟨c, whole, reads⟩
      · exact (append_nil _).symm
      · rw [whole, Repeat.suffix_of_read reads]
    have behindInner : outer = inner ++ pass.suffix.toList := by
      rcases splitLast_eq innerSplit with ⟨rfl, rfl⟩ | ⟨c, whole, reads⟩
      · exact (append_nil _).symm
      · rw [whole, PassBy.suffix_of_read reads]
    constructor
    · rw [← String.toList_inj, behindOuter, behindInner]
      simp
    · intro isEmpty
      apply nonempty
      have none := congrArg String.toList isEmpty
      simpa using none

/-! ## Codes -/

theorem mem_of_lookup {α β : Type} [BEq α] [LawfulBEq α] {table : List (α × β)} {a : α} {b : β}
    (found : table.lookup a = some b) : (a, b) ∈ table := by
  obtain ⟨front, back, rfl, -⟩ := lookup_eq_some_iff.mp found
  simp

theorem scalarCodes_entries : ∀ entry ∈ scalarCodes, scalarCodes.lookup entry.1 = some entry.2 ∧
    scalarCodes.find? (·.2 = entry.2) = some entry ∧ IsPlainCode entry.1 ∧ IsWord entry.1 ∧
      entry.1 ≠ "H" ∧ entry.1 ≠ "E" := by
  decide

theorem compositeCodes_entries : ∀ entry ∈ compositeCodes, compositeCodes.lookup entry.1 = some entry.2 ∧
    scalarCodes.find? (·.2 = entry.2) = none ∧ compositeCodes.find? (·.2 = entry.2) = some entry ∧
      IsWord entry.1.1 := by
  decide

theorem compositeCodes_dimensions : ∀ entry ∈ compositeCodes, ∀ n ∈ [entry.1.2.1, entry.1.2.2],
    dimension? (toString n) = some n ∧ IsWord (toString n) ∧ IsPlainCode (toString n) := by
  decide

theorem IsWord.append (isWord : IsWord code)
    (solid : ∀ c ∈ suffix.toList, isWhiteSpace c = false) : IsWord (code ++ suffix) := by
  obtain ⟨nonempty, each⟩ := isWord
  constructor
  · simp [nonempty]
  · intro c mem
    rcases mem_append.mp (String.toList_append ▸ mem) with front | back
    · exact each c front
    · exact solid c back

theorem append_ne (nonempty : code ≠ "") (one : letter.length = 1) (ne : code ≠ letter) (suffix : String) :
    code ++ suffix ≠ letter := by
  intro same
  have lengths : code.length + suffix.length = 1 := by rw [← String.length_append, same, one]
  have long : code.length ≠ 0 := by simpa using nonempty
  have none : suffix = "" := by
    rw [← String.length_eq_zero_iff]
    omega
  apply ne
  rw [← same, none, String.append_empty]

/-! ## Parts -/

namespace PatternType

def isCoded : PatternType → Bool
  | .array elem => elem.isCoded
  | .builtin t => (scalarCodes.find? (·.2 = t)).isSome || (compositeCodes.find? (·.2 = t)).isSome

/-- The parts that spell a type, with something behind the last one. -/
def parts (suffix : String) : PatternType → List String
  | .array elem => "H" :: elem.parts suffix
  | .builtin t =>
      match scalarCodes.find? (·.2 = t), compositeCodes.find? (·.2 = t) with
      | some (code, _), _ => [code ++ suffix]
      | none, some ((component, cols, rows), _) => ["E", component, toString cols, toString rows ++ suffix]
      | none, none => []

theorem nest_array (elem : PatternType) (depth : Nat) : elem.array.nest depth = elem.nest (depth + 1) := by
  induction depth with
  | zero => rfl
  | succ depth ih => rw [nest, ih, ← nest]

theorem parts_nest (t : PatternType) (depth : Nat) (suffix : String) :
    (t.nest depth).parts suffix = replicate depth "H" ++ t.parts suffix := by
  induction depth with
  | zero => rfl
  | succ depth ih => rw [nest, parts, ih, replicate_succ, cons_append]

theorem isCoded_nest (t : PatternType) (depth : Nat) : (t.nest depth).isCoded = t.isCoded := by
  induction depth with
  | zero => rfl
  | succ depth ih => exact ih

theorem isCoded_builtin (coded : (builtin t).isCoded = true) :
    (∃ code, (code, t) ∈ scalarCodes) ∨ ∃ key, (key, t) ∈ compositeCodes := by
  rcases Bool.or_eq_true _ _ ▸ coded with found | found
  · obtain ⟨⟨code, t'⟩, isEntry⟩ := Option.isSome_iff_exists.mp found
    obtain rfl : t' = t := by simpa using find?_some isEntry
    exact .inl ⟨code, mem_of_find?_eq_some isEntry⟩
  · obtain ⟨⟨key, t'⟩, isEntry⟩ := Option.isSome_iff_exists.mp found
    obtain rfl : t' = t := by simpa using find?_some isEntry
    exact .inr ⟨key, mem_of_find?_eq_some isEntry⟩

section Entries

variable {code : String} (suffix : String)

theorem parts_scalar (entry : (code, t) ∈ scalarCodes) :
    (builtin t).parts suffix = [code ++ suffix] ∧ (builtin t).code = code ∧ (builtin t).isCoded = true := by
  obtain ⟨-, found, -⟩ := scalarCodes_entries _ entry
  simp [parts, PatternType.code, isCoded, found]

theorem parts_composite (entry : ((component, cols, rows), t) ∈ compositeCodes) :
    (builtin t).parts suffix = ["E", component, toString cols, toString rows ++ suffix] ∧
      (builtin t).code = " ".intercalate ["E", component, toString cols, toString rows] ∧
      (builtin t).isCoded = true := by
  obtain ⟨-, none, found, -⟩ := compositeCodes_entries _ entry
  refine ⟨by simp [parts, none, found], ?_, by simp [isCoded, found]⟩
  simp only [PatternType.code, none, found]
  rw [← String.toList_inj]
  rfl

end Entries

theorem code_append {t : PatternType} (coded : t.isCoded = true) (suffix : String) :
    t.code ++ suffix = " ".intercalate (t.parts suffix) ∧ t.parts suffix ≠ [] := by
  induction t with
  | array elem ih =>
    obtain ⟨text, nonempty⟩ := ih coded
    rw [code, parts, String.append_assoc, text, String.intercalate_cons_of_ne_nil nonempty]
    exact ⟨rfl, by simp⟩
  | builtin t =>
    obtain ⟨letters, entry⟩ | ⟨⟨component, cols, rows⟩, entry⟩ := isCoded_builtin coded
    · obtain ⟨inParts, text, -⟩ := parts_scalar suffix entry
      simp [inParts, text]
    · obtain ⟨inParts, text, -⟩ := parts_composite suffix entry
      simp [inParts, text, String.append_assoc]

theorem isWord_parts {t : PatternType} (coded : t.isCoded = true) (solid : ∀ c ∈ suffix.toList, isWhiteSpace c = false) :
    ∀ part ∈ t.parts suffix, IsWord part := by
  have mark : IsWord "H" ∧ IsWord "E" := by decide
  induction t with
  | array elem ih => exact forall_mem_cons.mpr ⟨mark.1, ih coded⟩
  | builtin t =>
    intro part mem
    obtain ⟨letters, entry⟩ | ⟨⟨component, cols, rows⟩, entry⟩ := isCoded_builtin coded
    · rw [(parts_scalar suffix entry).1, mem_singleton] at mem
      rw [mem]
      obtain ⟨-, -, -, isWord, -⟩ := scalarCodes_entries _ entry
      exact isWord.append solid
    · obtain ⟨-, -, -, isWord⟩ := compositeCodes_entries _ entry
      obtain ⟨-, colsWord, -⟩ := compositeCodes_dimensions _ entry cols (by simp)
      obtain ⟨-, rowsWord, -⟩ := compositeCodes_dimensions _ entry rows (by simp)
      rw [(parts_composite suffix entry).1] at mem
      simp only [mem_cons, not_mem_nil, or_false] at mem
      rcases mem with rfl | rfl | rfl | rfl
      · exact mark.2
      · exact isWord
      · exact colsWord
      · exact rowsWord.append solid

end PatternType

variable {m : PatternMember}

namespace PatternMember

def suffix (m : PatternMember) : String := m.pass.suffix ++ m.count.suffix

/-- The parts that spell a member. -/
def parts (m : PatternMember) : List String := m.type.parts m.suffix

theorem suffix_solid (m : PatternMember) : ∀ c ∈ m.suffix.toList, isWhiteSpace c = false := by
  have none : (m.suffix.toList.all fun c => !isWhiteSpace c) = true := by
    unfold suffix
    cases m.pass <;> cases m.count <;> decide
  simpa using none

theorem text_eq (coded : m.type.isCoded = true) : m.text = " ".intercalate m.parts ∧ m.parts ≠ [] := by
  obtain ⟨text, nonempty⟩ := PatternType.code_append coded m.suffix
  rw [PatternMember.text, String.append_assoc]
  exact ⟨text, nonempty⟩

end PatternMember

variable {members : List PatternMember}

theorem formatPattern_eq (coded : ∀ m ∈ members, m.type.isCoded = true) :
    formatPattern members = " ".intercalate (members.flatMap PatternMember.parts) := by
  induction members with
  | nil => rfl
  | cons m rest ih =>
    obtain ⟨text, nonempty⟩ := PatternMember.text_eq (coded m (by simp))
    have others := ih fun n mem => coded n (by simp [mem])
    unfold formatPattern at others ⊢
    cases rest with
    | nil => simp [text]
    | cons next rest =>
      obtain ⟨-, someNext⟩ := PatternMember.text_eq (coded next (by simp))
      have someOthers : (next :: rest).flatMap PatternMember.parts ≠ [] := by simp [someNext]
      rw [map_cons, String.intercalate_cons_of_ne_nil (by simp), others, text,
        flatMap_cons (x := m), String.intercalate_append_of_ne_nil nonempty someOthers]

/-! ## Reading what was written -/

theorem readMembers_scalar (notArray : part ≠ "H") (notComposite : part ≠ "E") (rest : List String) :
    readMembers depth (part :: rest) = (do
      let m ← scalarMember part
      let ms ← readMembers 0 rest
      .ok ({ m with type := m.type.nest depth } :: ms)) := by
  rw [readMembers, if_neg notComposite]
  · exact fun isMark => absurd isMark notArray
  · exact fun _ _ _ _ isMark => absurd isMark notComposite

theorem scalarMember_append (entry : (code, t) ∈ scalarCodes) (pass : PassBy) (count : Repeat) :
    scalarMember (code ++ (pass.suffix ++ count.suffix)) = .ok ⟨.builtin t, pass, count⟩ := by
  obtain ⟨found, -, plain, -⟩ := scalarCodes_entries _ entry
  simp [scalarMember, splitSuffixes_append plain, found, bind, Except.bind]

theorem compositeMember_append (entry : ((component, cols, rows), t) ∈ compositeCodes) (pass : PassBy) (count : Repeat) :
    compositeMember component (toString cols) (toString rows ++ (pass.suffix ++ count.suffix)) =
      .ok ⟨.builtin t, pass, count⟩ := by
  obtain ⟨found, -⟩ := compositeCodes_entries _ entry
  obtain ⟨readCols, -⟩ := compositeCodes_dimensions _ entry cols (by simp)
  obtain ⟨readRows, -, plain⟩ := compositeCodes_dimensions _ entry rows (by simp)
  simp only [compositeMember, splitSuffixes_append plain, bind, Except.bind, readCols, readRows, found]

theorem readMembers_parts {type : PatternType} (coded : type.isCoded = true) (pass : PassBy) (count : Repeat)
    (depth : Nat) (rest : List String) :
    readMembers depth (type.parts (pass.suffix ++ count.suffix) ++ rest) =
      (readMembers 0 rest).map (⟨type.nest depth, pass, count⟩ :: ·) := by
  induction type generalizing depth with
  | array elem ih =>
    rw [PatternType.nest_array, ← ih coded (depth + 1)]
    rfl
  | builtin t =>
    obtain ⟨code, entry⟩ | ⟨⟨component, cols, rows⟩, entry⟩ := PatternType.isCoded_builtin coded
    · obtain ⟨-, -, plain, -, notArray, notComposite⟩ := scalarCodes_entries _ entry
      rw [(PatternType.parts_scalar _ entry).1, singleton_append,
        readMembers_scalar (append_ne plain.1 rfl notArray _) (append_ne plain.1 rfl notComposite _),
        scalarMember_append entry]
      cases readMembers 0 rest <;> rfl
    · rw [(PatternType.parts_composite _ entry).1]
      simp only [cons_append, nil_append]
      rw [readMembers, compositeMember_append entry]
      cases readMembers 0 rest <;> rfl

theorem readMembers_flatMap (coded : ∀ m ∈ members, m.type.isCoded = true) :
    readMembers 0 (members.flatMap PatternMember.parts) = .ok members := by
  induction members with
  | nil => rfl
  | cons m rest ih =>
    obtain ⟨type, pass, count⟩ := m
    have others := ih fun n mem => coded n (by simp [mem])
    rw [flatMap_cons]
    have first := readMembers_parts (coded _ mem_cons_self) pass count 0 (rest.flatMap PatternMember.parts)
    dsimp only [PatternMember.parts, PatternMember.suffix] at first ⊢
    rw [first, others]
    rfl

/-! ## Writing what was read -/

def isPlainDimension (part : String) : Bool :=
  match part.toList with
  | first :: rest => isDigit first && !rest.any isDigit
  | [] => false

def plainDimensions : List String → Bool
  | "E" :: _ :: cols :: rows :: rest => isPlainDimension cols && isPlainDimension rows && plainDimensions rest
  | _ :: rest => plainDimensions rest
  | [] => true

theorem toString_digit (digit : isDigit c = true) : toString (digitsValue 10 [c]) = String.ofList [c] := by
  have least : 48 ≤ c.toNat ∧ c.toNat ≤ 57 := by
    simpa [isDigit, Char.le_def, UInt32.le_iff_toNat_le] using digit
  have all : ∀ n, n ≤ 57 → 48 ≤ n →
      toString (digitsValue 10 [Char.ofNat n]) = String.ofList [Char.ofNat n] := by decide
  have this := all c.toNat least.2 least.1
  rwa [Char.ofNat_toNat] at this

variable {text : String}

theorem dimension?_unsigned (chars : text.toList = first :: rest) (unsigned : first ≠ '+')
    (read : dimension? text = some n) : (first :: rest).all isDigit = true ∧ n = digitsValue 10 (first :: rest) := by
  unfold dimension? at read
  rw [chars] at read
  dsimp only at read
  split at read
  · next sign =>
    obtain ⟨isSign, -⟩ := cons.inj sign
    exact absurd isSign unsigned
  · split at read
    · cases read
    · next digits =>
      split at read
      · cases read
        exact ⟨by simpa using digits, rfl⟩
      · cases read

theorem dimension?_plain {n : Nat} (read : dimension? text = some n) (plain : isPlainDimension (text ++ suffix) = true) :
    text = toString n := by
  unfold isPlainDimension at plain
  rw [String.toList_append] at plain
  cases chars : text.toList with
  | nil => simp [dimension?, chars] at read
  | cons first rest =>
    rw [chars] at plain
    obtain ⟨digit, others⟩ := (Bool.and_eq_true _ _).mp plain
    have unsigned : first ≠ '+' := by
      rintro rfl
      exact absurd digit (by decide)
    obtain ⟨digits, rfl⟩ := dimension?_unsigned chars unsigned read
    have alone : rest = [] := by
      cases rest with
      | nil => rfl
      | cons second rest => simp_all
    rw [alone, toString_digit digit, ← String.toList_inj, chars, alone, String.toList_ofList]

theorem scalarMember_ok (read : scalarMember part = .ok m) : m.type.isCoded = true ∧ m.parts = [part] := by
  obtain ⟨⟨code, pass, count⟩, cut, read⟩ := bind_ok_iff.mp read
  dsimp only at read
  split at read
  · next t found =>
    cases read
    obtain ⟨rfl, -⟩ := splitSuffixes_ok cut
    obtain ⟨inParts, -, coded⟩ := PatternType.parts_scalar (pass.suffix ++ count.suffix) (mem_of_lookup found)
    exact ⟨coded, inParts⟩
  · cases read

theorem compositeMember_ok (read : compositeMember component cols rows = .ok m) :
    m.type.isCoded = true ∧ (isPlainDimension cols = true → isPlainDimension rows = true →
      m.parts = ["E", component, cols, rows]) := by
  obtain ⟨⟨code, pass, count⟩, cut, read⟩ := bind_ok_iff.mp read
  dsimp only at read
  split at read
  · next c r readCols readRows =>
    split at read
    · next t found =>
      cases read
      obtain ⟨rfl, -⟩ := splitSuffixes_ok cut
      obtain ⟨inParts, -, coded⟩ := PatternType.parts_composite (pass.suffix ++ count.suffix) (mem_of_lookup found)
      refine ⟨coded, fun plainCols plainRows => ?_⟩
      rw [dimension?_plain readRows plainRows, @dimension?_plain cols "" c readCols (by simpa using plainCols)]
      exact inParts
    · cases read
  · cases read

theorem PatternMember.parts_nest (m : PatternMember) (depth : Nat) :
    PatternMember.parts ⟨m.type.nest depth, m.pass, m.count⟩ = replicate depth "H" ++ m.parts :=
  PatternType.parts_nest m.type depth m.suffix

/-- Behind open arrays, parts are read as members that have a code; plain parts are the ones
that the members are written with. -/
theorem readMembers_ok (read : readMembers depth parts = .ok members) :
    (∀ m ∈ members, m.type.isCoded = true) ∧ (plainDimensions parts = true →
      replicate depth "H" ++ parts = members.flatMap PatternMember.parts) := by
  fun_induction readMembers depth parts generalizing members with
  | case1 =>
    cases read
    simp
  | case2 => cases read
  | case3 depth rest ih =>
    obtain ⟨coded, written⟩ := ih read
    refine ⟨coded, fun plain => ?_⟩
    rw [← written plain, replicate_succ']
    simp
  | case4 depth component cols rows rest ih =>
    obtain ⟨m, first, read⟩ := bind_ok_iff.mp read
    obtain ⟨ms, others, read⟩ := bind_ok_iff.mp read
    cases read
    obtain ⟨coded, written⟩ := compositeMember_ok first
    obtain ⟨codedRest, writtenRest⟩ := ih others
    constructor
    · simpa [PatternType.isCoded_nest, coded] using codedRest
    · intro plain
      simp only [plainDimensions, Bool.and_eq_true] at plain
      rw [flatMap_cons, ← writtenRest plain.2, PatternMember.parts_nest, written plain.1.1 plain.1.2]
      simp
  | case5 => cases read
  | case6 depth part rest notArray _ notComposite ih =>
    obtain ⟨m, first, read⟩ := bind_ok_iff.mp read
    obtain ⟨ms, others, read⟩ := bind_ok_iff.mp read
    cases read
    obtain ⟨coded, written⟩ := scalarMember_ok first
    obtain ⟨codedRest, writtenRest⟩ := ih others
    constructor
    · simpa [PatternType.isCoded_nest, coded] using codedRest
    · intro plain
      have plainRest : plainDimensions rest = true := by
        rw [plainDimensions] at plain
        · exact plain
        · exact fun _ _ _ _ isMark => absurd isMark notComposite
      rw [flatMap_cons, ← writtenRest plainRest, PatternMember.parts_nest, written]
      simp

/-! ## Both directions -/

/-- The members of a pattern: types with codes, a result without suffixes, and no parameter
behind one that takes all arguments that are left. -/
structure IsSignature (members : List PatternMember) : Prop where
  coded : ∀ m ∈ members, m.type.isCoded = true
  result : ∃ result params, members = result :: params ∧ result.pass = .value ∧ result.count = .once
  repeated : ∀ m ∈ members.dropLast, m.count.isRepeated = false

/-- The text has words between single blanks, and dimensions of one digit. -/
def IsPlainPattern (text : String) : Prop :=
  ∃ parts, text = " ".intercalate parts ∧ (∀ part ∈ parts, IsWord part) ∧ plainDimensions parts = true

theorem checkMembers_ok :
    checkMembers members = .ok members' ↔ members' = members ∧
      (∃ result params, members = result :: params ∧ result.pass = .value ∧ result.count = .once) ∧
      ∀ m ∈ members.dropLast, m.count.isRepeated = false := by
  cases members with
  | nil => simp [checkMembers]
  | cons result params =>
    rw [checkMembers]
    by_cases bare : result.pass ≠ .value ∨ result.count ≠ .once
    · have suffixed : ¬ (result.pass = .value ∧ result.count = .once) := by
        rintro ⟨pass, count⟩
        simp [pass, count] at bare
      rw [if_pos bare]
      simp [suffixed]
    · rw [if_neg bare]
      simp only [not_or, Decidable.not_not] at bare
      have once : result.count.isRepeated = false := by rw [bare.2]; rfl
      have same : hasRepeatedBeforeLast params = false ↔
          ∀ m ∈ (result :: params).dropLast, m.count.isRepeated = false := by
        cases params with
        | nil => simp [hasRepeatedBeforeLast]
        | cons p rest => simp [hasRepeatedBeforeLast, once]
      cases early : hasRepeatedBeforeLast params with
      | true =>
        rw [early] at same
        simp [← same]
      | false =>
        have each := same.mp early
        simp only [Bool.false_eq_true, if_false, Except.ok.injEq]
        constructor
        · rintro rfl
          exact ⟨rfl, ⟨result, params, rfl, bare⟩, each⟩
        · rintro ⟨rfl, -⟩
          rfl

theorem parsePattern_ok :
    parsePattern text = .ok members ↔
      readMembers 0 (words text) = .ok members ∧ checkMembers members = .ok members := by
  have run : parsePattern text = .ok members ↔ readMembers 0 (words text) >>= checkMembers = .ok members := by
    unfold parsePattern
    cases readMembers 0 (words text) >>= checkMembers <;> simp
  rw [run, bind_ok_iff]
  constructor
  · rintro ⟨read, first, checked⟩
    obtain ⟨rfl, -⟩ := checkMembers_ok.mp checked
    exact ⟨first, checked⟩
  · rintro ⟨first, checked⟩
    exact ⟨members, first, checked⟩

/-- What a signature is written as is read as this signature. What is read is a signature,
and if it was plain it is what the signature is written as. -/
theorem pattern_roundTrips :
    (∀ members, IsSignature members → parsePattern (formatPattern members) = .ok members) ∧
      ∀ text members, parsePattern text = .ok members →
        IsSignature members ∧ (IsPlainPattern text → formatPattern members = text) := by
  constructor
  · rintro members ⟨coded, result, repeated⟩
    have solid : ∀ part ∈ members.flatMap PatternMember.parts, IsWord part := by
      intro part mem
      obtain ⟨m, isMember, inParts⟩ := List.mem_flatMap.mp mem
      exact PatternType.isWord_parts (coded m isMember) m.suffix_solid part inParts
    rw [parsePattern_ok, formatPattern_eq coded, words_intercalate solid]
    exact ⟨readMembers_flatMap coded, checkMembers_ok.mpr ⟨rfl, result, repeated⟩⟩
  · intro text members parsed
    obtain ⟨read, checked⟩ := parsePattern_ok.mp parsed
    obtain ⟨-, result, repeated⟩ := checkMembers_ok.mp checked
    obtain ⟨coded, written⟩ := readMembers_ok read
    refine ⟨⟨coded, result, repeated⟩, ?_⟩
    rintro ⟨parts, rfl, solid, plain⟩
    rw [words_intercalate solid] at written
    rw [formatPattern_eq coded, ← written plain]
    rfl

/-- A command with an optional string and any number of arrays of arrays of vectors. -/
def nestedArrays : List PatternMember := [
  ⟨.array (.builtin .string), .value, .once⟩, ⟨.builtin .uintptr, .constRef, .optional⟩,
  ⟨.array (.array (.builtin .vec3f)), .inOutRef, .variadic⟩]

theorem nestedArrays_roundTrips : IsSignature nestedArrays ∧ IsPlainPattern (formatPattern nestedArrays) ∧
    parsePattern (formatPattern nestedArrays) = .ok nestedArrays ∧
      formatPattern nestedArrays = "H G Pu<? H H E F 3 1*~" := by
  have isSignature : IsSignature nestedArrays := ⟨by decide, ⟨_, _, rfl, rfl, rfl⟩, by decide⟩
  have isPlain : IsPlainPattern "H G Pu<? H H E F 3 1*~" :=
    ⟨["H", "G", "Pu<?", "H", "H", "E", "F", "3", "1*~"], by decide, by decide, by decide⟩
  have read := pattern_roundTrips.1 nestedArrays isSignature
  have text : formatPattern nestedArrays = "H G Pu<? H H E F 3 1*~" := by decide
  have written := (pattern_roundTrips.2 _ nestedArrays (text ▸ read)).2 isPlain
  exact ⟨isSignature, written ▸ isPlain, read, written⟩

end BasicCompiler
