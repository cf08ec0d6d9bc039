/-
# Members lie as close as their alignment allows

Placing one more member keeps what has been placed and puts the member at the first suitable offset behind it, so a
type that is laid out has its fields in order, none over another and none further back than it must be.

Offsets are words and their sums wrap. `extent` is where the members of a type would end if they did not, and
`HasRoom` says that this end and the padding behind it lie inside a word: then no sum wraps, and the offsets and the
size are exact. The order of the members, their sizes and alignments and the flags do not depend on it.
-/
import BasicCompiler.Types.Layout

namespace BasicCompiler

open List

/-- `r` is the least multiple of `align` that is not below `n`. -/
structure IsRoundedUp (n align r : Nat) : Prop where
  dvd : align ∣ r
  le : n ≤ r
  least : ∀ m, align ∣ m → n ≤ m → r ≤ m

/-- `roundUp` without the end of a word. -/
def ceiling (n align : Nat) : Nat := (n + align - 1) / align * align

theorem isRoundedUp_ceiling {align : Nat} (pos : 0 < align) (n : Nat) : IsRoundedUp n align (ceiling n align) where
  dvd := Nat.dvd_mul_left _ _
  le := by
    have parts := Nat.div_add_mod (n + align - 1) align
    have small := Nat.mod_lt (n + align - 1) pos
    rw [Nat.mul_comm] at parts
    unfold ceiling
    omega
  least := by
    rintro m ⟨k, rfl⟩ le
    have below : (n + align - 1) / align < k + 1 := by
      rw [Nat.div_lt_iff_lt_mul pos, Nat.add_mul, Nat.mul_comm k]
      omega
    rw [ceiling, Nat.mul_comm align]
    exact Nat.mul_le_mul_right _ (Nat.le_of_lt_succ below)

theorem roundUp_eq_ceiling {n align : Nat} (pos : 0 < align) (room : n + align ≤ UInt64.size) :
    roundUp n align = ceiling n align := by
  rw [roundUp, wrap, Nat.mod_eq_of_lt (by omega), ceiling]

theorem dvd_roundUp (n align : Nat) : align ∣ roundUp n align := Nat.dvd_mul_left _ _

theorem dvd_of_isPowerOfTwo {a b : Nat} (ha : a.isPowerOfTwo) (hb : b.isPowerOfTwo) (le : a ≤ b) : a ∣ b := by
  obtain ⟨i, rfl⟩ := ha
  obtain ⟨j, rfl⟩ := hb
  exact Nat.pow_dvd_pow 2 ((Nat.pow_le_pow_iff_right (by decide)).mp le)

def endOf (members : List Member) : Nat := (members.getLast?.map fun m => m.offset + m.size).getD 0

def UserType.placed (u : UserType) (p : TypeTable.Placement) : UserType :=
  { u with
    members := p.members
    size := roundUp p.bound p.align
    align := p.align
    trivial := p.trivial
    isLaidOut := true }

namespace TypeTable

variable {t : TypeTable} {id j : UserTypeId} {fields : List (String × Ty)}

/-! ## Tables -/

@[simp] theorem length_layout (t : TypeTable) (id : UserTypeId) (fields : List (String × Ty)) :
    (t.layout id fields).user.length = t.user.length := by simp [layout]

theorem getElem?_layout_of_ne (ne : id ≠ j) (fields : List (String × Ty)) :
    (t.layout id fields).user[j]? = t.user[j]? := by
  simp [layout, ne]

theorem get_layout_of_ne (ne : id ≠ j) (fields : List (String × Ty)) : (t.layout id fields).get j = t.get j := by
  simp only [get, getD_eq_getElem?_getD, getElem?_layout_of_ne ne]

theorem get_declare (t : TypeTable) (name : String) (id : UserTypeId) : (t.declare name).2.get id = t.get id ∨
    (t.declare name).2.get id = UserType.declared name ∧ t.get id = UserType.declared "" := by
  unfold declare get
  rcases Nat.lt_trichotomy id t.user.length with lt | rfl | gt
  · exact .inl (by simp [getElem?_append_left lt])
  · exact .inr (by simp)
  · left
    rw [getD_eq_getElem?_getD, getD_eq_getElem?_getD, getElem?_eq_none (by simp; omega), getElem?_eq_none (by omega)]

theorem get_layout (inside : id < t.user.length) (fields : List (String × Ty)) :
    (t.layout id fields).get id = (t.get id).placed (t.placeAll fields) := by
  unfold layout get
  dsimp only
  rw [getD_eq_getElem?_getD, getElem?_modify, getD_eq_getElem?_getD, getElem?_eq_getElem inside]
  simp [UserType.placed]

/-! ## Placing -/

theorem members_placeAll (t : TypeTable) (fs : List (String × Ty)) :
    (t.placeAll fs).members.map (fun m => (m.name, m.type)) = fs ∧
      ∀ m ∈ (t.placeAll fs).members, m.size = t.sizeOf m.type := by
  have each : ∀ p : Placement, (∀ m ∈ p.members, m.size = t.sizeOf m.type) →
      (fs.foldl t.place p).members.map (fun m => (m.name, m.type)) = p.members.map (fun m => (m.name, m.type)) ++ fs ∧
        ∀ m ∈ (fs.foldl t.place p).members, m.size = t.sizeOf m.type := by
    induction fs with
    | nil => exact fun p sizes => ⟨by simp, sizes⟩
    | cons field rest ih =>
      intro p sizes
      have placed : ∀ m ∈ (t.place p field).members, m.size = t.sizeOf m.type :=
        forall_mem_append.mpr ⟨sizes, forall_mem_singleton.mpr rfl⟩
      obtain ⟨names, allSizes⟩ := ih (t.place p field) placed
      refine ⟨?_, allSizes⟩
      rw [foldl_cons, names]
      simp [place]
  obtain ⟨names, sizes⟩ := each Placement.start (by simp [Placement.start])
  exact ⟨names, sizes⟩

theorem type_mem_placeAll (mem : m ∈ (t.placeAll fields).members) : ∃ field ∈ fields, m.type = field.2 :=
  ⟨(m.name, m.type), (members_placeAll t fields).1 ▸ mem_map_of_mem mem, rfl⟩

/-- What is known of members together, wherever they lie. -/
structure Joined (t : TypeTable) (members : List Member) (align : Nat) (trivial : Trivial) : Prop where
  strictest : 1 ≤ align ∧ ∀ m ∈ members, t.memberAlignOf m.type ≤ align
  attained : align = 1 ∨ ∃ m ∈ members, t.memberAlignOf m.type = align
  trivial : trivial = (members.map fun m => t.trivialOf m.type).foldl Trivial.inter Trivial.all

/-- Members that lie as close as they can. -/
structure Tight (t : TypeTable) (members : List Member) : Prop where
  offsets : ∀ i m, members[i]? = some m → IsRoundedUp (endOf (members.take i)) (t.memberAlignOf m.type) m.offset
  apart : members.Pairwise fun m m' => m.offset + m.size ≤ m'.offset

/-- What a placement says of its members. -/
structure Placement.Fits (t : TypeTable) (p : Placement) : Prop extends Tight t p.members where
  bound : p.bound = endOf p.members
  inside : ∀ m ∈ p.members, m.offset + m.size ≤ p.bound

def IsAligned (t : TypeTable) : Prop := ∀ ty, 0 < t.memberAlignOf ty

/-- Where the members would end behind `bound` if offsets did not wrap. -/
def extent (t : TypeTable) (bound : Nat) : List (String × Ty) → Nat
  | [] => bound
  | field :: rest => t.extent (ceiling bound (t.memberAlignOf field.2) + t.sizeOf field.2) rest

/-- The members and the padding behind them end inside a word. -/
def HasRoom (t : TypeTable) (fields : List (String × Ty)) : Prop :=
  t.extent 0 fields + (t.placeAll fields).align ≤ UInt64.size

instance (t : TypeTable) (fields : List (String × Ty)) : Decidable (t.HasRoom fields) :=
  inferInstanceAs (Decidable (_ ≤ _))

theorem le_extent (aligned : t.IsAligned) (bound : Nat) (fields : List (String × Ty)) :
    bound ≤ t.extent bound fields := by
  induction fields generalizing bound with
  | nil => exact Nat.le_refl _
  | cons field rest ih =>
    have rounded := isRoundedUp_ceiling (aligned field.2) bound
    exact Nat.le_trans rounded.le (Nat.le_trans (Nat.le_add_right _ _) (ih _))

theorem mem_place {p : Placement} {field : String × Ty} {m : Member} :
    m ∈ (t.place p field).members ↔
      m ∈ p.members ∨ m = ⟨field.1, field.2, t.sizeOf field.2, roundUp p.bound (t.memberAlignOf field.2)⟩ := by
  simp [place]

theorem joined_placeAll (t : TypeTable) (fields : List (String × Ty)) :
    Joined t (t.placeAll fields).members (t.placeAll fields).align (t.placeAll fields).trivial := by
  have run (p : Placement) (h : Joined t p.members p.align p.trivial) :
      Joined t (fields.foldl t.place p).members (fields.foldl t.place p).align (fields.foldl t.place p).trivial := by
    induction fields generalizing p with
    | nil => exact h
    | cons field rest ih =>
      refine ih (t.place p field) ⟨⟨Nat.le_trans h.strictest.1 (Nat.le_max_left _ _), fun m mem => ?_⟩, ?_, ?_⟩
      · rcases mem_place.mp mem with old | rfl
        · exact Nat.le_trans (h.strictest.2 m old) (Nat.le_max_left _ _)
        · exact Nat.le_max_right _ _
      · change max p.align (t.memberAlignOf field.2) = 1 ∨ ∃ m ∈ _, _ = max p.align (t.memberAlignOf field.2)
        rcases Nat.le_total (t.memberAlignOf field.2) p.align with le | le
        · rw [Nat.max_eq_left le]
          refine h.attained.imp_right fun among => ?_
          obtain ⟨m, old, same⟩ := among
          exact ⟨m, mem_place.mpr (.inl old), same⟩
        · rw [Nat.max_eq_right le]
          exact .inr ⟨_, mem_place.mpr (.inr rfl), rfl⟩
      · simp [place, h.trivial]
  exact run .start ⟨by simp [Placement.start], .inl rfl, rfl⟩

theorem Placement.Fits.place {p : Placement} (h : Fits t p) (aligned : t.IsAligned) (field : String × Ty)
    (room : p.bound + t.memberAlignOf field.2 ≤ UInt64.size)
    (below : ceiling p.bound (t.memberAlignOf field.2) + t.sizeOf field.2 < UInt64.size) :
    Fits t (t.place p field) ∧
      (t.place p field).bound = ceiling p.bound (t.memberAlignOf field.2) + t.sizeOf field.2 := by
  have exactly := roundUp_eq_ceiling (aligned field.2) room
  have rounded := isRoundedUp_ceiling (aligned field.2) p.bound
  have ends : (t.place p field).bound = ceiling p.bound (t.memberAlignOf field.2) + t.sizeOf field.2 := by
    simp only [TypeTable.place, exactly]
    exact Nat.mod_eq_of_lt below
  have behind : ∀ m ∈ p.members, m.offset + m.size ≤ ceiling p.bound (t.memberAlignOf field.2) :=
    fun m mem => Nat.le_trans (h.inside m mem) rounded.le
  let new : Member := ⟨field.1, field.2, t.sizeOf field.2, ceiling p.bound (t.memberAlignOf field.2)⟩
  have members : (t.place p field).members = p.members ++ [new] := by
    simp only [TypeTable.place, exactly, new]
  refine ⟨⟨⟨?_, ?_⟩, ?_, ?_⟩, ends⟩
  · intro i m found
    rw [members] at found ⊢
    rcases Nat.lt_trichotomy i p.members.length with lt | rfl | gt
    · rw [getElem?_append_left lt] at found
      rw [take_append_of_le_length (Nat.le_of_lt lt)]
      exact h.offsets i m found
    · obtain rfl : new = m := by simpa using found
      rwa [take_left, ← h.bound]
    · rw [getElem?_eq_none (by simp; omega)] at found
      cases found
  · rw [members]
    refine pairwise_append.mpr ⟨h.apart, by simp, fun m old m' isNew => ?_⟩
    rw [mem_singleton.mp isNew]
    exact behind m old
  · rw [ends, members]
    simp [endOf, new]
  · rw [ends, members]
    exact forall_mem_append.mpr ⟨fun m old => Nat.le_trans (behind m old) (Nat.le_add_right _ _),
      forall_mem_singleton.mpr (Nat.le_refl _)⟩

/-- Whoever has room for all of its members has room for each of them on the way. -/
theorem fits_placeAll (aligned : t.IsAligned) (room : t.HasRoom fields) :
    (t.placeAll fields).Fits t ∧ (t.placeAll fields).bound = t.extent 0 fields := by
  have grows (p : Placement) (fields : List (String × Ty)) : p.align ≤ (fields.foldl t.place p).align := by
    induction fields generalizing p with
    | nil => exact Nat.le_refl _
    | cons field rest ih => exact Nat.le_trans (Nat.le_max_left _ _) (ih (t.place p field))
  have run (fs : List (String × Ty)) (p : Placement) (h : p.Fits t)
      (room : t.extent p.bound fs + (fs.foldl t.place p).align ≤ UInt64.size) :
      (fs.foldl t.place p).Fits t ∧ (fs.foldl t.place p).bound = t.extent p.bound fs := by
    induction fs generalizing p with
    | nil => exact ⟨h, rfl⟩
    | cons field rest ih =>
      have last := le_extent aligned (ceiling p.bound (t.memberAlignOf field.2) + t.sizeOf field.2) rest
      have first := (isRoundedUp_ceiling (aligned field.2) p.bound).le
      have strict : t.memberAlignOf field.2 ≤ ((field :: rest).foldl t.place p).align :=
        Nat.le_trans (Nat.le_max_right _ _) (grows (t.place p field) rest)
      have pos := aligned field.2
      simp only [extent] at room ⊢
      obtain ⟨placed, bound⟩ := h.place aligned field (by omega) (by omega)
      rw [← bound] at room ⊢
      exact ih (t.place p field) placed room
  exact run fields .start ⟨⟨by simp [Placement.start], .nil⟩, rfl, by simp [Placement.start]⟩ room

/-! ## Flags -/

/-- A part of the flags that a handle lacks and nothing else does. -/
structure IsOwnerFlag (flag : Trivial → Bool) : Prop where
  inter : ∀ a b, flag (a.inter b) = (flag a && flag b)
  all : flag Trivial.all = true
  handle : flag Trivial.handle = false

theorem isOwnerFlag_fini : IsOwnerFlag Trivial.fini := ⟨fun _ _ => rfl, rfl, rfl⟩

theorem isOwnerFlag_copy : IsOwnerFlag Trivial.copy := ⟨fun _ _ => rfl, rfl, rfl⟩

theorem flag_placeAll (isFlag : IsOwnerFlag flag) (t : TypeTable) (fs : List (String × Ty)) :
    flag (t.placeAll fs).trivial = fs.all fun field => flag (t.trivialOf field.2) := by
  have each : ∀ p : Placement, flag (fs.foldl t.place p).trivial =
      (flag p.trivial && fs.all fun field => flag (t.trivialOf field.2)) := by
    induction fs with
    | nil => simp
    | cons field rest ih =>
      intro p
      rw [foldl_cons, ih, all_cons, ← Bool.and_assoc]
      exact congrArg (· && _) (isFlag.inter _ _)
  rw [placeAll, each, Placement.start, isFlag.all, Bool.true_and]

theorem needsFini_layout (inside : id < t.user.length) (fields : List (String × Ty)) :
    (t.layout id fields).needsFini (.user id) = (t.placeAll fields).members.any fun m => t.needsFini m.type := by
  have flag : (t.layout id fields).needsFini (.user id) = !(t.placeAll fields).trivial.fini := by
    rw [needsFini, trivialOf, get_layout inside]
    rfl
  have same (p : Ty → Bool) : fields.any (fun field => p field.2) = (t.placeAll fields).members.any fun m => p m.type := by
    rw [← congrArg (List.any · _) (members_placeAll t fields).1, any_map]
    rfl
  rw [flag, flag_placeAll isOwnerFlag_fini, not_all_eq_any_not]
  exact same fun ty => !(t.trivialOf ty).fini

theorem needsFini_layout_of_ne (other : ty ≠ .user id) (fields : List (String × Ty)) :
    (t.layout id fields).needsFini ty = t.needsFini ty := by
  cases ty with
  | user j =>
    have ne : id ≠ j := fun same => other (congrArg Ty.user same.symm)
    simp only [needsFini, trivialOf, get_layout_of_ne ne]
  | builtin b => cases b <;> rfl
  | arrayOf _ | pointerTo _ => rfl

/-! ## Alignments -/

/-- The tables that declaring and laying out lead to. -/
inductive Reached (pointer : PointerWidth) (memberAlign : Nat) : TypeTable → Prop where
  | empty : Reached pointer memberAlign (.empty pointer memberAlign)
  | declare {t : TypeTable} (name : String) : Reached pointer memberAlign t → Reached pointer memberAlign (t.declare name).2
  | layout {t : TypeTable} (id : UserTypeId) (fields : List (String × Ty)) : Reached pointer memberAlign t →
      Reached pointer memberAlign (t.layout id fields)

section Alignments

variable {pointer : PointerWidth} {memberAlign : Nat} {P : Nat → Prop}

theorem Reached.target (h : Reached pointer memberAlign t) : t.pointer = pointer ∧ t.memberAlign = max 1 memberAlign := by
  induction h with
  | empty => exact ⟨rfl, rfl⟩
  | declare _ _ ih | layout _ _ _ ih => exact ih

section

variable (builtin : ∀ b : BuiltinType, P (b.align t.pointer)) (user : ∀ id, P (t.get id).align)
include builtin user

theorem align_alignOf (ty : Ty) : P (t.alignOf ty) := by
  cases ty with
  | user id => exact user id
  | _ => exact builtin _

theorem align_memberAlignOf (cap : P t.memberAlign) (ty : Ty) : P (t.memberAlignOf ty) := by
  rw [memberAlignOf, Nat.min_def]
  split
  · exact align_alignOf builtin user ty
  · exact cap

end

theorem align_placeAll (one : P 1) (members : ∀ ty, P (t.memberAlignOf ty))
    (fields : List (String × Ty)) : P (t.placeAll fields).align := by
  rcases (joined_placeAll t fields).attained with isOne | ⟨m, -, same⟩
  · exact isOne ▸ one
  · exact same ▸ members m.type

section

variable (h : Reached pointer memberAlign t)
include h

section

variable (one : P 1) (builtin : ∀ b : BuiltinType, P (b.align pointer)) (cap : P (max 1 memberAlign))
include one builtin cap

/-- What holds of the alignments of the built-in types, of the cap and of 1 holds of every
alignment in every table. -/
theorem Reached.align : ∀ id, P (t.get id).align := by
  induction h with
  | empty => exact fun _ => one
  | @declare t name h ih =>
    intro id
    rcases get_declare t name id with same | ⟨same, -⟩
    · exact same ▸ ih id
    · exact same ▸ one
  | @layout t id fields h ih =>
    intro j
    obtain ⟨rfl, same⟩ := h.target
    by_cases other : id = j
    · subst other
      by_cases inside : id < t.user.length
      · rw [get_layout inside]
        exact align_placeAll one (align_memberAlignOf builtin ih (same ▸ cap)) fields
      · rw [get, getD_eq_getElem?_getD, getElem?_eq_none (by simpa using inside)]
        exact one
    · rw [get_layout_of_ne other]
      exact ih j

theorem Reached.memberAlignOf (ty : Ty) : P (t.memberAlignOf ty) := by
  obtain ⟨rfl, same⟩ := h.target
  exact align_memberAlignOf builtin (h.align one builtin cap) (same ▸ cap) ty

end

theorem Reached.isAligned : t.IsAligned := by
  refine h.memberAlignOf Nat.one_pos (fun b => ?_) (by omega)
  cases pointer <;> cases b <;> decide

end

theorem isPowerOfTwo_align (pointer : PointerWidth) (b : BuiltinType) : (b.align pointer).isPowerOfTwo := by
  have small : ∃ k < 4, b.align pointer = Nat.pow 2 k := by
    cases pointer <;> cases b <;> decide
  obtain ⟨k, -, same⟩ := small
  exact ⟨k, same⟩

end Alignments

/-! ## Laid out types -/

/-- If they have room, the members lie as close as they can, and so does the end behind them. -/
theorem placed_tight (aligned : t.IsAligned) (room : t.HasRoom fields) (u : UserType) :
    Tight t (u.placed (t.placeAll fields)).members ∧
      IsRoundedUp (endOf (u.placed (t.placeAll fields)).members) (t.placeAll fields).align
        (u.placed (t.placeAll fields)).size := by
  obtain ⟨fits, bound⟩ := fits_placeAll aligned room
  have pos := (joined_placeAll t fields).strictest.1
  refine ⟨fits.toTight, fits.bound ▸ ?_⟩
  change IsRoundedUp _ _ (roundUp _ _)
  rw [roundUp_eq_ceiling pos (bound ▸ room)]
  exact isRoundedUp_ceiling pos _

/-- A byte and a float under one name, with a cap of four bytes, and a second name. -/
def nestedTable : TypeTable :=
  (((TypeTable.empty .bits64 4).declare "inner").2.layout 0
    [("tag", .builtin .int8), ("value", .builtin .float64)]).declare "outer" |>.2

/-- Two members of half a word each have no room: the second ends where the first begins. -/
def halfWord : TypeTable :=
  ⟨.bits64, 8, [⟨"half", [], UInt64.size / 2, 8, .all, true⟩, .declared "whole"]⟩

example : ¬ halfWord.HasRoom [("low", .user 0), ("high", .user 0)] ∧
    ((halfWord.layout 1 [("low", .user 0), ("high", .user 0)]).get 1).size = 0 := by decide

end TypeTable

end BasicCompiler
