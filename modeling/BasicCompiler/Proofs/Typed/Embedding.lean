/-
# Tables of types that embed each other

Types that are laid out one after the other, each behind those that it embeds. No such type can embed itself, on
whatever way.
-/
import Mathlib.Logic.Relation
import BasicCompiler.Proofs.Typed.Layouts

namespace BasicCompiler

open List

/-! ## Which type embeds which -/

section Fields

variable {id : UserTypeId}

/-- A field of the first type is of the second type, and no array of it. -/
def Embeds (fields : UserTypeId → List (String × Ty)) (id j : UserTypeId) : Prop :=
  ∃ field ∈ fields id, field.2 = .user j

/-- Each type of the list stands behind those that it embeds, and is there once. -/
inductive IsLayoutOrder (fields : UserTypeId → List (String × Ty)) : List UserTypeId → Prop where
  | nil : IsLayoutOrder fields []
  | snoc {order : List UserTypeId} {id : UserTypeId} : IsLayoutOrder fields order → id ∉ order →
      (∀ j, Embeds fields id j → j ∈ order) → IsLayoutOrder fields (order ++ [id])

/-- A string or an array can be reached through the fields of a type. -/
inductive Owns (fields : UserTypeId → List (String × Ty)) : UserTypeId → Prop where
  | field {id : UserTypeId} {field : String × Ty} : field ∈ fields id →
      field.2.isString = true ∨ field.2.isArray = true → Owns fields id
  | embedded {id j : UserTypeId} : Embeds fields id j → Owns fields j → Owns fields id

namespace IsLayoutOrder

section

variable (h : IsLayoutOrder fields order)
include h

theorem nodup : order.Nodup := by
  induction h with
  | nil => exact nodup_nil
  | snoc _ absent _ ih =>
    refine nodup_append.mpr ⟨ih, by simp, fun i mem j isLast same => absent ?_⟩
    rw [← mem_singleton.mp isLast, ← same]
    exact mem

theorem mem_of_embeds (mem : id ∈ order) (embeds : Embeds fields id j) : j ∈ order := by
  induction h with
  | nil => cases mem
  | snoc _ _ behind ih =>
    rcases mem_append.mp mem with before | last
    · exact mem_append_left _ (ih before)
    · obtain rfl := mem_singleton.mp last
      exact mem_append_left _ (behind j embeds)

theorem rec_embeds {P : UserTypeId → Prop}
    (step : ∀ i ∈ order, (∀ j, Embeds fields i j → P j) → P i) : ∀ i ∈ order, P i := by
  induction h with
  | nil => simp
  | @snoc order last _ _ behind ih =>
    have before : ∀ i ∈ order, P i := ih fun i mem => step i (mem_append_left _ mem)
    intro i mem
    rcases mem_append.mp mem with isBefore | isLast
    · exact before i isBefore
    · obtain rfl := mem_singleton.mp isLast
      exact step i mem fun j embeds => before j (behind j embeds)

theorem mem_of_transGen (mem : id ∈ order) (reaches : Relation.TransGen (Embeds fields) id j) : j ∈ order := by
  induction reaches with
  | single embeds => exact h.mem_of_embeds mem embeds
  | tail _ embeds ih => exact h.mem_of_embeds ih embeds

theorem acyclic (mem : id ∈ order) : ¬ Relation.TransGen (Embeds fields) id id := by
  induction h with
  | nil => cases mem
  | snoc before absent behind ih =>
    rcases mem_append.mp mem with isBefore | last
    · exact ih isBefore
    · -- from the last type every way leads to those before it, and stays there
      obtain rfl := mem_singleton.mp last
      intro cycle
      obtain ⟨j, embeds, back⟩ := Relation.TransGen.head'_iff.mp cycle
      have inOrder := behind j embeds
      rcases Relation.reflTransGen_iff_eq_or_transGen.mp back with rfl | back
      · exact absent inOrder
      · exact absent (before.mem_of_transGen inOrder back)

end

end IsLayoutOrder

end Fields

/-! ## Layouts computed again -/

namespace TypeTable

variable {t : TypeTable} {id : UserTypeId}

def layoutAll (fields : UserTypeId → List (String × Ty)) (t : TypeTable) (order : List UserTypeId) : TypeTable :=
  order.foldl (fun t id => t.layout id (fields id)) t

section

variable (fields : UserTypeId → List (String × Ty)) (t : TypeTable) (order : List UserTypeId)

theorem layoutAll_snoc
    (id : UserTypeId) : t.layoutAll fields (order ++ [id]) = (t.layoutAll fields order).layout id (fields id) := by
  simp [layoutAll]

theorem layoutAll_keeps :
    (t.layoutAll fields order).pointer = t.pointer ∧ (t.layoutAll fields order).memberAlign = t.memberAlign ∧
      (t.layoutAll fields order).user.length = t.user.length := by
  induction order generalizing t with
  | nil => exact ⟨rfl, rfl, rfl⟩
  | cons id rest ih =>
    obtain ⟨pointer, memberAlign, count⟩ := ih (t.layout id (fields id))
    exact ⟨pointer, memberAlign, count.trans (length_layout t id (fields id))⟩

end

theorem get_layoutAll_of_not_mem (t : TypeTable) (absent : id ∉ order) :
    (t.layoutAll fields order).get id = t.get id := by
  induction order generalizing t with
  | nil => rfl
  | cons first rest ih =>
    simp only [mem_cons, not_or] at absent
    have others := ih (t.layout first (fields first)) absent.2
    rw [get_layout_of_ne (Ne.symm absent.1)] at others
    exact others

theorem layout_eq_self (inside : id < t.user.length) (same : t.get id = (t.get id).placed (t.placeAll fs)) :
    t.layout id fs = t := by
  have atId : t.user[id]? = some (t.get id) := by
    simp [get, getElem?_eq_getElem inside]
  have unchanged : (t.layout id fs).user = t.user := by
    apply ext_getElem?
    intro k
    unfold layout
    rw [getElem?_modify]
    by_cases isId : id = k
    · subst isId
      simp only [atId, if_true, Option.map_eq_map, Option.map_some]
      exact congrArg some same.symm
    · simp [isId]
  obtain ⟨pointer, memberAlign, user⟩ := t
  unfold layout at unchanged ⊢
  dsimp only at unchanged ⊢
  rw [unchanged]

theorem Reached.layoutAll {pointer : PointerWidth} {memberAlign : Nat} (h : Reached pointer memberAlign t)
    (fields : UserTypeId → List (String × Ty)) (order : List UserTypeId) :
    Reached pointer memberAlign (t.layoutAll fields order) := by
  induction order generalizing t with
  | nil => exact h
  | cons id rest ih => exact ih (.layout id _ h)

/-- What a placement is computed from. -/
structure Agrees (t t' : TypeTable) (ty : Ty) : Prop where
  size : t'.sizeOf ty = t.sizeOf ty
  align : t'.alignOf ty = t.alignOf ty
  trivial : t'.trivialOf ty = t.trivialOf ty

theorem agrees_of_get (pointer : t'.pointer = t.pointer) (same : ∀ j, ty = .user j → t'.get j = t.get j) :
    Agrees t t' ty := by
  cases ty with
  | user j => exact ⟨by simp [sizeOf, same], by simp [alignOf, same], by simp [trivialOf, same]⟩
  | builtin b =>
    refine ⟨by simp [sizeOf, pointer], by simp [alignOf, pointer], ?_⟩
    cases b <;> rfl
  | arrayOf elem | pointerTo elem => exact ⟨by simp [sizeOf, pointer], by simp [alignOf, pointer], rfl⟩

theorem placeAll_congr (memberAlign : t'.memberAlign = t.memberAlign) (agrees : ∀ field ∈ fs, Agrees t t' field.2) :
    t'.placeAll fs = t.placeAll fs := by
  have each : ∀ p, fs.foldl t'.place p = fs.foldl t.place p := by
    induction fs with
    | nil => exact fun _ => rfl
    | cons field rest ih =>
      intro p
      have first : t'.place p field = t.place p field := by
        obtain ⟨size, align, trivial⟩ := agrees field (by simp)
        unfold place memberAlignOf
        simp only [size, align, trivial, memberAlign]
      rw [foldl_cons, foldl_cons, first]
      exact ih (fun f mem => agrees f (by simp [mem])) _
  exact each _

section

variable (h : IsLayoutOrder fields order) (inside : ∀ i ∈ order, i < t.user.length) (mem : id ∈ order)
include h inside mem

theorem get_layoutAll :
    (t.layoutAll fields order).get id = (t.get id).placed ((t.layoutAll fields order).placeAll (fields id)) := by
  induction h with
  | nil => cases mem
  | @snoc order last before absent behind ih =>
    have insideBefore : ∀ i ∈ order, i < t.user.length := fun i isBefore => inside i (mem_append_left _ isBefore)
    obtain ⟨pointer, memberAlign, count⟩ := layoutAll_keeps fields t order
    -- no type before the last one changes, and all that a layout looks at are such types
    have kept : ∀ i ∈ order, (t.layoutAll fields (order ++ [last])).get i = (t.layoutAll fields order).get i := by
      intro i isBefore
      rw [layoutAll_snoc]
      apply get_layout_of_ne
      rintro rfl
      exact absent isBefore
    have samePlaces : ∀ fs, (∀ field ∈ fs, ∀ j, field.2 = .user j → j ∈ order) →
        (t.layoutAll fields (order ++ [last])).placeAll fs = (t.layoutAll fields order).placeAll fs := by
      intro fs inOrder
      refine placeAll_congr ?_ fun field isField => agrees_of_get ?_ fun j isUser => kept j (inOrder field isField j isUser)
      · rw [layoutAll_snoc]
        rfl
      · rw [layoutAll_snoc]
        rfl
    rcases mem_append.mp mem with isBefore | isLast
    · rw [kept id isBefore, samePlaces (fields id) fun field isField j isUser =>
        before.mem_of_embeds isBefore ⟨field, isField, isUser⟩]
      exact ih insideBefore isBefore
    · obtain rfl := mem_singleton.mp isLast
      rw [samePlaces (fields id) fun field isField j isUser => behind j ⟨field, isField, isUser⟩, layoutAll_snoc,
        get_layout (count ▸ inside id mem), get_layoutAll_of_not_mem t absent]

theorem layout_layoutAll : (t.layoutAll fields order).layout id (fields id) = t.layoutAll fields order := by
  obtain ⟨-, -, count⟩ := layoutAll_keeps fields t order
  apply layout_eq_self (count ▸ inside id mem)
  conv_rhs => rw [get_layoutAll h inside mem]
  exact get_layoutAll h inside mem

end

/-! ## What members own -/

theorem flag_trivialOf (isFlag : IsOwnerFlag flag) (t : TypeTable) (ty : Ty) :
    flag (t.trivialOf ty) = false ↔ ty.isString = true ∨ ty.isArray = true ∨
      ∃ j, ty = .user j ∧ flag (t.get j).trivial = false := by
  cases ty with
  | user j => simp [trivialOf, Ty.isString, Ty.isArray, Ty.satisfies, Ty.builtin?, Ty.string]
  | arrayOf elem => simp [trivialOf, isFlag.handle, Ty.isArray, Ty.satisfies, Ty.builtin?]
  | pointerTo elem => simp [trivialOf, isFlag.all, Ty.isString, Ty.isArray, Ty.satisfies, Ty.builtin?, Ty.string]
  | builtin b =>
    cases b <;> simp [trivialOf, isFlag.all, isFlag.handle, Ty.isString, Ty.isArray, Ty.satisfies, Ty.builtin?, Ty.string]

theorem flag_layoutAll (isFlag : IsOwnerFlag flag) (h : IsLayoutOrder fields order)
    (inside : ∀ i ∈ order, i < t.user.length) (mem : id ∈ order) :
    flag ((t.layoutAll fields order).get id).trivial = false ↔ Owns fields id := by
  have lacks : ∀ i ∈ order, flag ((t.layoutAll fields order).get i).trivial = false ↔
      ∃ field ∈ fields i, flag ((t.layoutAll fields order).trivialOf field.2) = false := by
    intro i isMem
    rw [get_layoutAll h inside isMem]
    simp [UserType.placed, flag_placeAll isFlag]
  constructor
  · refine h.rec_embeds (P := fun i => flag ((t.layoutAll fields order).get i).trivial = false → Owns fields i)
      (fun i isMem embedded isLacking => ?_) id mem
    obtain ⟨field, isField, lacking⟩ := (lacks i isMem).mp isLacking
    rcases (flag_trivialOf isFlag _ field.2).mp lacking with isString | isArray | ⟨j, isUser, inner⟩
    · exact .field isField (.inl isString)
    · exact .field isField (.inr isArray)
    · exact .embedded ⟨field, isField, isUser⟩ (embedded j ⟨field, isField, isUser⟩ inner)
  · intro owns
    induction owns with
    | field isField held =>
      refine (lacks _ mem).mpr ⟨_, isField, (flag_trivialOf isFlag _ _).mpr ?_⟩
      rcases held with isString | isArray
      · exact .inl isString
      · exact .inr (.inl isArray)
    | embedded embeds _ ih =>
      obtain ⟨field, isField, isUser⟩ := embeds
      refine (lacks _ mem).mpr ⟨field, isField, (flag_trivialOf isFlag _ _).mpr ?_⟩
      exact .inr (.inr ⟨_, isUser, ih (h.mem_of_embeds mem ⟨field, isField, isUser⟩)⟩)

end TypeTable

end BasicCompiler
