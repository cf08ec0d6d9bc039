/-
# Names in small letters

Names are compared without regard to case, and besides that a name is only asked for its suffix.
-/
import BasicCompiler.Proofs.Source.Casing
import BasicCompiler.Typed.Checker.Program

namespace BasicCompiler

open List

/-- The second gives what the first gives, changed by `act`, or both fail at the same place. -/
inductive Matches {ε π α β : Type} (place : ε → π) (act : α → β) : Except ε α → Except ε β → Prop
  | ok (a : α) : Matches place act (.ok a) (.ok (act a))
  | error {e e' : ε} (same : place e' = place e) : Matches place act (.error e) (.error e')

namespace Matches

theorem refl (r : Except ε α) : Matches place id r r := by
  cases r with
  | ok a => exact .ok a
  | error e => exact .error rfl

theorem bind (first : Matches place act r r') (second : ∀ a, Matches place act' (f a) (f' (act a))) :
    Matches place act' (r >>= f) (r' >>= f') := by
  cases first with
  | ok a => exact second a
  | error same => exact .error same

end Matches

/-! ## Names -/

theorem sameName_fold (a b : String) : sameName (fold a) (fold b) = sameName a b := by
  rw [sameName, fold_fold, fold_fold, sameName]

theorem BuiltinType.ofName?_fold (name : String) : ofName? (fold name) = ofName? name := by
  rw [ofName?, fold_fold, ofName?]

theorem lastChar_fold (name : String) : lastChar (fold name) = (lastChar name).map Char.toLower := by
  rw [lastChar, fold, String.toList_ofList, getLast?_map, lastChar]

theorem lastChar_fold_iff (uncased : IsUncased d) (name : String) :
    lastChar (fold name) = some d ↔ lastChar name = some d := by
  rw [lastChar_fold]
  cases lastChar name with
  | none => rfl
  | some c => simp only [Option.map_some, Option.some.injEq, toLower_eq_iff uncased]

theorem suffix_fold (name : String) (float string other : α) :
    (match lastChar (fold name) with | some '#' => float | some '$' => string | _ => other) =
      match lastChar name with | some '#' => float | some '$' => string | _ => other := by
  have choice (last : Option Char) :
      (match last with | some '#' => float | some '$' => string | _ => other) =
        if last = some '#' then float else if last = some '$' then string else other := by
    split
    · rfl
    · rfl
    · next hash dollar => rw [if_neg hash, if_neg dollar]
  rw [choice, choice]
  simp only [lastChar_fold_iff (show IsUncased '#' by decide), lastChar_fold_iff (show IsUncased '$' by decide)]

namespace Typed

section

variable (name : String)

theorem suffixType_fold : suffixType (fold name) = suffixType name := suffix_fold _ _ _ _

theorem loopVariableType_fold : loopVariableType (fold name) = loopVariableType name := suffix_fold _ _ _ _

theorem swizzleAxes?_fold (cols : Nat) : swizzleAxes? (fold name) cols = swizzleAxes? name cols := by
  rw [swizzleAxes?, fold_fold, swizzleAxes?]

theorem Check.linkName_fold (overload : Nat) : Check.linkName (fold name) overload = Check.linkName name overload := by
  rw [linkName, fold_fold, linkName]

end

end Typed

/-! ## Scopes -/

theorem modify_map {α β : Type} {f : α → β} {change : α → α} {change' : β → β}
    (same : ∀ a, change' (f a) = f (change a)) (as : List α) (index : Nat) :
    (as.map f).modify index change' = (as.modify index change).map f := by
  induction as generalizing index with
  | nil => cases index <;> rfl
  | cons a as ih =>
    cases index with
    | zero => exact congrArg (· :: as.map f) (same a)
    | succ index => exact congrArg (f a :: ·) (ih index)

def Symbol.folded {κ : Type} (s : Symbol κ) : Symbol κ := { s with name := fold s.name }

namespace ScopeTree

variable (t : ScopeTree κ)

theorem eq_of_symbols {t t' : ScopeTree κ} (scopes : t.scopes = t'.scopes) (symbols : t.symbols = t'.symbols) :
    t = t' := by
  have dict := t.keyed.trans (symbols ▸ t'.keyed.symm)
  cases t
  cases t'
  cases scopes
  cases symbols
  cases dict
  rfl

def folded : ScopeTree κ :=
  { t with
    symbols := t.symbols.map Symbol.folded
    keyed := by
      rw [t.keyed, entries, entries, zipIdx_map, map_map]
      exact map_congr_left fun s _ => by simp [Symbol.folded, fold_fold] }

theorem get?_folded (id : SymbolId) : t.folded.get? id = (t.get? id).map Symbol.folded := getElem?_map

theorem findHere_folded (id : ScopeId) (name : String) : t.folded.findHere id (fold name) = t.findHere id name := by
  rw [findHere, fold_fold, findHere]
  rfl

theorem nearest_folded (ask : ScopeId → Option β) (id : ScopeId) :
    t.folded.nearest ask id = t.nearest ask id := by
  induction id using Nat.strongRecOn with
  | ind id ih =>
    rw [nearest, nearest, show t.folded.scope id = t.scope id from rfl]
    cases ask id with
    | some answer => rfl
    | none =>
      dsimp only
      split
      · next parent isParent => exact ih parent (t.older id parent isParent)
      · rfl

theorem find_folded (id : ScopeId) (name : String) (reach : Reach) :
    t.folded.find id (fold name) reach = t.find id name reach := by
  cases reach with
  | here => exact t.findHere_folded id name
  | ancestors =>
    rw [find, nearest_folded, find]
    exact congrArg (t.nearest · id) (funext fun s => t.findHere_folded s name)

theorem insert_folded (s : Symbol κ) : t.folded.insert s.folded = (t.insert s).folded := by
  refine eq_of_symbols ?_ ?_
  · simp [insert, folded, Symbol.folded]
  · simp [insert, folded]

theorem modifyKind_folded (id : SymbolId) (change : κ → κ) :
    t.folded.modifyKind id change = (t.modifyKind id change).folded :=
  eq_of_symbols rfl (modify_map (by exact fun _ => rfl) t.symbols id)

end ScopeTree

/-! ## Types -/

def Member.folded (m : Member) : Member := { m with name := fold m.name }

def UserType.folded (t : UserType) : UserType := { t with name := fold t.name, members := t.members.map Member.folded }

theorem UserType.member?_folded (t : UserType) (name : String) :
    t.folded.member? (fold name) = (t.member? name).map fun found => (found.1, found.2.folded) := by
  have same : t.folded.members.findIdx? (fun m => sameName m.name (fold name)) =
      t.members.findIdx? fun m => sameName m.name name := by
    rw [folded, findIdx?_map]
    exact congrArg (List.findIdx? · t.members) (funext fun m => sameName_fold m.name name)
  rw [member?, same, member?]
  cases t.members.findIdx? fun m => sameName m.name name with
  | none => rfl
  | some index =>
    simp only [folded, getElem?_map, Option.map_map]
    rfl

namespace TypeTable

variable (t : TypeTable)

def folded : TypeTable := { t with user := t.user.map UserType.folded }

theorem get_folded (id : UserTypeId) : t.folded.get id = (t.get id).folded := by
  have undeclared : (UserType.declared "").folded = UserType.declared "" := by
    simp only [UserType.folded, UserType.declared, show fold "" = "" by decide, map_nil]
  rw [get, folded, getD_eq_getElem?_getD, getElem?_map, get, getD_eq_getElem?_getD]
  cases t.user[id]? with
  | none => exact undeclared.symm
  | some u => rfl

theorem sizeOf_folded (ty : Ty) : t.folded.sizeOf ty = t.sizeOf ty := by
  cases ty with
  | user id => rw [sizeOf, get_folded, sizeOf]; rfl
  | _ => rfl

theorem alignOf_folded (ty : Ty) : t.folded.alignOf ty = t.alignOf ty := by
  cases ty with
  | user id => rw [alignOf, get_folded, alignOf]; rfl
  | _ => rfl

theorem trivialOf_folded (ty : Ty) : t.folded.trivialOf ty = t.trivialOf ty := by
  cases ty with
  | user id => rw [trivialOf, get_folded, trivialOf]; rfl
  | builtin b => cases b <;> rfl
  | _ => rfl

theorem declare_folded (name : String) :
    t.folded.declare (fold name) = ((t.declare name).1, (t.declare name).2.folded) := by
  simp only [declare, folded, length_map, map_append, map_cons, map_nil]
  rfl

def foldFields (fields : List (String × Ty)) : List (String × Ty) := fields.map fun f => (fold f.1, f.2)

def Placement.folded (p : Placement) : Placement := { p with members := p.members.map Member.folded }

theorem place_folded (p : Placement) (field : String × Ty) :
    t.folded.place p.folded (fold field.1, field.2) = (t.place p field).folded := by
  have align : t.folded.memberAlignOf field.2 = t.memberAlignOf field.2 := by
    rw [memberAlignOf, alignOf_folded, memberAlignOf]
    rfl
  simp only [place, align, sizeOf_folded, trivialOf_folded, Placement.folded, map_append, map_cons, map_nil]
  rfl

theorem placeAll_folded (fields : List (String × Ty)) :
    t.folded.placeAll (foldFields fields) = (t.placeAll fields).folded := by
  suffices all : ∀ p : Placement, (foldFields fields).foldl t.folded.place p.folded =
      (fields.foldl t.place p).folded from all .start
  induction fields with
  | nil => exact fun p => rfl
  | cons field rest ih =>
    intro p
    rw [foldl_cons, ← ih (t.place p field), ← place_folded]
    rfl

theorem layout_folded (id : UserTypeId) (fields : List (String × Ty)) :
    t.folded.layout id (foldFields fields) = (t.layout id fields).folded := by
  rw [layout, placeAll_folded]
  exact congrArg (mk t.pointer t.memberAlign) (modify_map (by exact fun _ => rfl) t.user id)

end TypeTable

namespace Typed

/-! ## Rules -/

def CheckError.places (e : CheckError) : Span × List Span := (e.span, e.notes.map (·.span))

/-- The second gives what the first gives, changed by `act`, or both stop behind `reports`
with one more each, at the same places. What is given is such that nothing was reported. -/
inductive StopAlike {α β : Type} (reports : List CheckError) (silent : α → Prop) (act : α → β) :
    Except (List CheckError) α → Except (List CheckError) β → Prop
  | ok (a : α) (kept : silent a) : StopAlike reports silent act (.ok a) (.ok (act a))
  | error {e e' : CheckError} (same : e'.places = e.places) :
      StopAlike reports silent act (.error (reports ++ [e])) (.error (reports ++ [e']))

namespace StopAlike

theorem bind (first : StopAlike reports silent act r r')
    (second : ∀ a, silent a → StopAlike reports silent' act' (f a) (f' (act a))) :
    StopAlike reports silent' act' (r >>= f) (r' >>= f') := by
  cases first with
  | ok a kept => exact second a kept
  | error same => exact .error same

theorem ite [Decidable c] (yes : StopAlike reports silent act r r') (no : StopAlike reports silent act s s') :
    StopAlike reports silent act (if c then r else s) (if c then r' else s') := by
  split
  · exact yes
  · exact no

theorem toMatches (h : StopAlike reports silent act r r') : Matches (map CheckError.places) act r r' := by
  cases h with
  | ok a _ => exact .ok a
  | error same => exact .error (by rw [map_append, map_append, map_singleton, map_singleton, same])

end StopAlike

abbrev RulesAlike {α β : Type} (act : α → β) (r : Result α) (r' : Result β) : Prop :=
  StopAlike [] (fun _ => True) act r r'

theorem refuse_alike {α β : Type} {act : α → β} {span : Span} :
    RulesAlike act (refuse fault span) (refuse fault' span) := .error rfl

def Indifferent {α : Type} (r : TypeTable → Result α) : Prop := ∀ types, RulesAlike id (r types) (r types.folded)

namespace Indifferent

theorem coerce (e : Expr) (target : Ty) (mode : ConversionMode) :
    Indifferent fun types => Typed.coerce types e target mode :=
  fun _ => .ite (.ok _ trivial) refuse_alike

theorem elementType (base : Expr) : Indifferent fun types => Typed.elementType types base := by
  intro types
  unfold Typed.elementType
  cases base.ty.element? with
  | some elem => exact .ok elem trivial
  | none => exact refuse_alike

theorem coerceIndex (fault : String → CheckFault) (e : Expr) :
    Indifferent fun types => Typed.coerceIndex types fault e :=
  fun types => .ite (coerce e _ _ types) refuse_alike

theorem coerceAll (target : Ty) (mode : ConversionMode) (es : List Expr) :
    Indifferent fun types => Typed.coerceAll types target mode es := by
  intro types
  induction es with
  | nil => exact .ok [] trivial
  | cons e rest ih => exact .bind (coerce e target mode types) fun e _ => .bind ih fun rest _ => .ok (e :: rest) trivial

theorem typeUnary (op : Spanned UnaryOp) (e : Expr) (span : Span) :
    Indifferent fun types => Typed.typeUnary types op e span :=
  fun types => .ite refuse_alike <| .ite (.bind (coerce e _ _ types) fun _ _ => .ok _ trivial) (.ok _ trivial)

theorem typeBinary (op : Spanned BinaryOp) (left right : Expr) (span : Span) :
    Indifferent fun types => Typed.typeBinary types op left right span := by
  intro types
  refine .ite (.bind (coerce left _ _ types) fun _ _ => .bind (coerce right _ _ types) fun _ _ => .ok _ trivial) ?_
  cases (promoted? left.ty right.ty).filter (operandsAllowed op.node) with
  | none => exact refuse_alike
  | some t => exact .bind (coerce left _ _ types) fun _ _ => .bind (coerce right _ _ types) fun _ _ => .ok _ trivial

end Indifferent

theorem typeConstruct_alike (types : TypeTable) (t : BuiltinType) (callee : Ident) (args : List Expr) (span : Span) :
    RulesAlike id (typeConstruct types t callee args span)
      (typeConstruct types.folded t (Rewording.caseless.ident callee) args span) := by
  unfold typeConstruct
  refine .ite (.bind (Indifferent.coerceAll _ _ args types) fun parts _ => .ok _ trivial) ?_
  split
  · next e => exact .bind (Indifferent.coerce e _ _ types) fun e _ => .ok _ trivial
  · exact refuse_alike

theorem typeSwizzle_alike (base : Expr) (t : BuiltinType) (name : Ident) (span : Span) :
    RulesAlike id (typeSwizzle base t name span) (typeSwizzle base t (Rewording.caseless.ident name) span) := by
  unfold typeSwizzle
  rw [show swizzleAxes? (Rewording.caseless.ident name).node t.info.cols = swizzleAxes? name.node t.info.cols from
    swizzleAxes?_fold name.node _]
  cases swizzleAxes? name.node t.info.cols with
  | none => exact refuse_alike
  | some axes =>
    dsimp only
    cases vectorOf? t.component axes.length with
    | none => exact refuse_alike
    | some result => exact .ok _ trivial

theorem typeMember_alike (types : TypeTable) (base : Expr) (name : Ident) (span : Span) :
    RulesAlike id (typeMember types base name span)
      (typeMember types.folded base (Rewording.caseless.ident name) span) := by
  unfold typeMember
  cases base.ty.user? with
  | some id =>
    dsimp only
    rw [types.get_folded, show ((types.get id).folded.member? (Rewording.caseless.ident name).node) = _ from
      (types.get id).member?_folded name.node]
    cases (types.get id).member? name.node with
    | none => exact refuse_alike
    | some found => exact .ok _ trivial
  | none =>
    dsimp only
    cases vector? base.ty with
    | none => exact refuse_alike
    | some t => exact typeSwizzle_alike base t name span

theorem resolveCall_alike (types : TypeTable) (callee : Ident) (overloads : List Overload) (args : List Expr)
    (span : Span) :
    RulesAlike id (resolveCall types callee overloads args span)
      (resolveCall types.folded (Rewording.caseless.ident callee) overloads args span) := by
  unfold resolveCall
  dsimp only
  split
  · exact .ok _ trivial
  · refine .error (congrArg (Prod.mk span) ?_)
    simp only [noOverloadError, map_map]
    rfl

end Typed

end BasicCompiler
