/-
# The rules make well-typed expressions

Each rule of typing is given expressions that are well typed and makes one that is.
-/
import BasicCompiler.Proofs.Typed.Checking
import BasicCompiler.Proofs.Typed.WellTyped
import Mathlib.Tactic.ByContra
import Mathlib.Tactic.SplitIfs

namespace BasicCompiler

open Option

theorem Ty.eq_user {ty : Ty} {id : UserTypeId} (h : ty.user? = some id) : ty = .user id := by
  cases ty <;> simp_all [Ty.user?]

theorem Ty.eq_arrayOf {ty elem : Ty} (h : ty.element? = some elem) : ty = .arrayOf elem := by
  cases ty <;> simp_all [Ty.element?]

theorem UserType.getElem?_of_member? {t : UserType} {name : String} (found : t.member? name = some (index, m)) :
    t.members[index]? = some m := by
  unfold member? at found
  split at found
  · obtain ⟨m', atIndex, same⟩ := map_eq_some_iff.mp found
    cases same
    exact atIndex
  · cases found

/-! ## Conversions -/

section

variable (source target : BuiltinType)
include source target

theorem BuiltinType.numericConversion_ne : numericConversion source target ≠ .none := by
  unfold numericConversion
  split_ifs <;> decide

theorem BuiltinType.pointerConversion_ne : pointerConversion source target ≠ .none := by
  unfold pointerConversion
  split <;> decide

theorem BuiltinType.simdConversion_ne : simdConversion source target ≠ .none := by
  unfold simdConversion
  split_ifs
  · decide
  · decide
  · exact numericConversion_ne _ _

end

theorem BuiltinType.conversion_ne {source target : BuiltinType} (ne : source ≠ target)
    (mode : ConversionMode) : source.conversion target mode ≠ .none := by
  unfold conversion
  rw [if_neg ne]
  split_ifs
  · exact pointerConversion_ne source target
  all_goals try simp
  split
  · simp
  · simp
  · exact simdConversion_ne source target
  · exact numericConversion_ne source target

theorem Ty.eq_of_conversion_none {source target : Ty} (h : source.conversion target mode = .none) :
    source = target := by
  by_contra ne
  unfold conversion at h
  rw [if_neg ne] at h
  split at h
  · cases h
  · split at h
    · cases h
    · next ne => exact BuiltinType.conversion_ne ne mode h
  · cases h

/-! ## Overloads -/

/-- The bindings are those of the overload that has the number. -/
def Resolution.Fits (overloads : List Overload) (args : List Argument) (r : Resolution) : Prop :=
  ∃ o, overloads[r.index]? = some o ∧ o.match? args = some r.bindings

theorem resolveFrom_fits (rest : all.drop index = overloads) (fits : ∀ b, best = some b → b.Fits all args)
    (resolved : resolveFrom args index best overloads = some r) : r.Fits all args := by
  induction overloads generalizing index best with
  | nil => exact fits r resolved
  | cons o overloads ih =>
    have here : all[index]? = some o := by
      rw [← List.head?_drop, rest, List.head?_cons]
    have next : all.drop (index + 1) = overloads := by
      rw [← List.tail_drop, rest, List.tail_cons]
    refine ih next (fun b chosen => ?_) resolved
    split at chosen
    · exact fits b chosen
    · next bindings _ matched =>
      cases chosen
      exact ⟨o, here, matched⟩
    · next bindings b' _ matched =>
      split at chosen
      · cases chosen
        exact ⟨o, here, matched⟩
      · exact fits b chosen

theorem resolve_fits (resolved : resolve overloads args = some r) : r.Fits overloads args :=
  resolveFrom_fits List.drop_zero (by simp) resolved

namespace Typed

variable {e : Expr}

/-! ## Values -/

theorem convertTo_wellTyped (h : e.WellTyped w) (valid : (e.ty.conversion target mode).isValid = true) :
    (convertTo e target (e.ty.conversion target mode)).WellTypedAs w target := by
  unfold convertTo
  split
  · next none => exact ⟨h, Ty.eq_of_conversion_none none⟩
  · next changes => exact ⟨⟨h, changes, valid, mode, rfl⟩, rfl⟩

theorem coerce_wellTyped (h : e.WellTyped w) (coerced : coerce types e target mode = .ok e') :
    e'.WellTypedAs w target := by
  unfold coerce at coerced
  dsimp only at coerced
  split at coerced
  · next valid =>
    cases coerced
    exact convertTo_wellTyped h valid
  · cases coerced

theorem coerceIndex_wellTyped (h : e.WellTyped w) (coerced : coerceIndex types fault e = .ok e') :
    e'.WellTypedAs w .int32 := by
  unfold coerceIndex at coerced
  split at coerced
  · exact coerce_wellTyped h coerced
  · cases coerced

theorem coerceAll_wellTyped (h : ∀ e ∈ args, e.WellTyped w) (coerced : coerceAll types target mode args = .ok parts) :
    parts.length = args.length ∧ Expr.WellTypedAll w target parts := by
  induction args generalizing parts with
  | nil =>
    cases coerced
    exact ⟨rfl, trivial⟩
  | cons e rest ih =>
    obtain ⟨first, coercedFirst, coerced⟩ := bind_ok_iff.mp coerced
    obtain ⟨others, coercedOthers, made⟩ := bind_ok_iff.mp coerced
    cases made
    have typedFirst := coerce_wellTyped (h e (by simp)) coercedFirst
    obtain ⟨length, typedOthers⟩ := ih (fun e mem => h e (by simp [mem])) coercedOthers
    exact ⟨by simp [length], typedFirst.1, typedFirst.2, typedOthers⟩

theorem intLiteralType_isInteger (value : UInt64) : (intLiteralType value).isInteger = true ∧
    intLiteralType value ≠ .bool := by
  unfold intLiteralType
  split_ifs <;> decide

theorem uintLiteralType_isInteger (value : UInt64) : (uintLiteralType value).isInteger = true ∧
    uintLiteralType value ≠ .bool := by
  unfold uintLiteralType
  split_ifs <;> decide

theorem typeLiteral_wellTyped (span : Span) (value : SourceLiteral) : (typeLiteral span value).WellTyped w := by
  unfold typeLiteral
  split
  · rfl
  · next value =>
    obtain ⟨isInteger, ne⟩ := intLiteralType_isInteger value
    exact ⟨isInteger, fun same => ne (Ty.builtin.inj same)⟩
  · next value =>
    obtain ⟨isInteger, ne⟩ := uintLiteralType_isInteger value
    exact ⟨isInteger, fun same => ne (Ty.builtin.inj same)⟩
  · exact ⟨.float32, rfl, rfl⟩
  · exact ⟨.float64, rfl, rfl⟩
  · rfl

theorem withSpan_wellTyped (h : e.WellTyped w) (span : Span) :
    (e.withSpan span).WellTyped w ∧ (e.withSpan span).ty = e.ty := by
  cases e <;> exact ⟨h, rfl⟩

/-! ## Parts of values -/

theorem exists_of_mem_mapM {α β : Type} {f : α → Option β} {as : List α} {bs : List β}
    (mapped : as.mapM f = some bs) {b : β} (mem : b ∈ bs) : ∃ a ∈ as, f a = some b := by
  induction as generalizing bs with
  | nil =>
    cases mapped
    cases mem
  | cons a as ih =>
    simp only [List.mapM_cons, bind_eq_bind, bind_eq_some_iff] at mapped
    obtain ⟨first, here, others, there, made⟩ := mapped
    cases made
    rcases List.mem_cons.mp mem with rfl | mem
    · exact ⟨a, by simp, here⟩
    · obtain ⟨a', inside, same⟩ := ih there mem
      exact ⟨a', by simp [inside], same⟩

theorem swizzleAxes?_lt {name : String} {cols : Nat} {axes : List Nat}
    (read : swizzleAxes? name cols = some axes) : ∀ axis ∈ axes, axis < cols := by
  unfold swizzleAxes? at read
  dsimp only at read
  split at read
  · cases read
  · split at read
    · cases read
    · intro axis mem
      obtain ⟨c, -, named⟩ := exists_of_mem_mapM read mem
      exact of_decide_eq_true (filter_eq_some_iff.mp named).2

theorem typeMember_wellTyped {name : Ident} (h : base.WellTyped w)
    (typed : typeMember w.types base name span = .ok e) : e.WellTyped w := by
  unfold typeMember at typed
  split at typed
  · next id isUser =>
    split at typed
    · next place m found =>
      cases typed
      refine ⟨h, id, m, ?_, ?_, rfl⟩
      · exact Ty.eq_user isUser
      · exact UserType.getElem?_of_member? found
    · cases typed
  · split at typed
    · next t isVector =>
      unfold typeSwizzle at typed
      split at typed
      · cases typed
      · next axes read =>
        split at typed
        · next r ofLength =>
          cases typed
          exact ⟨h, t, r, isVector, swizzleAxes?_lt read, ofLength, rfl⟩
        · cases typed
    · cases typed

theorem elementType_ok (typed : elementType types base = .ok elem) : base.ty = .arrayOf elem := by
  unfold elementType at typed
  split at typed
  · next found =>
    cases typed
    exact Ty.eq_arrayOf found
  · cases typed

theorem reread_wellTyped (h : e.WellTyped w) : e.reread.WellTyped (w.assigning e) ∧ e.reread.ty = e.ty := by
  cases e with
  | swizzle info base axes => exact ⟨⟨rfl, h.2⟩, rfl⟩
  | _ => exact ⟨rfl, rfl⟩

/-! ## Operators -/

theorem typeUnary_wellTyped (h : e.WellTyped w) (typed : typeUnary types op e span = .ok e') : e'.WellTyped w := by
  unfold typeUnary at typed
  split at typed
  · cases typed
  · next allowed =>
    split at typed
    · next isNot =>
      obtain ⟨operand, coerced, made⟩ := bind_ok_iff.mp typed
      cases made
      obtain ⟨typedOperand, bool⟩ := coerce_wellTyped h coerced
      refine ⟨typedOperand, ⟨?_, fun _ => bool⟩, rfl⟩
      rw [isNot]
      rfl
    · next isNot =>
      cases typed
      exact ⟨h, ⟨by simpa using allowed, fun same => absurd same isNot⟩, rfl⟩

theorem typeBinary_wellTyped (hl : left.WellTyped w) (hr : right.WellTyped w)
    (typed : typeBinary types op left right span = .ok e) : e.WellTyped w := by
  -- both forms convert the operands to one type and differ in what that type is
  have both {common result : Ty} (between : Between op.node common result)
      (typed : (do
        let left ← coerce types left common .implicit
        let right ← coerce types right common .implicit
        return Expr.binary ⟨result, span⟩ op.node left right) = Except.ok e) : e.WellTyped w := by
    obtain ⟨left', coercedLeft, typed⟩ := bind_ok_iff.mp typed
    obtain ⟨right', coercedRight, made⟩ := bind_ok_iff.mp typed
    cases made
    obtain ⟨typedLeft, atLeft⟩ := coerce_wellTyped hl coercedLeft
    obtain ⟨typedRight, atRight⟩ := coerce_wellTyped hr coercedRight
    refine ⟨typedLeft, typedRight, atLeft.trans atRight.symm, ?_⟩
    rw [atLeft]
    exact between
  unfold typeBinary at typed
  split at typed
  · next logical => exact both (by simp [Between, logical]) typed
  · next logical =>
    split at typed
    · cases typed
    · next t promoted =>
      have allowed : operandsAllowed op.node t = true := (filter_eq_some_iff.mp promoted).2
      exact both (by simp [Between, logical, allowed]) typed

/-! ## Calls -/

theorem typeConstruct_wellTyped (h : ∀ e ∈ args, e.WellTyped w) (typed : typeConstruct types t callee args span = .ok e) :
    e.WellTyped w := by
  unfold typeConstruct at typed
  dsimp only at typed
  split at typed
  · next vector =>
    simp only [Bool.and_eq_true, decide_eq_true_eq] at vector
    obtain ⟨parts, coerced, made⟩ := bind_ok_iff.mp typed
    cases made
    obtain ⟨length, typedParts⟩ := coerceAll_wellTyped h coerced
    exact ⟨t, rfl, vector.1.1, length.trans vector.1.2, typedParts⟩
  · split at typed
    · next arg _ =>
      obtain ⟨e', coerced, made⟩ := bind_ok_iff.mp typed
      cases made
      exact (withSpan_wellTyped (coerce_wellTyped (h arg (by simp)) coerced).1 span).1
    · cases typed

theorem passArgument_wellTyped (h : e.WellTyped w) (atIndex : params[index]? = some p)
    (accepted : p.accept? e.asArgument = some c) : (passArgument params e ⟨index, c⟩).WellTyped w p := by
  unfold passArgument
  rw [atIndex]
  unfold Param.accept? at accepted
  dsimp only
  split at accepted
  · next byRef =>
    rw [if_pos byRef]
    split at accepted
    · next isPlace =>
      obtain ⟨isLvalue, same⟩ := (Bool.and_eq_true _ _).mp isPlace
      exact ⟨byRef, h, isLvalue, of_decide_eq_true same⟩
    · cases accepted
  · next byRef =>
    rw [if_neg byRef]
    dsimp only [Expr.asArgument] at accepted
    split at accepted
    · next valid =>
      cases accepted
      obtain ⟨typed, atParam⟩ := convertTo_wellTyped h valid
      exact ⟨by simpa using byRef, typed, atParam⟩
    · cases accepted

theorem passArguments_wellTyped (h : ∀ e ∈ args, e.WellTyped w) (starts : params.drop index = rest)
    (bound : bindFrom index rest (args.map Expr.asArgument) = some bindings) :
    (passArguments params args bindings).length = args.length ∧
      Arg.WellTypedAll w rest (passArguments params args bindings) := by
  induction args generalizing index rest bindings with
  | nil =>
    cases bound
    exact ⟨rfl, trivial⟩
  | cons e args ih =>
    cases rest with
    | nil => cases bound
    | cons p ps =>
      simp only [List.map_cons, bindFrom, bind_eq_bind, bind_eq_some_iff] at bound
      obtain ⟨c, accepted, bound⟩ := bound
      have atIndex : params[index]? = some p := by
        rw [← List.head?_drop, starts, List.head?_cons]
      have next : params.drop (index + 1) = ps := by
        rw [← List.tail_drop, starts, List.tail_cons]
      have first := passArgument_wellTyped (h e (by simp)) atIndex accepted
      have restTyped : ∀ e ∈ args, e.WellTyped w := fun e mem => h e (by simp [mem])
      split at bound
      · next repeated =>
        obtain ⟨others, boundOthers, made⟩ := bind_eq_some_iff.mp bound
        cases made
        obtain ⟨length, typedOthers⟩ := ih restTyped starts boundOthers
        refine ⟨congrArg (· + 1) length, first, ?_⟩
        rw [if_pos repeated]
        exact typedOthers
      · next repeated =>
        obtain ⟨others, boundOthers, made⟩ := bind_eq_some_iff.mp bound
        cases made
        obtain ⟨length, typedOthers⟩ := ih restTyped next boundOthers
        refine ⟨congrArg (· + 1) length, first, ?_⟩
        rw [if_neg repeated]
        exact typedOthers

theorem resolveCall_wellTyped (h : ∀ e ∈ args, e.WellTyped w)
    (resolved : resolveCall types callee overloads args span = .ok (o, passed)) :
    o ∈ overloads ∧ acceptsArity o.params passed.length = true ∧ Arg.WellTypedAll w o.params passed := by
  unfold resolveCall at resolved
  dsimp only at resolved
  split at resolved
  · next chosen =>
    cases resolved
    simp only [bind_eq_bind, bind_eq_some_iff] at chosen
    obtain ⟨r, found, o', atIndex, made⟩ := chosen
    cases made
    obtain ⟨o', atIndex', matched⟩ := resolve_fits found
    obtain rfl : o = o' := Option.some.inj (atIndex.symm.trans atIndex')
    unfold Overload.match? at matched
    split at matched
    · next accepts =>
      obtain ⟨length, typed⟩ := passArguments_wellTyped h List.drop_zero matched
      refine ⟨List.mem_of_getElem? atIndex, ?_, typed⟩
      rw [length]
      simpa using accepts
    · cases matched
  · cases resolved

end Typed

end BasicCompiler
