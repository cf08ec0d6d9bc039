/-
# Integers are computed as they should be

A number of an integer type is kept in the range of its format, and written in as many bits. `evaluate` computes an
expression with numbers. The code of the expression computes the same with words: run on registers and slots that hold
the bits of the variables, it leaves the bits of the value (`expr_computes`).
-/
import BasicCompiler.Proofs.Ir.Words
import BasicCompiler.Proofs.Lowering.Run
import BasicCompiler.Proofs.Typed.WellTyped
import Mathlib.Algebra.Group.Int.Defs
import Mathlib.Algebra.Group.Nat.Defs

namespace BasicCompiler

/-! ## Numbers in bits -/

/-- How the numbers of an integer type are written. -/
structure Format where
  width : Nat
  signed : Bool

namespace Format

variable {f : Format}

/-- The number of the format that differs from `x` by a multiple of `2 ^ width`. -/
def wrap (f : Format) (x : Int) : Int := if f.signed then x.bmod (2 ^ f.width) else x % (2 ^ f.width : Nat)

def read (f : Format) (a : BitVec f.width) : Int := if f.signed then a.toInt else a.toNat

/-- The bits of a number. -/
def word (f : Format) (x : Int) : Ir.Word := ⟨f.width, .ofInt _ x⟩

theorem read_ofInt (x : Int) : f.read (.ofInt _ x) = f.wrap x := by
  unfold read wrap
  split
  · exact BitVec.toInt_ofInt x
  · rw [BitVec.toNat_ofInt]
    exact Int.toNat_of_nonneg (Int.emod_nonneg _ (Int.natCast_ne_zero.mpr (Nat.ne_of_gt (Nat.two_pow_pos _))))

theorem ofInt_read (a : BitVec f.width) : BitVec.ofInt f.width (f.read a) = a := by
  unfold read
  split
  · exact BitVec.ofInt_toInt
  · rw [BitVec.ofInt_natCast, BitVec.ofNat_toNat, BitVec.setWidth_eq]

theorem ofInt_read_of_unsigned (plain : f.signed = false) (a : BitVec f.width) :
    BitVec.ofInt v (f.read a) = a.setWidth v := by
  rw [read, plain, if_neg Bool.false_ne_true, BitVec.ofInt_natCast, BitVec.ofNat_toNat]

theorem ofInt_read_of_le (narrower : v ≤ f.width) (a : BitVec f.width) : BitVec.ofInt v (f.read a) = a.setWidth v := by
  cases sign : f.signed with
  | true =>
    apply BitVec.eq_of_toInt_eq
    rw [read, if_pos sign, BitVec.toInt_ofInt, BitVec.toInt_setWidth, BitVec.toInt_eq_toNat_bmod]
    exact Int.bmod_bmod_of_dvd (Nat.pow_dvd_pow 2 narrower)
  | false => exact ofInt_read_of_unsigned sign a

theorem read_inj : f.read a = f.read b ↔ a = b :=
  ⟨fun same => by rw [← ofInt_read a, same, ofInt_read], fun same => by rw [same]⟩

theorem read_eq_zero : f.read a = 0 ↔ a = 0 := by
  have zero : f.read 0 = 0 := by
    unfold read
    split <;> simp
  rw [← zero, read_inj]

theorem wrap_read (a : BitVec f.width) : f.wrap (f.read a) = f.read a := by
  rw [← read_ofInt, ofInt_read]

theorem word_read (a : BitVec f.width) : f.word (f.read a) = ⟨f.width, a⟩ := by
  rw [word, ofInt_read]

theorem toNat_of_read (nonneg : 0 ≤ f.read b) : (f.read b).toNat = b.toNat := by
  obtain ⟨w, signed⟩ := f
  cases signed with
  | true =>
    change 0 ≤ b.toInt at nonneg
    change b.toInt.toNat = b.toNat
    have below := b.isLt
    rw [BitVec.toInt_eq_toNat_cond] at nonneg ⊢
    split at nonneg <;> omega
  | false => exact Int.toNat_natCast _

/-! ## Operators -/

def unary (f : Format) (op : UnaryOp) (x : Int) : Int :=
  match op with
  | .neg => f.wrap (-x)
  | .bitNot => f.wrap (-x - 1)
  | .not => if x = 0 then 1 else 0

/-- What an operator gives: nothing for a division by zero or one that leaves the range,
and for a shift that is not below the width. -/
def binary? (f : Format) (op : BinaryOp) (x y : Int) : Option Int :=
  match op with
  | .add => some (f.wrap (x + y))
  | .sub => some (f.wrap (x - y))
  | .mul => some (f.wrap (x * y))
  | .div => if y = 0 ∨ f.wrap (x.tdiv y) ≠ x.tdiv y then none else some (x.tdiv y)
  | .mod => if y = 0 ∨ f.wrap (x.tdiv y) ≠ x.tdiv y then none else some (x.tmod y)
  | .bitAnd | .and => some (f.read (.ofInt _ x &&& .ofInt _ y))
  | .bitOr | .or => some (f.read (.ofInt _ x ||| .ofInt _ y))
  | .bitXor | .xor => some (f.read (.ofInt _ x ^^^ .ofInt _ y))
  | .shl => if 0 ≤ y ∧ y < f.width then some (f.wrap (x * 2 ^ y.toNat)) else none
  | .shr => if 0 ≤ y ∧ y < f.width then some (x / 2 ^ y.toNat) else none
  | .eq => some (if x = y then 1 else 0)
  | .ne => some (if x ≠ y then 1 else 0)
  | .lt => some (if x < y then 1 else 0)
  | .gt => some (if y < x then 1 else 0)
  | .le => some (if x ≤ y then 1 else 0)
  | .ge => some (if y ≤ x then 1 else 0)
  | .pow => none

open Lowering Option

theorem unary_apply (truth : op = .not → f = ⟨1, false⟩) (a : BitVec f.width) :
    ∃ c, (if op = .neg then Ir.UnaryOpcode.neg else .not).apply a = some c ∧
      f.read c = f.unary op (f.read a) := by
  cases op with
  | neg =>
    refine ⟨_, rfl, ?_⟩
    change _ = f.wrap _
    rw [← read_ofInt, BitVec.ofInt_neg, ofInt_read]
  | bitNot =>
    refine ⟨_, rfl, ?_⟩
    change _ = f.wrap _
    rw [← read_ofInt, Int.sub_eq_add_neg, BitVec.ofInt_add, BitVec.ofInt_neg, ofInt_read, BitVec.neg_eq_not_add,
      BitVec.ofInt_neg, BitVec.add_assoc, ← BitVec.sub_eq_add_neg]
    simp
  | not =>
    cases truth rfl
    refine ⟨_, rfl, ?_⟩
    revert a
    decide

theorem divides (fits : ¬(f.read b = 0 ∨ f.wrap ((f.read a).tdiv (f.read b)) ≠ (f.read a).tdiv (f.read b))) :
    (∃ c, (intOpcode .div f.signed).apply a b = some c ∧ f.read c = (f.read a).tdiv (f.read b)) ∧
      ∃ c, (intOpcode .mod f.signed).apply a b = some c ∧ f.read c = (f.read a).tmod (f.read b) := by
  obtain ⟨w, signed⟩ := f
  obtain ⟨nonzero, inRange⟩ := not_or.mp fits
  replace inRange := Decidable.of_not_not inRange
  have divisor : b ≠ 0 := by
    rintro rfl
    exact nonzero (by cases signed <;> simp [read])
  cases signed with
  | true =>
    have exactly : (a.sdiv b).toInt = a.toInt.tdiv b.toInt := (BitVec.toInt_sdiv a b).trans inRange
    have guard : ¬(b = 0 ∨ (a.sdiv b).toInt ≠ a.toInt.tdiv b.toInt) := by
      rintro (zero | outside)
      · exact divisor zero
      · exact outside exactly
    exact ⟨⟨_, if_neg guard, exactly⟩, _, if_neg guard, BitVec.toInt_srem a b⟩
  | false =>
    refine ⟨⟨_, if_neg divisor, ?_⟩, _, if_neg divisor, ?_⟩
    · change ((a / b).toNat : Int) = (a.toNat : Int).tdiv b.toNat
      rw [BitVec.toNat_udiv]
      rfl
    · change ((a % b).toNat : Int) = (a.toNat : Int).tmod b.toNat
      rw [BitVec.toNat_umod]
      rfl

theorem shifts (below : 0 ≤ f.read b ∧ f.read b < f.width) :
    (∃ c, (intOpcode .shl f.signed).apply a b = some c ∧ f.read c = f.wrap (f.read a * 2 ^ (f.read b).toNat)) ∧
      ∃ c, (intOpcode .shr f.signed).apply a b = some c ∧ f.read c = f.read a / 2 ^ (f.read b).toNat := by
  have count := toNat_of_read below.1
  have small : b.toNat < f.width := by omega
  rw [count]
  constructor
  · refine ⟨_, if_pos small, ?_⟩
    have power : BitVec.ofInt f.width (2 ^ b.toNat) = BitVec.twoPow f.width b.toNat := by
      rw [show (2 : Int) ^ b.toNat = ((2 ^ b.toNat : Nat) : Int) by push_cast; rfl, BitVec.ofInt_natCast]
      exact BitVec.eq_of_toNat_eq (by rw [BitVec.toNat_ofNat, BitVec.toNat_twoPow])
    rw [← read_ofInt, BitVec.ofInt_mul, ofInt_read, power, BitVec.shiftLeft_eq_mul_twoPow]
  · obtain ⟨w, signed⟩ := f
    cases signed with
    | true =>
      refine ⟨_, if_pos small, ?_⟩
      change (a.sshiftRight b.toNat).toInt = _
      rw [BitVec.toInt_sshiftRight, Int.shiftRight_eq_div_pow]
      push_cast
      rfl
    | false =>
      refine ⟨_, if_pos small, ?_⟩
      change ((a >>> b.toNat).toNat : Int) = _
      rw [BitVec.toNat_ushiftRight, Nat.shiftRight_eq_div_pow]
      push_cast
      rfl

theorem binary_apply (plain : op.isComparison = false) (value : f.binary? op (f.read a) (f.read b) = some z) :
    ∃ c, (intOpcode op f.signed).apply a b = some c ∧ f.read c = z := by
  have arithmetic : ∀ x c, BitVec.ofInt f.width x = c → f.read c = f.wrap x := by
    rintro x c rfl
    exact read_ofInt x
  cases op with
  | add =>
    cases value
    refine ⟨_, rfl, arithmetic _ _ ?_⟩
    rw [BitVec.ofInt_add, ofInt_read, ofInt_read]
  | sub =>
    cases value
    refine ⟨_, rfl, arithmetic _ _ ?_⟩
    rw [Int.sub_eq_add_neg, BitVec.ofInt_add, BitVec.ofInt_neg, ofInt_read, ofInt_read, BitVec.sub_eq_add_neg]
  | mul =>
    cases value
    refine ⟨_, rfl, arithmetic _ _ ?_⟩
    rw [BitVec.ofInt_mul, ofInt_read, ofInt_read]
  | div =>
    obtain ⟨fits, same⟩ := ite_none_left_eq_some.mp value
    cases same
    exact (divides fits).1
  | mod =>
    obtain ⟨fits, same⟩ := ite_none_left_eq_some.mp value
    cases same
    exact (divides fits).2
  | shl =>
    obtain ⟨below, same⟩ := ite_none_right_eq_some.mp value
    cases same
    exact (shifts below).1
  | shr =>
    obtain ⟨below, same⟩ := ite_none_right_eq_some.mp value
    cases same
    exact (shifts below).2
  | bitAnd | and | bitOr | or | bitXor | xor =>
    cases value
    rw [ofInt_read, ofInt_read]
    exact ⟨_, rfl, rfl⟩
  | pow => cases value
  | eq | ne | lt | gt | le | ge => cases plain

theorem holds_predicate (compares : op.isComparison = true) (value : f.binary? op (f.read a) (f.read b) = some z) :
    z = (BitVec.ofBool ((predicate op f.signed).holds a b)).toNat := by
  have less : ∀ a b : BitVec f.width, (f.read a < f.read b ↔ (predicate .lt f.signed).holds a b = true) ∧
      (f.read a ≤ f.read b ↔ (predicate .le f.signed).holds a b = true) := by
    intro a b
    obtain ⟨w, signed⟩ := f
    cases signed with
    | true => exact ⟨BitVec.slt_iff_toInt_lt.symm, BitVec.sle_iff_toInt_le.symm⟩
    | false =>
      exact ⟨Int.ofNat_lt.trans BitVec.ult_iff_toNat_lt.symm, Int.ofNat_le.trans BitVec.ule_iff_toNat_le.symm⟩
  have truth : ∀ {p : Prop} [Decidable p] {b : Bool}, (p ↔ b = true) →
      (if p then 1 else 0 : Int) = (BitVec.ofBool b).toNat := by
    intro p _ b same
    cases b <;> simp [same]
  cases op with
  | eq =>
    cases value
    exact truth (read_inj.trans beq_iff_eq.symm)
  | ne =>
    cases value
    exact truth ((not_congr read_inj).trans bne_iff_ne.symm)
  | lt =>
    cases value
    exact truth (less a b).1
  | le =>
    cases value
    exact truth (less a b).2
  | gt =>
    cases value
    refine truth ((less b a).1.trans ?_)
    cases f.signed <;> rfl
  | ge =>
    cases value
    refine truth ((less b a).2.trans ?_)
    cases f.signed <;> rfl
  | _ => cases compares

end Format

/-! ## Types and conversions -/

/-- The format of an integer type, on a target with pointers of 64 bits. -/
def format? : Ty → Option Format
  | .builtin .bool => some ⟨1, false⟩
  | .builtin .int8 => some ⟨8, true⟩
  | .builtin .uint8 => some ⟨8, false⟩
  | .builtin .int16 => some ⟨16, true⟩
  | .builtin .uint16 => some ⟨16, false⟩
  | .builtin .int32 => some ⟨32, true⟩
  | .builtin .uint32 => some ⟨32, false⟩
  | .builtin .int64 | .builtin .intptr => some ⟨64, true⟩
  | .builtin .uint64 | .builtin .uintptr => some ⟨64, false⟩
  | _ => none

def Format.convert (f : Format) (target : Ty) (x : Int) : Int :=
  if target = .bool then if x = 0 then 0 else 1 else f.wrap x

/-- The value of an expression of integers, given that of its variables. -/
def evaluate (σ : SymbolId → Option Int) : Typed.Expr → Option Int
  | .const info (.int n) => (format? info.ty).map fun f => f.wrap n.toNat
  | .const _ (.bool b) => some (if b then 1 else 0)
  | .var _ id => σ id
  | .convert info _ e => do
      let f ← format? info.ty
      let x ← evaluate σ e
      return f.convert info.ty x
  | .unary info op e => do
      let f ← format? info.ty
      let x ← evaluate σ e
      return f.unary op x
  | .binary _ op l r => do
      let f ← format? l.ty
      let x ← evaluate σ l
      let y ← evaluate σ r
      f.binary? op x y
  | _ => none

namespace Lowering

variable {types : TypeTable} {ty : Ty} {f : Format}

/-- What the lowering knows of integer types. -/
structure IsInteger (types : TypeTable) (ty : Ty) (f : Format) : Prop where
  noString : ty.isString = false
  noFloat : ty.isFloat = false
  sign : ty.isSigned = f.signed
  bits : (irType types ty).intBits = f.width
  /-- Types as wide as each other are the same. -/
  type : irType types ty = if f.width = 1 then .bool else if f.width = 8 then .i8 else if f.width = 16 then .i16
    else if f.width = 32 then .i32 else .i64
  wide : f.signed = true → 1 < f.width
  narrow : f.width ≤ 64
  scalar : (irType types ty).scalar.isFloat = false

theorem isInteger (wide : types.pointer = .bits64) (isFormat : format? ty = some f) : IsInteger types ty f := by
  obtain ⟨t, rfl⟩ : ∃ t, ty = .builtin t := by
    cases ty with
    | builtin t => exact ⟨t, rfl⟩
    | _ => cases isFormat
  have type : irType types (.builtin t) = builtinType .bits64 t := by
    rw [irType, irTypeWithin, wide]
  cases t <;> cases isFormat <;> exact ⟨rfl, rfl, rfl, by rw [type]; rfl, by rw [type]; rfl, by decide, by decide, by rw [type]; rfl⟩

theorem conversion_cases (isSource : format? source = some f) (isTarget : format? target = some g)
    (converts : Typed.Converts conversion source target) :
    if target = .bool then conversion = .toBool
    else conversion = .reinterpret ∧ f.width = g.width ∨ (conversion = .extend ∨ conversion = .truncate) := by
  obtain ⟨proper, -, mode, rfl⟩ := converts
  cases source with
  | builtin s =>
    cases target with
    | builtin t =>
      cases s <;> cases isSource <;> cases t <;> cases isTarget <;> cases mode <;> revert proper <;> decide
    | _ => cases isTarget
  | _ => cases isSource

/-! ## Code that computes a word -/

variable {memory regs : Ir.Words} {env : Env} {s : LowerState} {x : Ir.Word}

/-- From `s` a piece of the lowering adds instructions, and its register holds `x` once
they were run. What was in registers before stays there. -/
def Computes (memory regs : Ir.Words) (env : Env) (s : LowerState) (m : Lower Ir.Reg) (x : Ir.Word) : Prop :=
  ∃ r ops regs', m env s = .ok (r, s.edit (·.emitAll ops)) ∧
    Ir.runOps memory ops s.builder.nextReg regs = some regs' ∧ regs' r = some x ∧
    r < s.builder.nextReg + ops.length ∧ ∀ q < s.builder.nextReg, regs' q = regs q

namespace Computes

theorem congr (h : Computes memory regs env s m' x) (same : m env s = m' env s) : Computes memory regs env s m x := by
  unfold Computes
  rwa [same]

theorem pure (held : regs r = some x) (below : r < s.builder.nextReg) : Computes memory regs env s (Pure.pure r) x :=
  ⟨r, [], regs, rfl, rfl, held, below, fun _ _ => rfl⟩

theorem emit (word : op.word? memory regs = some x) : Computes memory regs env s (Lower.emit op) x := by
  refine ⟨s.builder.nextReg, [op], regs.set s.builder.nextReg x, rfl, ?_, if_pos rfl, Nat.lt_succ_self _,
    fun q below => if_neg (Nat.ne_of_lt below)⟩
  rw [Ir.runOps, word]
  rfl

theorem bind {f : Ir.Reg → Lower Ir.Reg} (first : Computes memory regs env s m x)
    (second : ∀ r s1 regs1, regs1 r = some x → r < s1.builder.nextReg → (∀ q < s.builder.nextReg, q < s1.builder.nextReg ∧ regs1 q = regs q) → Computes memory regs1 env s1 (f r) y) :
    Computes memory regs env s (m >>= f) y := by
  obtain ⟨r, ops, regs1, run, exec, held, below, kept⟩ := first
  have next := s.builder.emitAll_nextReg ops
  obtain ⟨r', ops', regs2, run', exec', held', below', kept'⟩ :=
    second r (s.edit (·.emitAll ops)) regs1 held (by rw [LowerState.edit_builder, next]; exact below) fun q old =>
      ⟨by rw [LowerState.edit_builder, next]; exact Nat.lt_add_right _ old, kept q old⟩
  rw [LowerState.edit_builder, next] at exec' below' kept'
  refine ⟨r', ops ++ ops', regs2, ?_, ?_, held', ?_, fun q old => ?_⟩
  · refine Lower.bind_ok.mpr ⟨r, _, run, run'.trans ?_⟩
    rw [LowerState.edit, LowerState.edit, LowerState.edit, Ir.Builder.emitAll, Ir.Builder.emitAll,
      Ir.Builder.emitAll, List.foldl_append]
  · rw [Ir.runOps_append exec, exec']
  · rw [List.length_append, ← Nat.add_assoc]
    exact below'
  · rw [kept' q (Nat.lt_add_right _ old), kept q old]

/-! ## Conversions -/

variable {target : Ty} {r : Ir.Reg}

theorem toTruth (isSource : IsInteger env.program.types source f) (held : regs r = some ⟨f.width, a⟩)
    (below : r < s.builder.nextReg) : Computes memory regs env s (Lower.toTruth r source) ⟨1, .ofBool (a != 0)⟩ := by
  have nought : (Ir.Op.const .zero (irType env.program.types source)).word? memory regs = some ⟨f.width, 0⟩ := by
    rw [Ir.Op.word?, isSource.bits]
  have code : Computes memory regs env s (Lower.constZero (irType env.program.types source) >>= fun nought =>
      Lower.emit (.icmp .ne r nought)) ⟨1, .ofBool (a != 0)⟩ := by
    refine bind (emit nought) fun z s1 regs1 zero _ kept => emit (Ir.word_icmp .ne ?_ zero)
    rw [(kept r below).2]
    exact held
  refine code.congr ?_
  unfold Lower.toTruth
  rw [isSource.noFloat]
  rfl

theorem resize (isSource : IsInteger env.program.types source f) (isTarget : IsInteger env.program.types target g)
    (held : regs r = some ⟨f.width, a⟩) (below : r < s.builder.nextReg) :
    Computes memory regs env s (Lower.castWith
      (resizeCast? (irType env.program.types source) (irType env.program.types target) source.isSigned) r
      (irType env.program.types target)) ⟨g.width, .ofInt _ (f.read a)⟩ := by
  have bits := isSource.bits
  have bits' := isTarget.bits
  have cast : ∀ kind : Ir.Cast, kind.apply a g.width = some (.ofInt _ (f.read a)) →
      Computes memory regs env s (Lower.emit (.cast kind r (irType env.program.types target)))
        ⟨g.width, .ofInt _ (f.read a)⟩ := by
    intro kind applied
    refine emit ((Ir.word_cast kind _ held).trans ?_)
    rw [bits', applied]
    rfl
  unfold resizeCast?
  split
  next same =>
    have width : f.width = g.width := by rw [← bits, ← bits', same]
    have word : (⟨g.width, .ofInt _ (f.read a)⟩ : Ir.Word) = ⟨f.width, a⟩ := by
      rw [← width]
      exact Format.word_read a
    rw [word]
    exact pure held below
  next other =>
    have width : f.width ≠ g.width := by
      intro same
      rw [isSource.type, isTarget.type, same] at other
      exact other rfl
    rw [isSource.scalar, isSource.sign, bits, bits']
    split
    next impossible => cases impossible
    next =>
      split
      next narrower => exact cast .trunc ((if_pos narrower).trans (by rw [Format.ofInt_read_of_le (Nat.le_of_lt narrower)]))
      next wider =>
        have less : f.width < g.width := by omega
        cases sign : f.signed with
        | true =>
          rw [Bool.true_and, if_pos (decide_eq_true (isSource.wide sign))]
          exact cast .sext ((if_pos less).trans (by rw [Format.read, if_pos sign]; rfl))
        | false => exact cast .zext ((if_pos less).trans (by rw [Format.ofInt_read_of_unsigned sign]))

theorem convert (wide : env.program.types.pointer = .bits64) (isSource : format? source = some f)
    (isTarget : format? target = some g) (converts : Typed.Converts conversion source target) (a : BitVec f.width)
    (span : Span) :
    ∃ b : BitVec g.width, g.read b = g.convert target (f.read a) ∧
      ∀ regs s r, regs r = some ⟨f.width, a⟩ → r < s.builder.nextReg →
        Computes memory regs env s (Lower.convert conversion r source target span) ⟨g.width, b⟩ := by
  have known := isInteger wide isSource
  have kinds := conversion_cases isSource isTarget converts
  unfold Format.convert
  split at kinds
  next truth =>
    subst truth kinds
    cases isTarget
    refine ⟨.ofBool (a != 0), ?_, fun regs s r held below => (toTruth known held below).congr rfl⟩
    rw [if_pos rfl]
    by_cases zero : a = 0
    · rw [if_pos (Format.read_eq_zero.mpr zero), zero]
      simp [Format.read]
    · rw [if_neg (mt Format.read_eq_zero.mp zero), bne_iff_ne.mpr zero]
      rfl
  next number =>
    rw [if_neg number]
    refine ⟨_, Format.read_ofInt _, fun regs s r held below => ?_⟩
    have code : Computes memory regs env s _ _ := resize known (isInteger wide isTarget) held below
    rcases kinds with ⟨rfl, width⟩ | rfl | rfl
    · have same : irType env.program.types source = irType env.program.types target := by
        rw [known.type, (isInteger wide isTarget).type, width]
      have kept : reinterpretCast? (irType env.program.types source) (irType env.program.types target) =
          resizeCast? (irType env.program.types source) (irType env.program.types target) source.isSigned := by
        rw [same, resizeCast?, if_pos rfl, reinterpretCast?]
        cases (irType env.program.types target).isPtr <;> exact if_pos rfl
      refine code.congr ?_
      rw [← kept]
      rfl
    all_goals
      refine code.congr ?_
      have numeric : numericCast? env.program.types source target = resizeCast? (irType env.program.types source)
          (irType env.program.types target) source.isSigned := by
        rw [numericCast?, known.noFloat, (isInteger wide isTarget).noFloat]
      rw [← numeric]
      rfl

end Computes

/-! ## Expressions -/

/-- Slots hold the bits of variables. -/
def Mirrors (w : Typed.Outlook) (env : Env) (memory : Ir.Words) (σ : SymbolId → Option Int) : Prop :=
  ∀ id x, σ id = some x → ∃ v f slot, w.sees? id = some v ∧ format? v.type = some f ∧ f.wrap x = x ∧
    env.slots.lookup id = some slot ∧ memory slot = some (f.word x)

variable {w : Typed.Outlook} {σ : SymbolId → Option Int}

section

variable (known : IsInteger types ty f)
include known

theorem unary_emits (op : UnaryOp) (r : Ir.Reg) :
    Lower.unary op r ty = Lower.emit (.unary (if op = .neg then .neg else .not) r) := by
  unfold Lower.unary
  rw [known.noFloat]
  cases op <;> rfl

theorem binary_compares (compares : op.isComparison = true) (l r : Ir.Reg) :
    Lower.binary op l r ty = Lower.emit (.icmp (predicate op f.signed) l r) := by
  rw [Lower.binary, if_pos compares, Lower.compare, known.noString, known.noFloat, known.sign]
  rfl

theorem binary_emits (plain : op.isComparison = false) (noPower : op ≠ .pow)
    (l r : Ir.Reg) : Lower.binary op l r ty = Lower.emit (.binary (intOpcode op f.signed) l r) := by
  rw [Lower.binary, plain, known.noString, if_neg noPower, opcode, known.noFloat, known.sign]
  rfl

end

theorem between_comparison (between : Typed.Between op operand result) (compares : op.isComparison = true) :
    result = .bool := by
  unfold Typed.Between at between
  split at between <;> exact between.2

theorem between_plain (between : Typed.Between op operand result) (plain : op.isComparison = false) :
    result = operand := by
  unfold Typed.Between at between
  split at between
  · rw [between.1, between.2]
  · rw [between.2, plain]
    rfl

open Computes in
theorem computes_bits (wide : env.program.types.pointer = .bits64) (mirrors : Mirrors w env memory σ)
    (typed : e.WellTyped w) {x : Int} (value : evaluate σ e = some x) :
    ∃ f, format? e.ty = some f ∧ ∃ a : BitVec f.width, f.read a = x ∧
      ∀ regs s, Computes memory regs env s (Lower.expr .value e) ⟨f.width, a⟩ := by
  cases e with
  | const info c =>
    cases c with
    | int n =>
      obtain ⟨f, isFormat, rfl⟩ := Option.map_eq_some_iff.mp value
      have known := isInteger wide isFormat
      have same : BitVec.ofInt f.width n.toInt64.toInt = .ofInt _ n.toNat :=
        (Format.ofInt_read_of_le (f := ⟨64, true⟩) known.narrow n.toBitVec).trans
          (Format.ofInt_read_of_unsigned (f := ⟨64, false⟩) rfl n.toBitVec).symm
      refine ⟨f, isFormat, .ofInt _ n.toInt64.toInt, ?_, fun regs s => ?_⟩
      · rw [same, Format.read_ofInt]
      · unfold Lower.expr
        refine (emit ?_ : Computes memory regs env s (Lower.constInt n.toInt64 _) _).congr rfl
        rw [Ir.Op.word?, known.bits]
    | bool b =>
      cases value
      have isBool : info.ty = .bool := typed
      refine ⟨⟨1, false⟩, by rw [Typed.Expr.ty, Typed.Expr.info, isBool]; rfl, .ofBool b, by cases b <;> rfl, fun regs s => ?_⟩
      unfold Lower.expr
      exact (emit rfl : Computes memory regs env s (Lower.emit (.const (.bool b) .bool)) _).congr rfl
    | float _ | str _ => cases value
  | var info id =>
    obtain ⟨v, f, slot, seen, isFormat, inRange, found, stored⟩ := mirrors id x value
    obtain ⟨v', seen', isType⟩ := typed
    obtain rfl := Option.some.inj (seen.symm.trans seen')
    have known := isInteger wide isFormat
    refine ⟨f, by rw [Typed.Expr.ty, Typed.Expr.info, isType]; exact isFormat, .ofInt _ x,
      (Format.read_ofInt x).trans inRange, fun regs s => ?_⟩
    have address : Lower.varAddress id env s = .ok (slot, s) := by
      unfold Lower.varAddress
      refine Lower.bind_ok.mpr ⟨env, s, rfl, ?_⟩
      rw [found]
      rfl
    have load : (Ir.Op.load slot (irType env.program.types info.ty)).word? memory regs = some (f.word x) := by
      rw [Ir.Op.word?, stored, isType, known.bits]
      exact Option.filter_some_pos (decide_eq_true rfl)
    refine (emit load).congr ?_
    unfold Lower.expr
    change (Lower.varAddress id env s >>= fun p => Lower.fromPlace .value info p.1 env p.2) = _
    rw [address]
    rfl
  | unary info op e =>
    obtain ⟨typed, before, same⟩ := typed
    obtain ⟨g, isFormat, value⟩ := Option.bind_eq_some_iff.mp value
    obtain ⟨y, operand, result⟩ := Option.bind_eq_some_iff.mp value
    obtain rfl := Option.some.inj result
    obtain ⟨f, isOperand, a, rfl, code⟩ := computes_bits wide mirrors typed operand
    obtain rfl : g = f := Option.some.inj (isFormat.symm.trans ((congrArg format? same).trans isOperand))
    have truth : op = .not → g = ⟨1, false⟩ := by
      intro isNot
      rw [before.2 isNot] at isOperand
      exact (Option.some.inj isOperand).symm
    obtain ⟨c, applied, reads⟩ := Format.unary_apply truth a
    refine ⟨g, isFormat, c, reads, fun regs s => ?_⟩
    unfold Lower.expr
    refine bind (code regs s) fun r s1 regs1 held _ _ => ?_
    rw [unary_emits (isInteger wide isOperand)]
    exact emit ((Ir.word_unary _ held).trans (congrArg _ applied))
  | binary info op l r =>
    obtain ⟨typedLeft, typedRight, alike, between⟩ := typed
    obtain ⟨f, isFormat, inner⟩ := Option.bind_eq_some_iff.mp value
    obtain ⟨x1, left, inner⟩ := Option.bind_eq_some_iff.mp inner
    obtain ⟨x2, right, result⟩ := Option.bind_eq_some_iff.mp inner
    obtain ⟨g, isLeft, a, rfl, code⟩ := computes_bits wide mirrors typedLeft left
    obtain rfl := Option.some.inj (isFormat.symm.trans isLeft)
    obtain ⟨g, isRight, b, rfl, code'⟩ := computes_bits wide mirrors typedRight right
    obtain rfl := Option.some.inj (isFormat.symm.trans ((congrArg format? alike).trans isRight))
    have known := isInteger wide isFormat
    have both : ∀ {code : Ir.Reg → Ir.Reg → Ir.Op} {y : Ir.Word},
        (∀ q q', Lower.binary op q q' l.ty = Lower.emit (code q q')) →
        (∀ (regs : Ir.Words) q q', regs q = some ⟨f.width, a⟩ → regs q' = some ⟨f.width, b⟩ →
          (code q q').word? memory regs = some y) →
        ∀ regs s, Computes memory regs env s (Lower.expr .value (.binary info op l r)) y := by
      intro op' y emits computes regs s
      unfold Lower.expr
      refine bind (code regs s) fun l s1 regs1 heldLeft below _ => ?_
      refine bind (code' regs1 s1) fun r s2 regs2 heldRight _ kept => ?_
      rw [emits]
      exact emit (computes _ _ _ ((kept l below).2.trans heldLeft) heldRight)
    cases compares : op.isComparison with
    | true =>
      refine ⟨⟨1, false⟩, ?_, _, (Format.holds_predicate compares result).symm,
        both (binary_compares known compares) fun _ _ _ => Ir.word_icmp _⟩
      rw [Typed.Expr.ty, Typed.Expr.info, between_comparison between compares]
      rfl
    | false =>
      obtain ⟨c, applied, reads⟩ := Format.binary_apply compares result
      refine ⟨f, ?_, c, reads, both (binary_emits known compares ?_) fun _ _ _ heldLeft heldRight =>
        (Ir.word_binary _ heldLeft heldRight).trans (congrArg _ applied)⟩
      · rw [Typed.Expr.ty, Typed.Expr.info, between_plain between compares]
        exact isFormat
      · rintro rfl
        cases result
  | convert info conversion e =>
    obtain ⟨typed, converts⟩ := typed
    obtain ⟨g, isTarget, value⟩ := Option.bind_eq_some_iff.mp value
    obtain ⟨y, operand, result⟩ := Option.bind_eq_some_iff.mp value
    obtain rfl := Option.some.inj result
    obtain ⟨f, isSource, a, rfl, code⟩ := computes_bits wide mirrors typed operand
    obtain ⟨b, reads, converted⟩ := convert wide isSource isTarget converts a info.span
    refine ⟨g, isTarget, b, reads, fun regs s => ?_⟩
    unfold Lower.expr
    exact bind (code regs s) fun r s1 regs1 held below _ => converted regs1 s1 r held below
  | _ => cases value

/-- On a target with pointers of 64 bits, the code of an expression of integers and
booleans can be made, and run on the bits of the variables it leaves the bits of the
value. The value is in the range of its type. -/
theorem expr_computes (wide : env.program.types.pointer = .bits64) (mirrors : Mirrors w env memory σ)
    {e : Typed.Expr} (typed : e.WellTyped w) {x : Int} (value : evaluate σ e = some x) (regs : Ir.Words)
    (s : LowerState) :
    ∃ f, format? e.ty = some f ∧ f.wrap x = x ∧ ∃ r ops regs',
      Lower.expr .value e env s = .ok (r, s.edit (·.emitAll ops)) ∧
        Ir.runOps memory ops s.builder.nextReg regs = some regs' ∧ regs' r = some (f.word x) := by
  obtain ⟨f, isFormat, a, rfl, code⟩ := computes_bits wide mirrors typed value
  obtain ⟨r, ops, regs', run, executed, held, -⟩ := code regs s
  exact ⟨f, isFormat, Format.wrap_read a, r, ops, regs', run, executed, held.trans (congrArg some (Format.word_read a).symm)⟩

/-- Half of -7, a number of 8 bits that is divided with 32 bits. -/
theorem halfOfByte_computes :
    let span := Span.none
    let byte : Ty := .builtin .int8
    let half : Typed.Expr := .binary ⟨.int32, span⟩ .div (.convert ⟨.int32, span⟩ .extend (.var ⟨byte, span⟩ 0))
      (.const ⟨.int32, span⟩ (.int 2))
    let main : Typed.Function := ⟨"", "", none, [], .builtin .void, [0], [], 0, .mk span [], none, span⟩
    let p : Typed.Program := ⟨.empty, .empty .bits64 8, [], [], [], main⟩
    let env : Env := { startEnv p main true with slots := [(0, 7)] }
    ∀ regs s, ∃ r ops regs', Lower.expr .value half env s = .ok (r, s.edit (·.emitAll ops)) ∧
      Ir.runOps (fun _ => some ⟨8, .ofInt 8 (-7)⟩) ops s.builder.nextReg regs = some regs' ∧
        regs' r = some ⟨32, .ofInt 32 (-3)⟩ := by
  intro span byte half main p env regs s
  let w : Typed.Outlook := { p.outlook main with sees? := fun _ => some ⟨byte, .localVar⟩ }
  have mirrors : Mirrors w env (fun _ => some ⟨8, .ofInt 8 (-7)⟩) fun id => if id = 0 then some (-7) else none := by
    intro id x found
    obtain ⟨rfl, same⟩ := Option.ite_none_right_eq_some.mp found
    cases same
    exact ⟨⟨byte, .localVar⟩, ⟨8, true⟩, 7, rfl, rfl, by decide, rfl, rfl⟩
  have typed : half.WellTyped w := by
    refine ⟨⟨⟨_, rfl, rfl⟩, by decide, by decide, .implicit, by decide⟩, ⟨by decide, by decide⟩, rfl, ?_⟩
    exact ⟨⟨.int32, rfl, by decide⟩, rfl⟩
  obtain ⟨f, isFormat, -, code⟩ := expr_computes rfl mirrors typed (by decide : evaluate _ half = some (-3)) regs s
  cases isFormat
  exact code

end Lowering

end BasicCompiler
