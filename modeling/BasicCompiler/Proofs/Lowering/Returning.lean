/-
# What is returned is released by nobody

A block that returns a value of a type that owns something ends with the instruction that gives the value, and
releases behind it.
-/
import BasicCompiler.Proofs.Lowering.Lasting

namespace BasicCompiler.Lowering

open Lower List Typed Option Bool
open Typed (Outlook)

variable {ty : Ty}

/-! ## Where a value is from -/

def stringMakers : List String :=
  ["__rt_string_from_lit", "__rt_string_concat", "__rt_string_clone", "__rt_to_string_int",
    "__rt_to_string_uint", "__rt_to_string_float", "__rt_to_string_bool"]

theorem toText_run (run : toText value source env s = .ok (reg, s')) : ∃ kind type callee wide s1,
    callee ∈ stringMakers ∧ castWith kind value type env s = .ok (wide, s1) ∧
      freshString callee [wide] env s1 = .ok (reg, s') := by
  rw [toText, typeOf_bind] at run
  split at run
  · exact ⟨none, .i64, _, value, s, by simp [stringMakers], rfl, run⟩
  · split at run <;> obtain ⟨wide, s1, cast, made⟩ := bind_ok.mp run
    · exact ⟨_, _, _, wide, s1, by simp [stringMakers], cast, made⟩
    · exact ⟨_, _, _, wide, s1, by split <;> simp [stringMakers], cast, made⟩

/-- The operation gives a value of the type that nothing else holds: nothing at all, a new
string, or what a function or a command returns. -/
inductive IsNew (p : Program) (ty : Ty) : Ir.Op → Prop where
  | nothing (type : Ir.Ty) : IsNew p ty (.const .zero type)
  | text {callee : String} {args : List Ir.Reg} : ty.isString = true → callee ∈ stringMakers →
      IsNew p ty (.call callee args)
  | function {f : Function} {args : List Ir.Reg} : f ∈ p.functions → f.result = ty →
      IsNew p ty (.call f.linkName args)
  | command {c : Command} {args : List Ir.Reg} : c ∈ p.commands → c.result = ty → IsNew p ty (.call c.linkName args)

def Lends (ty : Ty) (op : Ir.Op) : Prop := ty.isString = false ∧ ∃ place type, op = .load place type

/-- The last step of an evaluation, and the register that it fills: it notes the release of
what it makes if that is a string. -/
def EndsWith (w : Outlook) (home : Env) (passed : Ir.Reg → Prop) (ty : Ty) (op : Ir.Op) (s : LowerState) (reg : Ir.Reg)
    (s' : LowerState) : Prop :=
  ∃ s₀, Straight w home passed s s₀ ∧ reg = s₀.builder.nextReg ∧
    (ty.isString = true ∧ (∃ callee args, op = .call callee args ∧ s' = (Step.fresh callee args).play s₀) ∨
      ty.isString = false ∧ s' = (Step.emit op).play s₀)

section

variable (isString : ty.isString = true) (straight : Straight w home passed s s1)
include isString straight

theorem EndsWith.fresh
    (run : freshString callee args env s1 = .ok (reg, s')) : EndsWith w home passed ty (.call callee args) s reg s' := by
  cases run
  exact ⟨s1, straight, rfl, .inl ⟨isString, callee, args, rfl, rfl⟩⟩

theorem EndsWith.toText {value : Ir.Reg}
    (inside : env.Inside home) (proper : s1.builder.Proper) (run : toText value source env s1 = .ok (reg, s')) :
    ∃ op, IsNew home.program ty op ∧ EndsWith w home passed ty op s reg s' := by
  obtain ⟨kind, type, callee, wide, s2, maker, cast, made⟩ := toText_run run
  have more : Straight w home passed s1 s2 := Plays.castWith env s1 wide s2 inside proper cast
  exact ⟨_, .text isString maker, .fresh isString (straight.trans more) made⟩

end

theorem calleeWithArgs_isNew (known : p.callResult? target = some ty) (program : env.program = p)
    (run : calleeWithArgs target regs env s = .ok ((name, args), s')) : IsNew p ty (.call name args) := by
  rw [calleeWithArgs, read_bind, program] at run
  cases target with
  | function id =>
    obtain ⟨f, found, result⟩ := map_eq_some_iff.mp known
    simp only [found] at run
    cases run
    exact .function (mem_of_getElem? found) result
  | command index =>
    obtain ⟨c, found, result⟩ := map_eq_some_iff.mp known
    simp only [found] at run
    obtain ⟨all, s2, -, named⟩ := bind_ok.mp run
    cases named
    exact .command (mem_of_getElem? found) result

theorem EndsWith.call (known : home.program.callResult? target = some ty) (valued : ty.isVoid = false)
    (inside : env.Inside home) (straight : Straight w home passed s s1) (proper : s1.builder.Proper)
    (run : callWith target regs ty env s1 = .ok (value, s')) :
    ∃ reg op, value = some reg ∧ IsNew home.program ty op ∧ EndsWith w home passed ty op s reg s' := by
  obtain ⟨⟨name, args⟩, s2, named, run⟩ := bind_ok.mp run
  have gives := calleeWithArgs_isNew known inside.1 named
  have more : Straight w home passed s1 s2 := Plays.calleeWithArgs target regs env s1 _ s2 inside proper named
  dsimp only at run
  rw [if_neg (by simp [valued])] at run
  cases isString : ty.isString with
  | true =>
    rw [if_pos isString] at run
    cases run
    exact ⟨_, _, rfl, gives, s2, straight.trans more, rfl, .inl ⟨isString, name, args, rfl, rfl⟩⟩
  | false =>
    rw [if_neg (by simp [isString])] at run
    cases run
    exact ⟨_, _, rfl, gives, s2, straight.trans more, rfl, .inr ⟨isString, rfl⟩⟩

theorem expr_of_isPlace (isPlace : e.isPlace = true) (run : expr .value e env s = .ok (reg, s')) :
    ∃ address s1, expr .address e env s = .ok (address, s1) ∧
      fromPlace .value e.info address env s1 = .ok (reg, s') := by
  cases e with
  | var info id =>
    obtain ⟨address, s1, found, run⟩ := bind_ok.mp run
    exact ⟨address, s1, bind_ok.mpr ⟨address, s1, found, rfl⟩, run⟩
  | member info base index =>
    obtain ⟨record, s1, evaluated, run⟩ := bind_ok.mp run
    exact ⟨_, _, bind_ok.mpr ⟨record, s1, evaluated, rfl⟩, run⟩
  | index info base place =>
    obtain ⟨handle, s1, evaluated, run⟩ := bind_ok.mp run
    obtain ⟨number, s2, counted, run⟩ := bind_ok.mp run
    exact ⟨_, _, bind_ok.mpr ⟨handle, s1, evaluated, bind_ok.mpr ⟨number, s2, counted, rfl⟩⟩, run⟩
  | _ => cases isPlace

theorem EndsWith.place (isPlace : e.isPlace = true) (typed : e.WellTyped w) (plain : e.ty.isString = false)
    (inside : env.Inside home) (proper : s.builder.Proper) (run : expr .value e env s = .ok (reg, s')) :
    ∃ op, Lends e.ty op ∧ EndsWith w home passed e.ty op s reg s' := by
  obtain ⟨address, s1, found, run⟩ := expr_of_isPlace isPlace run
  cases run
  have straight : Straight w home passed s s1 := Plays.expr .address e typed (by simp) env s address s1 inside proper found
  exact ⟨_, ⟨plain, address, _, rfl⟩, s1, straight, rfl, .inr ⟨plain, rfl⟩⟩

/-! ## Expressions of types that own something -/

variable {types : TypeTable}

theorem builtin_of_needsFini (owns : types.needsFini (.builtin t) = true) : t = .string ∨ t = .array := by
  cases t with
  | string => exact .inl rfl
  | array => exact .inr rfl
  | _ => cases owns

theorem not_satisfies_of_needsFini (owns : types.needsFini ty = true)
    (string : f .string = false) (array : f .array = false) : ty.satisfies f = false := by
  cases ty with
  | builtin t =>
    obtain rfl | rfl := builtin_of_needsFini owns
    · exact string
    · exact array
  | arrayOf elem => exact array
  | pointerTo elem => cases owns
  | user id => rfl

theorem isString_of_converts (converts : Converts conversion source ty)
    (owns : types.needsFini ty = true) : ty.isString = true := by
  obtain ⟨changes, valid, mode, rfl⟩ := converts
  have noArray (target : ty.builtin? = some .array) : ty.isString = true := by
    unfold Ty.conversion at changes valid
    split at valid
    · next same => exact absurd (if_pos same) changes
    · rw [target] at valid
      cases found : source.builtin? with
      | none => rw [found] at valid; cases valid
      | some a => rw [found] at valid; cases a <;> cases valid
  cases ty with
  | builtin t =>
    obtain rfl | rfl := builtin_of_needsFini owns
    · rfl
    · exact noArray rfl
  | arrayOf elem => exact noArray rfl
  | pointerTo elem => cases owns
  | user id =>
    unfold Ty.conversion at changes valid
    split at valid
    · next same => exact absurd (if_pos same) changes
    · cases source.builtin? <;> simp [Ty.builtin?, Conversion.isValid] at valid

theorem joins_of_between (between : Between op operand ty) (owns : types.needsFini ty = true) :
    op.isComparison = false ∧ operand = ty ∧ ty.isString = true := by
  unfold Between at between
  split at between
  · rw [between.2] at owns
    cases owns
  · obtain ⟨⟨t, rfl, allowed⟩, rfl⟩ := between
    split at owns
    · cases owns
    · next noComparison =>
      obtain rfl | rfl := builtin_of_needsFini owns
      · simp [noComparison, Ty.isString, Ty.string]
      · cases op <;> cases allowed

/-- The value of an expression of a type that owns something ends with the call that gives
it, or is what a place holds. -/
theorem expr_endsWith (typed : e.WellTyped w) (results : w.result? = home.program.callResult?) (free : w.target? = none)
    (owns : types.needsFini e.ty = true) (inside : env.Inside home) (proper : s.builder.Proper)
    (run : expr .value e env s = .ok (reg, s')) (new : e.ty.isString = true → e.isFresh = true) :
    ∃ op, (IsNew home.program e.ty op ∨ Lends e.ty op) ∧ EndsWith w home passed e.ty op s reg s' := by
  have unlike {f : BuiltinType → Bool} (string : f .string = false) (array : f .array = false)
      (holds : e.ty.satisfies f = true) : False := by
    rw [not_satisfies_of_needsFini owns string array] at holds
    cases holds
  have lent (isPlace : e.isPlace = true) (old : e.isFresh = false) :
      ∃ op, (IsNew home.program e.ty op ∨ Lends e.ty op) ∧ EndsWith w home passed e.ty op s reg s' := by
    have plain : e.ty.isString = false := eq_false_iff.mpr fun isString => by simp [new isString] at old
    obtain ⟨op, lends, ends⟩ := EndsWith.place isPlace typed plain inside proper run
    exact ⟨op, .inr lends, ends⟩
  cases e with
  | const info value =>
    cases value with
    | str content =>
      obtain ⟨bytes, s1, made, run⟩ := bind_ok.mp run
      have isString : info.ty.isString = true := decide_eq_true typed
      have straight : Straight w home passed s s1 := Plays.made [] (.text content) env s bytes s1 inside proper made
      exact ⟨_, .inl (.text isString (by simp [stringMakers])), .fresh isString straight run⟩
    | int value => exact (unlike rfl rfl typed.1).elim
    | float value =>
      obtain ⟨t, same, isFloat⟩ := typed
      refine (unlike (f := BuiltinType.isFloat) rfl rfl ?_).elim
      rw [show (Expr.const info (.float value)).ty = .builtin t from same]
      exact isFloat
    | bool value =>
      refine (unlike (f := (· = .bool)) rfl rfl ?_).elim
      rw [show (Expr.const info (.bool value)).ty = .bool from typed]
      rfl
  | var info id | member info base index | index info base place => exact lent rfl rfl
  | swizzle info base axes =>
    obtain ⟨t, same, number⟩ := Plays.picked_number typed.2
    refine (unlike (f := fun t => t.isSimd || t.isNumeric) rfl rfl ?_).elim
    rw [show (Expr.swizzle info base axes).ty = .builtin t from same]
    exact number
  | call info target args =>
    obtain ⟨params, -, -, typedArgs, known⟩ := typed
    obtain ⟨regs, s1, evaluated, run⟩ := bind_ok.mp run
    have straight : Straight w home passed s s1 :=
      Plays.arguments args params typedArgs env s regs s1 inside proper evaluated
    obtain ⟨value, s2, called, run⟩ := bind_ok.mp run
    have valued : info.ty.isVoid = false := by
      cases isVoid : info.ty.isVoid with
      | false => rfl
      | true => 
        rw [show (Expr.call info target args).ty = .void from of_decide_eq_true isVoid] at owns
        cases owns
    obtain ⟨made, op, rfl, gives, ends⟩ :=
      EndsWith.call (results ▸ known) valued inside straight (straight.advances proper).1 called
    cases run
    exact ⟨op, .inl gives, ends⟩
  | construct info parts =>
    obtain ⟨t, same, isVector, -⟩ := typed
    refine (unlike (f := BuiltinType.isSimd) rfl rfl ?_).elim
    rw [show (Expr.construct info parts).ty = .builtin t from same]
    exact isVector
  | unary info op operand =>
    obtain ⟨-, ⟨allowed, isBool⟩, same⟩ := typed
    rw [← same] at allowed isBool
    cases op with
    | neg =>
      obtain number | vector := or_eq_true _ _ ▸ allowed
      · exact (unlike rfl rfl number).elim
      · exact (unlike rfl rfl vector).elim
    | bitNot => exact (unlike rfl rfl allowed).elim
    | not => 
      refine (unlike (f := (· = .bool)) rfl rfl ?_).elim
      rw [show (Expr.unary info .not operand).ty = .bool from isBool rfl]
      rfl
  | binary info op left right =>
    obtain ⟨typedLeft, typedRight, -, between⟩ := typed
    obtain ⟨noComparison, sameType, isString⟩ := joins_of_between between owns
    obtain ⟨l, s1, first, run⟩ := bind_ok.mp run
    obtain ⟨r, s2, second, run⟩ := bind_ok.mp run
    have straight1 : Straight w home passed s s1 := Plays.expr .value left typedLeft (by simp) env s l s1 inside proper first
    have straight2 : Straight w home passed s1 s2 :=
      Plays.expr .value right typedRight (by simp) env s1 r s2 inside (straight1.advances proper).1 second
    unfold Lower.binary at run
    rw [if_neg (by simp [noComparison]), if_pos (by rw [sameType]; exact isString)] at run
    exact ⟨_, .inl (.text isString (by simp [stringMakers])), .fresh isString (straight1.trans straight2) run⟩
  | convert info conversion operand =>
    obtain ⟨value, s1, evaluated, run⟩ := bind_ok.mp run
    have straight : Straight w home passed s s1 :=
      Plays.expr .value operand typed.1 (by simp) env s value s1 inside proper evaluated
    have isString := isString_of_converts typed.2 owns
    obtain rfl : conversion = .toString := of_decide_eq_true (new isString)
    obtain ⟨op, gives, ends⟩ := EndsWith.toText isString straight inside (straight.advances proper).1 run
    exact ⟨op, .inl gives, ends⟩
  | target info => exact absurd (free.symm.trans typed) (by simp)

/-! ## Releases behind a value -/

/-- The instruction serves a release: it reads a handle from a place, or releases one. -/
def Releases (i : Ir.Instr) : Prop :=
  (∃ handle place, i = ⟨some handle, .load place .handle⟩) ∨ ∃ owned handle, i = ⟨none, .call (Owned.release owned) [handle]⟩

/-- The code ends with the instruction that fills a register with a value of the type, and
releases behind it that do not touch the register. -/
def HandsOn (p : Program) (ty : Ty) (code : List Ir.Instr) (reg : Ir.Reg) : Prop :=
  ∃ front op back, code = front ++ ⟨some reg, op⟩ :: back ∧ (IsNew p ty op ∨ Lends ty op) ∧
    ∀ i ∈ back, Releases i ∧ reg ∉ i.op.operands

variable {t : Option Ir.Terminator}

theorem emitCleanup_reads (reads : Reads s done code t) (other : c.reg ≠ reg) (below : reg < s.builder.nextReg)
    (run : emitCleanup c env s = .ok ((), s')) :
    ∃ back, Reads s' done (code ++ back) t ∧ (∀ i ∈ back, Releases i ∧ reg ∉ i.op.operands) ∧
      s.builder.nextReg ≤ s'.builder.nextReg := by
  have later : reg ≠ s.builder.nextReg := Nat.ne_of_lt below
  obtain ⟨owned, place, isSlot⟩ := c
  cases isSlot with
  | true =>
    cases run
    have first := reads.step (.emit (.load place .handle)) rfl
    refine ⟨_, append_assoc .. ▸ first.step (.perform (.call owned.release [s.builder.nextReg])) rfl, ?_, Nat.le_succ _⟩
    intro i mem
    obtain rfl | rfl := mem_pair.mp mem
    · exact ⟨.inl ⟨_, _, rfl⟩, by simpa [Ir.Op.operands] using other.symm⟩
    · exact ⟨.inr ⟨_, _, rfl⟩, by simpa [Ir.Op.operands] using later⟩
  | false =>
    cases run
    refine ⟨_, reads.step (.perform (.call owned.release [place])) rfl, ?_, Nat.le_refl _⟩
    intro i mem
    obtain rfl := mem_singleton.mp mem
    exact ⟨.inr ⟨_, _, rfl⟩, by simpa [Ir.Op.operands] using other.symm⟩

theorem emitCleanups_reads (reads : Reads s done code t) (others : ∀ c ∈ cs, c.reg ≠ reg)
    (below : reg < s.builder.nextReg) (run : emitCleanups cs env s = .ok ((), s')) :
    ∃ back, Reads s' done (code ++ back) t ∧ (∀ i ∈ back, Releases i ∧ reg ∉ i.op.operands) ∧
      s.builder.nextReg ≤ s'.builder.nextReg := by
  induction cs generalizing s code with
  | nil =>
    cases run
    exact ⟨[], (append_nil code).symm ▸ reads, by simp, Nat.le_refl _⟩
  | cons c cs ih =>
    obtain ⟨_, s1, first, rest⟩ := bind_ok.mp run
    obtain ⟨back, reads1, released, le⟩ := emitCleanup_reads reads (others c mem_cons_self) below first
    obtain ⟨back', reads', released', le'⟩ :=
      ih reads1 (forall_mem_cons.mp others).2 (Nat.lt_of_lt_of_le below le) rest
    have all := forall_mem_append.mpr ⟨released, released'⟩
    exact ⟨back ++ back', append_assoc .. ▸ reads', all, Nat.le_trans le le'⟩

/-! ## What lasts -/

def Delivers (p : Program) (ty : Ty) (x : List Ir.Instr × Option Ir.Terminator) : Prop :=
  ∀ reg, x.2 = some (.ret (some reg)) → HandsOn p ty x.1 reg

theorem delivers_append (delivers : ∀ x ∈ done, Delivers p ty x) (noReturn : ∀ value, t ≠ some (.ret value)) :
    ∀ x ∈ done ++ [(code, t)], Delivers p ty x :=
  forall_mem_append.mpr ⟨delivers, forall_mem_singleton.mpr fun _ same => absurd same (noReturn _)⟩

theorem or_noReturn (noReturn : ∀ value, t ≠ some (.ret value)) (other : ∀ value, t' ≠ .ret value)
    (value : Option Ir.Reg) : t.or (some t') ≠ some (.ret value) := by
  cases t with
  | none => exact fun same => other value (some.inj same)
  | some t => exact noReturn value

/-- The blocks that have been left deliver, the current one does not return, and what is
to be released is in registers that there are. -/
structure Returning (p : Program) (ty : Ty) (s : LowerState) : Prop where
  reads : ∃ done code t, Reads s done code t ∧ (∀ x ∈ done, Delivers p ty x) ∧ ∀ value, t ≠ some (.ret value)
  below : ∀ c ∈ s.cleanups.frames.flatten, c.reg < s.builder.nextReg

theorem Step.below {st : Step} (sound : st.Sound w home passed s)
    (below : ∀ c ∈ s.cleanups.frames.flatten, c.reg < s.builder.nextReg) :
    ∀ c ∈ (st.play s).cleanups.frames.flatten, c.reg < (st.play s).builder.nextReg := by
  intro c mem
  have known (mem : c ∈ s.cleanups.frames.flatten) : c.reg < (st.play s).builder.nextReg :=
    Nat.lt_of_lt_of_le (below c mem) st.play_nextReg_le
  cases st with
  | fresh callee args =>
    obtain mem | rfl := mem_register mem
    · exact known mem
    · exact Nat.lt_succ_self _
  | note owned place =>
    obtain mem | rfl := mem_register mem
    · exact known mem
    · exact sound.note owned place rfl
  | _ => exact known mem

namespace Returning

theorem straight (h : Returning p ty s) (straight : Straight w home passed s s') : Returning p ty s' := by
  induction straight with
  | refl => exact h
  | step st _ sound ih =>
    obtain ⟨⟨done, code, t, reads, delivers, noReturn⟩, below⟩ := ih
    exact ⟨⟨done, _, t, reads.step st sound.noSlot, delivers, noReturn⟩, Step.below sound below⟩

end Returning

/-- The last instruction fills the register with the value that is to be returned, and the
register is not among what is to be released. -/
structure Handed (p : Program) (ty : Ty) (s : LowerState) (reg : Ir.Reg) : Prop where
  reads : ∃ done code op t, Reads s done (code ++ [⟨some reg, op⟩]) t ∧ (∀ x ∈ done, Delivers p ty x) ∧
    (∀ value, t ≠ some (.ret value)) ∧ (IsNew p ty op ∨ Lends ty op)
  isMade : reg < s.builder.nextReg
  kept : ∀ c ∈ s.cleanups.pendingFrom 0, c.reg ≠ reg
  below : ∀ c ∈ s.cleanups.frames.flatten, c.reg < s.builder.nextReg

namespace Handed

theorem emitted (h : Returning p ty s) (gives : IsNew p ty op ∨ Lends ty op) :
    Handed p ty ((Step.emit op).play s) s.builder.nextReg := by
  have noSlot : (Step.emit op).NoSlot := by
    obtain gives | ⟨-, place, type, rfl⟩ := gives
    · cases gives <;> rfl
    · rfl
  obtain ⟨⟨done, code, t, reads, delivers, noReturn⟩, below⟩ := h
  refine ⟨⟨done, code, op, t, reads.step (.emit op) noSlot, delivers, noReturn, gives⟩, Nat.lt_succ_self _, ?_, ?_⟩
  · exact fun c mem => Nat.ne_of_lt (below c (mem_pendingFrom mem))
  · exact fun c mem => Nat.lt_succ_of_lt (below c mem)

theorem exempt (h : Returning p ty s) (gives : IsNew p ty (.call callee args) ∨ Lends ty (.call callee args)) :
    Handed p ty (((Step.fresh callee args).play s).tidy (·.ignore s.builder.nextReg)) s.builder.nextReg := by
  obtain ⟨⟨done, code, t, reads, delivers, noReturn⟩, below⟩ := h
  have made := reads.step (.fresh callee args) trivial
  refine ⟨⟨done, code, _, t, made.tidy _, delivers, noReturn, gives⟩, Nat.lt_succ_self _, fun c mem => ?_, fun c mem => ?_⟩
  · have := (mem_filter.mp mem).2
    simp only [LowerState.tidy_cleanups, CleanupStack.ignore, contains_cons, Bool.not_or, Bool.and_eq_true] at this
    simpa using this.1
  · obtain mem | rfl := mem_register mem
    · exact Nat.lt_succ_of_lt (below c mem)
    · exact Nat.lt_succ_self _

theorem of_handedOn (h : Returning home.program ty s) (results : w.result? = home.program.callResult?)
    (free : w.target? = none) (owns : types.needsFini ty = true) (typed : ∀ e ∈ value, e.WellTyped w ∧ e.ty = ty)
    (inside : env.Inside home) (same : env.result = ty) (noMain : env.isMain = false)
    (run : handedOn value env s = .ok (r, s')) : ∃ reg, r = some reg ∧ Handed home.program ty s' reg := by
  have proper : s.builder.Proper := by
    obtain ⟨done, code, t, reads, -⟩ := h.reads
    exact reads.proper
  cases value with
  | none =>
    have valued : ty.isVoid = false := eq_false_iff.mpr fun isVoid => by
      rw [of_decide_eq_true isVoid] at owns
      cases owns
    rw [handedOn, defaultReturn, read_bind, if_neg (by simp [noMain]), same, if_neg (by simp [valued])] at run
    cases run
    exact ⟨_, rfl, .emitted h (.inl (.nothing _))⟩
  | some e =>
    obtain ⟨typedValue, rfl⟩ := typed e rfl
    obtain ⟨reg, returned, rfl⟩ := map_ok.mp run
    obtain ⟨value, s2, evaluated, handed⟩ := returnedValue_run returned
    have ends (new : e.ty.isString = true → e.isFresh = true) :
        ∃ op, (IsNew home.program e.ty op ∨ Lends e.ty op) ∧ EndsWith w home (fun _ => False) e.ty op s value s2 :=
      expr_endsWith typedValue results free owns inside proper evaluated new
    obtain ⟨plain, rfl, rfl⟩ | ⟨isString, fresh, rfl, rfl⟩ | ⟨isString, -, copied⟩ := handed
    · obtain ⟨op, gives, s0, straight, rfl, ⟨isString, -⟩ | ⟨-, rfl⟩⟩ := ends (by simp [plain])
      · rw [plain] at isString
        cases isString
      · exact ⟨_, rfl, .emitted (h.straight straight) gives⟩
    · obtain ⟨op, gives, s0, straight, rfl, ⟨-, callee, args, rfl, rfl⟩ | ⟨plain, -⟩⟩ := ends fun _ => fresh
      · exact ⟨_, rfl, .exempt (h.straight straight) gives⟩
      · rw [plain] at isString
        cases isString
    · have straight : Straight w home (fun _ => False) s s2 :=
        Plays.expr .value e typedValue (by simp) env s value s2 inside proper evaluated
      cases copied
      exact ⟨_, rfl, .emitted (h.straight straight) (.inl (.text isString (by simp [stringMakers])))⟩

theorem finish (h : Handed p ty s reg)
    (run : emitCleanups (s.cleanups.pendingFrom 0) env (leaving 0 s) = .ok ((), s')) :
    ∃ done code t, Reads (s'.finish (.ret (some reg))) done code (some t) ∧ (∀ x ∈ done ++ [(code, some t)], Delivers p ty x) ∧
      ∀ c ∈ s'.cleanups.frames.flatten, c.reg < s'.builder.nextReg := by
  obtain ⟨done, code, op, t, reads, delivers, noReturn, gives⟩ := h.reads
  have left : Reads (leaving 0 s) done (code ++ [⟨some reg, op⟩]) t := ⟨reads.proper, reads.closed, reads.block⟩
  obtain ⟨back, reads', released, le⟩ := emitCleanups_reads left h.kept h.isMade run
  have frames : s'.cleanups.frames = s.cleanups.frames := by
    rw [emitCleanups_cleanups run]
    rfl
  have below : ∀ c ∈ s'.cleanups.frames.flatten, c.reg < s'.builder.nextReg := fun c mem =>
    Nat.lt_of_lt_of_le (h.below c (frames ▸ mem)) le
  have ended := reads'.finish (.ret (some reg))
  cases t with
  | none =>
    refine ⟨_, _, _, ended, forall_mem_append.mpr ⟨delivers, forall_mem_singleton.mpr fun reg' same => ?_⟩, below⟩
    obtain rfl := some.inj (Ir.Terminator.ret.inj (some.inj same))
    exact ⟨code, op, back, by simp, gives, released⟩
  | some t => exact ⟨_, _, _, ended, delivers_append delivers noReturn, below⟩

end Handed

theorem Returning.returnStmt (h : Returning home.program ty s) (results : w.result? = home.program.callResult?)
    (free : w.target? = none) (owns : types.needsFini ty = true) (typed : ∀ e ∈ value, e.WellTyped w ∧ e.ty = ty)
    (inside : env.Inside home) (same : env.result = ty) (noMain : env.isMain = false)
    (run : Lower.returnStmt value env s = .ok ((), s')) :
    ∃ done code t, Reads s' done code (some t) ∧ (∀ x ∈ done ++ [(code, some t)], Delivers home.program ty x) ∧
      ∀ c ∈ s'.cleanups.frames.flatten, c.reg < s'.builder.nextReg := by
  obtain ⟨r, s1, s2, made, released, rfl⟩ := returnStmt_run run
  obtain ⟨reg, rfl, handed⟩ := Handed.of_handedOn h results free owns typed inside same noMain made
  exact handed.finish released

theorem Returning.lasting (results : w.result? = home.program.callResult?) (free : w.target? = none)
    (returns : w.returns? = some ty) (owns : types.needsFini ty = true) (result : home.result = ty)
    (noMain : home.isMain = false) : Lasting w home passed (Returning home.program ty) where
  proper s h := by
    obtain ⟨done, code, t, reads, -⟩ := h.reads
    exact reads.proper
  straight s s' moves h := h.straight moves
  create s label h := by
    obtain ⟨⟨done, code, t, reads, delivers, noReturn⟩, below⟩ := h
    exact ⟨⟨done, code, t, reads.create label, delivers, noReturn⟩, below⟩
  enter s id h := by
    obtain ⟨⟨done, code, t, reads, delivers, noReturn⟩, below⟩ := h
    have left : ∀ x ∈ done ++ [(code, t.or (some (.br id)))], Delivers home.program ty x :=
      delivers_append delivers (or_noReturn noReturn (by simp))
    refine ⟨⟨_, [], none, reads.enter id, left, by simp⟩, fun c mem => ?_⟩
    rw [LowerState.enter_nextReg]
    exact below c mem
  jump s t noReturn h := by
    obtain ⟨⟨done, code, t', reads, delivers, isOpen⟩, below⟩ := h
    exact ⟨⟨done, code, _, reads.finish t, delivers, or_noReturn isOpen noReturn⟩, below⟩
  tidy s step shrinks h := by
    obtain ⟨⟨done, code, t, reads, delivers, noReturn⟩, below⟩ := h
    exact ⟨⟨done, code, t, reads.tidy step, delivers, noReturn⟩, fun c mem => below c (shrinks c mem)⟩
  returns env span value s s' inside same isMain typed run h := by
    have typed' (e : Expr) (mem : e ∈ value) : e.WellTyped w ∧ e.ty = ty := by
      obtain ⟨typed, given, -⟩ := typed e mem
      exact ⟨typed, some.inj (given.symm.trans returns)⟩
    obtain ⟨done, code, t, reads, delivers, below⟩ :=
      h.returnStmt results free owns typed' inside (same.trans result) (isMain.trans noMain) run
    refine ⟨⟨_, [], none, reads.detach _, delivers, by simp⟩, fun c mem => ?_⟩
    change c.reg < ((s'.create _).enter _).builder.nextReg
    rw [LowerState.enter_nextReg]
    exact below c mem

theorem lowerFunction_delivers (typed : f.WellTyped p) (owns : p.types.needsFini f.result = true)
    (run : lowerFunction p b f false = .ok s') : ∀ c ∈ s'.builder.entered, Delivers p f.result c.text := by
  obtain ⟨home, params, s0, s1, s2, s3, stages, ended⟩ := lowerFunction_stages typed run
  have isHome := stages.isHome
  obtain rfl := isHome.program
  have lasts : Lasting (home.program.outlook f) home (fun _ => True) (Returning home.program f.result) :=
    Returning.lasting rfl rfl rfl owns isHome.result isHome.isMain
  have before : Returning home.program f.result s0 :=
    ⟨⟨[], [], none, stages.start, by simp, by simp⟩, by simp [stages.unnoted, CleanupStack.empty]⟩
  have h := (stages.body lasts (stages.entry lasts (fun _ _ _ _ => trivial) before)).2
  have all : ∃ done code t, Reads s' done code t ∧ ∀ x ∈ done ++ [(code, t)], Delivers home.program f.result x := by
    obtain ⟨-, rfl⟩ | ⟨-, rfl⟩ | ⟨-, returned⟩ := endOfFunction_run ended
    · obtain ⟨done, code, t, reads, delivers, noReturn⟩ := h.reads
      exact ⟨done, code, t, reads, delivers_append delivers noReturn⟩
    · obtain ⟨done, code, t, reads, delivers, noReturn⟩ := h.reads
      exact ⟨done, code, _, reads.finish .unreachable, delivers_append delivers (or_noReturn noReturn (by simp))⟩
    · obtain ⟨done, code, t, reads, delivers, -⟩ :=
        h.returnStmt (w := home.program.outlook f) rfl rfl owns (fun e mem => (typed.endValue e mem).1)
          ⟨rfl, fun _ _ found => found⟩ isHome.result isHome.isMain returned
      exact ⟨done, code, some t, reads, delivers⟩
  obtain ⟨done, code, t, reads, delivers⟩ := all
  exact fun c mem => delivers _ (reads.entered ▸ mem_map_of_mem mem)

end BasicCompiler.Lowering
