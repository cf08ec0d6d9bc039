/-
# Strings and arrays are copied into variables

What a variable is given by an assignment, an initialiser or the start of a loop is copied by a call of the runtime,
if it is a string or an array, and a string that is passed by value is copied on entry.
-/
import BasicCompiler.Proofs.Lowering.Lasting

namespace BasicCompiler

open Ir (BlockId Reg)
open List Typed Ir.Builder

/-- The function of the runtime that copies a string or an array into a place. -/
def Ty.copier (ty : Ty) : String := if ty.isString then "__rt_string_assign" else "__rt_array_assign"

namespace Lowering

open Lower
open Typed (Outlook)

variable {env : Env}

/-! ## Properties that last whatever blocks end with -/

/-- A property that every step of the lowering keeps. -/
structure Steady (w : Outlook) (home : Env) (passed : Reg → Prop) (P : LowerState → Prop) : Prop where
  proper : ∀ s, P s → s.builder.Proper
  straight : ∀ s s', Straight w home passed s s' → P s → P s'
  create : ∀ s label, P s → P (s.create label)
  enter : ∀ s id, P s → P (s.enter id)
  finish : ∀ s t, P s → P (s.finish t)
  tidy : ∀ s step, P s → P (s.tidy step)

namespace Steady

theorem plays (h : Steady w home passed P) (plays : Plays w home passed m)
    (inside : env.Inside home) (run : m env s = .ok (a, s')) (before : P s) : P s' :=
  h.straight s s' (plays env s a s' inside (h.proper s before) run) before

variable {value : Option Expr}

section

variable (h : Steady w home passed P) (typed : ∀ e ∈ value, e.WellTyped w) (inside : env.Inside home)
include h typed inside

theorem handedOn (run : Lower.handedOn value env s = .ok (r, s')) (before : P s) : P s' := by
  cases value with
  | none => exact h.plays (.made [] .defaultReturn) inside run before
  | some e =>
    obtain ⟨reg, returned, rfl⟩ := map_ok.mp run
    obtain ⟨value, s1, evaluated, handed⟩ := returnedValue_run returned
    have valued : P s1 := h.plays (.expr .value e (typed e rfl) (by simp)) inside evaluated before
    obtain ⟨-, rfl, rfl⟩ | ⟨-, -, rfl, rfl⟩ | ⟨-, -, copied⟩ := handed
    · exact valued
    · exact h.tidy s1 _ valued
    · exact h.plays (.emit rfl) inside copied valued

theorem returnStmt (run : Lower.returnStmt value env s = .ok ((), s')) (before : P s) : P s' := by
  obtain ⟨r, s1, s2, made, released, rfl⟩ := returnStmt_run run
  have first := h.handedOn typed inside made before
  have left : P (leaving 0 s1) := h.tidy s1 (·.ran (s1.cleanups.pendingFrom 0)) first
  exact h.finish s2 _ (h.plays (.emitCleanups _) inside released left)

end

theorem lasting (h : Steady w home passed P) : Lasting w home passed P where
  proper := h.proper
  straight := h.straight
  create := h.create
  enter := h.enter
  jump s t _ := h.finish s t
  tidy s step _ := h.tidy s step
  returns _ _ _ _ _ inside _ _ typed run before :=
    h.enter _ _ (h.create _ _ (h.returnStmt (fun e mem => (typed e mem).1) inside run before))

theorem endOfFunction (h : Steady w home passed P) (typed : ∀ e ∈ value, e.WellTyped w)
    (inside : env.Inside home) (run : Lower.endOfFunction value env s = .ok ((), s')) (before : P s) : P s' := by
  obtain ⟨-, rfl⟩ | ⟨-, rfl⟩ | ⟨-, returned⟩ := endOfFunction_run run
  · exact before
  · exact h.finish s _ before
  · exact h.returnStmt typed inside returned before

theorem grows (b : Ir.Builder) : Steady w home passed fun s => s.builder.Proper ∧ b.Grows s.builder := by
  have advance {s s' : LowerState} (advances : s.builder.Advances s'.builder)
      (before : s.builder.Proper ∧ b.Grows s.builder) : s'.builder.Proper ∧ b.Grows s'.builder := by
    obtain ⟨proper, grows⟩ := advances before.1
    exact ⟨proper, before.2.trans grows⟩
  exact {
    proper := fun s before => before.1
    straight := fun s s' moves => advance moves.advances
    create := fun s label => advance (advances_createBlock label)
    enter := fun s id => advance (advances_setBlock id)
    finish := fun s t => advance (advances_terminate t)
    tidy := fun s step before => before }

end Steady

/-! ## Copies -/

/-- The code has a copy into a place of a value of the type. -/
def CopiesInto (home : Env) (s : LowerState) (ty : Ty) (place : Lower Reg) (value : Reg → Lower Reg) : Prop :=
  ∃ address reg, Answered home place s address ∧ Answered home (value address) s reg ∧
    ∃ c ∈ s.builder.entered, ⟨none, .call ty.copier [address, reg]⟩ ∈ c.code

/-- What a statement gives to a variable is copied, if a handle stands for it. -/
def Copies (home : Env) (s : LowerState) : Stmt → Prop
  | .assign _ target value =>
      target.ty.isHeld = true → CopiesInto home s target.ty (expr .address target) fun address => assignedValue address value
  | .declare _ id _ (some init) =>
      init.ty.isHeld = true → CopiesInto home s init.ty (varAddress id) fun _ => expr .value init
  | .forLoop _ var start _ _ _ _ =>
      var.ty.isHeld = true → CopiesInto home s var.ty (expr .address var) fun _ => expr .value start
  | _ => True

theorem CopiesInto.mono
    (h : CopiesInto home s ty place value) (grows : s.builder.Grows s'.builder) : CopiesInto home s' ty place value := by
  obtain ⟨address, reg, found, valued, c, entered, called⟩ := h
  obtain ⟨d, entered', evolves⟩ := grows.entered entered
  exact ⟨address, reg, found.mono grows, valued.mono grows, d, entered', evolves.code.subset called⟩

theorem Copies.mono (h : Copies home s st) (grows : s.builder.Grows s'.builder) : Copies home s' st := by
  unfold Copies at h ⊢
  split at h
  · exact fun held => (h held).mono grows
  · exact fun held => (h held).mono grows
  · exact fun held => (h held).mono grows
  · trivial

theorem storeValue_calls (held : ty.isHeld = true) (proper : s.builder.Proper)
    (run : storeValue address value ty env s = .ok ((), s')) :
    ∃ c ∈ s'.builder.entered, ⟨none, .call ty.copier [address, value]⟩ ∈ c.code := by
  have called : perform (.call ty.copier [address, value]) env s = .ok ((), s') := by
    unfold Ty.copier
    unfold storeValue at run
    split at run
    · next isString => rw [if_pos isString]; exact run
    · next notString =>
      rw [if_neg notString]
      rw [if_pos (by simpa [Ty.isHeld, notString] using held)] at run
      exact run
  cases called
  obtain ⟨done, code, t, reads⟩ := Reads.of_proper proper
  have reads' := reads.step (.perform (.call ty.copier [address, value])) rfl
  obtain ⟨c, block, same⟩ := Option.map_eq_some_iff.mp reads'.block
  refine ⟨c, mem_entered_of_block block, ?_⟩
  rw [show c.code = code ++ [⟨none, .call ty.copier [address, value]⟩] from congrArg Prod.fst same]
  exact mem_append_right _ mem_cons_self

theorem CopiesInto.stored (held : ty.isHeld = true) (inside : env.Inside home) (proper : s1.builder.Proper)
    (found : place env s = .ok (address, s1)) (between : Straight w home passed s1 s2)
    (plays : Plays w home passed (value address)) (valued : value address env s2 = .ok (reg, s3))
    (stored : storeValue address reg ty env s3 = .ok ((), s')) : CopiesInto home s' ty place value := by
  obtain ⟨proper2, grows2⟩ := between.advances proper
  obtain ⟨proper3, grows3⟩ := (plays env s2 reg s3 inside proper2 valued).advances proper2
  have last : Straight w home passed s3 s' := .storeValue (by simp [held]) stored
  have grows := (last.advances proper3).2
  exact ⟨address, reg, (Answered.here inside found).mono ((grows2.trans grows3).trans grows),
    (Answered.here inside valued).mono grows, storeValue_calls held proper3 stored⟩

variable {span : Span}

theorem assignment_copies (typed : (Stmt.assign span target value).WellTyped w) (inside : env.Inside home)
    (proper : s.builder.Proper) (run : assignment target value env s = .ok ((), s')) :
    Copies home s' (.assign span target value) := by
  intro held
  obtain ⟨typedTarget, -, typedValue, -⟩ := typed
  unfold assignment at run
  split at run
  next info base axes =>
    obtain ⟨t, same, number⟩ := Plays.picked_number typedTarget.2
    rw [show (Expr.swizzle info base axes).ty = .builtin t from same] at held
    cases t with
    | string | array => cases number
    | _ => cases held
  next =>
    obtain ⟨address, s1, found, run⟩ := bind_ok.mp run
    obtain ⟨reg, s2, valued, stored⟩ := bind_ok.mp run
    have first : Straight w home (fun _ => False) s s1 :=
      Plays.expr .address target typedTarget (by simp) env s address s1 inside proper found
    have plays : Plays w home (fun _ => False) (assignedValue address value) := .assignedValue address typedValue
    exact .stored held inside (first.advances proper).1 found (.refl s1) plays valued stored

theorem declaration_copies {id : SymbolId} (typed : (Stmt.declare span id size init).WellTyped w)
    (sees : ∀ v, w.sees? id = some v → home.program.asVariable? id = some v) (inside : env.Inside home)
    (proper : s.builder.Proper) (run : declaration span id size init env s = .ok ((), s')) :
    Copies home s' (.declare span id size init) := by
  cases init with
  | none => trivial
  | some init =>
    intro held
    obtain ⟨v, seen, typedSize, typedInit⟩ := typed
    obtain ⟨typedValue, sameType⟩ := typedInit init rfl
    rw [declaration, read_bind, inside.1, sees v seen] at run
    obtain ⟨address, s1, found, rest⟩ := bind_ok.mp run
    have first : Straight w home (fun _ => False) s s1 := Plays.varAddress seen env s address s1 inside proper found
    have proper1 := (first.advances proper).1
    have plays : Plays w home (fun _ => False) (expr .value init) := .expr .value init typedValue (by simp)
    cases size with
    | none =>
      obtain ⟨reg, s2, valued, stored⟩ := bind_ok.mp rest
      exact .stored held inside proper1 found (.refl s1) plays valued (sameType ▸ stored)
    | some size =>
      obtain ⟨_, s2, sized, rest⟩ := bind_ok.mp rest
      obtain ⟨reg, s3, valued, stored⟩ := bind_ok.mp rest
      have dims : Straight w home (fun _ => False) s1 s2 :=
        Plays.dim address v.type (typedSize size rfl).1 env s1 _ s2 inside proper1 sized
      exact .stored held inside proper1 found dims plays valued (sameType ▸ stored)

theorem loopHead_copies {var start bound : Expr} {head : Reg × Reg × Reg}
    (typed : (Stmt.forLoop span var start bound inclusive step body).WellTyped w) (inside : env.Inside home)
    (proper : s.builder.Proper) (run : loopHead var start bound step env s = .ok (head, s')) :
    Copies home s' (.forLoop span var start bound inclusive step body) := by
  intro held
  obtain ⟨⟨typedVar, -, -⟩, typedStart, typedBound, typedStep, -⟩ := typed
  obtain ⟨address, s1, found, run⟩ := bind_ok.mp run
  obtain ⟨reg, s2, valued, run⟩ := bind_ok.mp run
  obtain ⟨_, s3, stored, run⟩ := bind_ok.mp run
  have first : Straight w home (fun _ => False) s s1 :=
    Plays.expr .address var typedVar (by simp) env s address s1 inside proper found
  have proper1 := (first.advances proper).1
  have plays : Plays w home (fun _ => False) (expr .value start) := .expr .value start typedStart.1 (by simp)
  have copied : CopiesInto home s3 var.ty (expr .address var) fun _ => expr .value start :=
    .stored held inside proper1 found (.refl s1) plays valued stored
  -- What is evaluated behind the copy only adds to the code.
  have second : Straight w home (fun _ => False) s1 s2 := plays env s1 reg s2 inside proper1 valued
  have proper2 := (second.advances proper1).1
  have third : Straight w home (fun _ => False) s2 s3 := .storeValue (by simp [held]) stored
  have proper3 := (third.advances proper2).1
  have rest : Straight w home (fun _ => False) s3 s' := by
    refine Plays.bind (.expr .value bound typedBound.1 (by simp)) (fun _ => ?_) env s3 head s' inside proper3 run
    cases step with
    | none => exact .bind (.made [] (.one var.ty)) fun _ => .pure _
    | some step => exact .bind (.expr .value step (typedStep step rfl).1 (by simp)) fun _ => .pure _
  exact copied.mono (rest.advances proper3).2

theorem Links.copies (links : Links w home sts s s') (proper : s.builder.Proper)
    (sees : ∀ id v, w.sees? id = some v → home.program.asVariable? id = some v) : ∀ st ∈ sts, Copies home s' st := by
  have around (loop : Option LoopTargets) (nextCase : Option CaseTarget) : (home.around loop nextCase).Inside home :=
    ⟨rfl, fun _ _ found => found⟩
  have lasts (s : LowerState) : Lasting w home (fun _ => False) fun t => t.builder.Proper ∧ s.builder.Grows t.builder :=
    (Steady.grows s.builder).lasting
  have keeps {sts : List Stmt} {s s' : LowerState} (links : Links w home sts s s') (proper : s.builder.Proper) :
      s'.builder.Proper ∧ s.builder.Grows s'.builder := (lasts s).links sees links ⟨proper, .refl _⟩
  induction links with
  | trans first second ihFirst ihSecond =>
    obtain ⟨proper1, -⟩ := keeps first proper
    refine forall_mem_append.mpr ⟨fun st mem => ?_, ihSecond proper1⟩
    exact (ihFirst proper st mem).mono (keeps second proper1).2
  | piece isPiece run =>
    intro st mem
    cases isPiece with
    | declaration typed =>
      obtain rfl := mem_singleton.mp mem
      exact declaration_copies typed (sees _) (around _ _) proper run
    | assignment typed =>
      obtain rfl := mem_singleton.mp mem
      exact assignment_copies typed (around _ _) proper run
    | effect typed =>
      obtain rfl := mem_singleton.mp mem
      trivial
    | loopHead typed =>
      obtain rfl := mem_singleton.mp mem
      exact loopHead_copies typed (around _ _) proper run
    | _ => cases mem
  | framed within shut ih =>
    intro st mem
    obtain ⟨proper1, -⟩ := keeps within proper
    exact (ih proper st mem).mono ((lasts _).closeFrame (around _ _) shut ⟨proper1, .refl _⟩).2
  | returns span value typed run =>
    intro st mem
    obtain rfl := mem_singleton.mp mem
    trivial
  | _ => intro st mem; cases mem

/-! ## Stores -/

/-- What may be stored behind some code: what its last instruction has made, what was passed,
and the value of an expression of the function that no handle stands for. -/
inductive Backed (w : Outlook) (home : Env) (passed : Reg → Prop) (s : LowerState) (front : List Ir.Instr) (reg : Reg) : Prop where
  | made {i : Ir.Instr} : front.getLast? = some i → i.result = some reg → i.op.makes = true → Backed w home passed s front reg
  | passed : passed reg → Backed w home passed s front reg
  | value {u : Outlook} {e : Expr} : Varies w u → e.WellTyped u → e.ty.isHeld = false → Answered home (expr .value e) s reg → Backed w home passed s front reg

/-- Whatever is stored in some code may be. -/
def StoresBacked (w : Outlook) (home : Env) (passed : Reg → Prop) (s : LowerState) (code : List Ir.Instr) : Prop :=
  ∀ front back address value, code = front ++ ⟨none, .store address value⟩ :: back → Backed w home passed s front value

namespace StoresBacked

theorem nil : StoresBacked w home passed s [] := fun front _ _ _ same => by cases front <;> cases same

theorem mono (h : StoresBacked w home passed s code) (grows : s.builder.Grows s'.builder) : StoresBacked w home passed s' code := by
  intro front back address value same
  cases h front back address value same with
  | made last result makes => exact .made last result makes
  | passed isPassed => exact .passed isPassed
  | value varies typed plain answered => exact .value varies typed plain (answered.mono grows)

theorem snoc (h : StoresBacked w home passed s code)
    (last : ∀ address value, i = ⟨none, .store address value⟩ → Backed w home passed s code value) :
    StoresBacked w home passed s (code ++ [i]) := by
  intro front back address value same
  obtain rfl | ⟨rest, j, rfl⟩ := eq_nil_or_concat' back
  · obtain ⟨rfl, only⟩ := append_inj' same rfl
    exact last address value (singleton_inj.mp only)
  · have split : code ++ [i] = (front ++ ⟨none, .store address value⟩ :: rest) ++ [j] := by
      rw [same, append_assoc]
      rfl
    exact h front rest address value (append_inj' split rfl).1

end StoresBacked

theorem Step.eq_store {st : Step} (added : st.instr? s = some ⟨none, .store address value⟩) :
    st = .perform (.store address value) := by
  cases st with
  | perform op =>
    cases added
    rfl
  | _ => cases added

theorem Reads.backed (reads : Reads s done code t)
    (h : Storable w home passed s reg) : Backed w home passed s code reg := by
  cases h with
  | made block last result makes =>
    have same := reads.block
    rw [block] at same
    obtain ⟨rfl, -⟩ := Prod.mk.inj (Option.some.inj same)
    exact .made last result makes
  | passed isPassed => exact .passed isPassed
  | value varies typed plain answered => exact .value varies typed plain answered

def Storing (w : Outlook) (home : Env) (passed : Reg → Prop) (s : LowerState) : Prop :=
  ∃ done code t, Reads s done code t ∧ (∀ x ∈ done, StoresBacked w home passed s x.1) ∧ StoresBacked w home passed s code

theorem Storing.steady : Steady w home passed (Storing w home passed) where
  proper s h := by
    obtain ⟨done, code, t, reads, -⟩ := h
    exact reads.proper
  straight s s' moves h := by
    induction moves with
    | refl => exact h
    | @step s1 st moves sound ih =>
      obtain ⟨done, code, t, reads, backed, here⟩ := ih
      have grows : s1.builder.Grows (st.play s1).builder := (st.play_advances sound.noSlot reads.proper).2
      refine ⟨done, _, t, reads.step st sound.noSlot, fun x mem => (backed x mem).mono grows, ?_⟩
      cases added : st.instr? s1 with
      | none => simpa using here.mono grows
      | some i =>
        refine (here.snoc fun address value same => ?_).mono grows
        have isStore : st = .perform (.store address value) := Step.eq_store (added.trans (congrArg some same))
        exact reads.backed (sound.store address value isStore)
  create s label h := by
    obtain ⟨done, code, t, reads, backed, here⟩ := h
    have grows := (advances_createBlock label reads.proper).2
    exact ⟨done, code, t, reads.create label, fun x mem => (backed x mem).mono grows, here.mono grows⟩
  enter s id h := by
    obtain ⟨done, code, t, reads, backed, here⟩ := h
    have grows := (advances_setBlock id reads.proper).2
    refine ⟨_, [], none, reads.enter id, forall_mem_append.mpr ⟨fun x mem => (backed x mem).mono grows, ?_⟩, .nil⟩
    exact forall_mem_singleton.mpr (here.mono grows)
  finish s t h := by
    obtain ⟨done, code, t', reads, backed, here⟩ := h
    have grows := (advances_terminate t reads.proper).2
    exact ⟨done, code, _, reads.finish t, fun x mem => (backed x mem).mono grows, here.mono grows⟩
  tidy s step h := by
    obtain ⟨done, code, t, reads, backed, here⟩ := h
    have grows : s.builder.Grows (s.tidy step).builder := .refl _
    exact ⟨done, code, t, reads.tidy step, fun x mem => (backed x mem).mono grows, here.mono grows⟩

/-! ## Parameters -/

/-- The register is a parameter that is passed by value and is no string. -/
def PassedPlain (params : List ParamInfo) (reg : Reg) : Prop :=
  ∃ q ∈ params.zip (List.range params.length), q.2 = reg ∧ q.1.byRef = false ∧ q.1.type.isString = false

/-- The slot of a variable gets a copy of the string in a register. -/
def Clones (slots : List (SymbolId × Reg)) (s : LowerState) (id : SymbolId) (reg : Reg) : Prop :=
  ∃ slot copy, (id, slot) ∈ slots ∧ ∃ c ∈ s.builder.entered,
    [⟨some copy, .call "__rt_string_clone" [reg]⟩, ⟨none, .store slot copy⟩] <:+: c.code

theorem Clones.mono {slots slots' : List (SymbolId × Reg)} {id : SymbolId} (h : Clones slots s id reg)
    (more : slots ⊆ slots') (grows : s.builder.Grows s'.builder) : Clones slots' s' id reg := by
  obtain ⟨slot, copy, mem, c, entered, copied⟩ := h
  obtain ⟨d, entered', evolves⟩ := grows.entered entered
  exact ⟨slot, copy, more mem, d, entered', copied.trans evolves.code.isInfix⟩

theorem paramSlot_clones (w : Outlook) (byValue : q.byRef = false) (isString : q.type.isString = true) (proper : s.builder.Proper)
    (run : paramSlot q reg env s = .ok (slot, s')) : Clones [(q.id, slot)] s' q.id reg := by
  let type := irType env.program.types q.type
  let place := (s.builder.alloca type).1
  let clone : Step := .emit (.call "__rt_string_clone" [reg])
  let copy := ((Step.slot type).play s).builder.nextReg
  let store : Step := .perform (.store place copy)
  simp only [paramSlot, byValue, isString, Bool.false_eq_true, if_false, if_true] at run
  have run : (registerSlot place q.type >>= fun _ => pure place) env (store.play (clone.play ((Step.slot type).play s))) =
    .ok (slot, s') := run
  obtain ⟨_, s1, noted, answered⟩ := bind_ok.mp run
  obtain ⟨rfl, rfl⟩ := pure_ok.mp answered
  -- The two instructions are the last ones where the release of the slot is noted.
  obtain ⟨done, code, t, reads⟩ := Reads.of_proper proper
  have copied := ((reads.step (.slot type) trivial).step clone rfl).step store rfl
  obtain ⟨c, block, same⟩ := Option.map_eq_some_iff.mp copied.block
  have below : place < ((Step.slot type).play s).builder.nextReg := by
    change _ < (s.builder.alloca type).2.nextReg
    rw [alloca_nextReg, show place = _ from s.builder.alloca_fst type]
    exact Nat.lt_succ_self _
  have last : Straight w env (fun _ => True) _ s' := .registerSlot (Nat.lt_succ_of_lt below) noted
  refine Clones.mono ⟨place, copy, mem_singleton_self _, c, mem_entered_of_block block, ?_⟩
    (Subset.refl _) (last.advances copied.proper).2
  rw [show c.code = _ from congrArg Prod.fst same]
  rw [append_assoc]
  exact (suffix_append _ _).isInfix

theorem paramSlots_clones (w : Outlook) (proper : s.builder.Proper) (run : paramSlots qs env s = .ok (slots, s')) :
    ∀ q ∈ qs, q.1.byRef = false → q.1.type.isString = true → Clones slots s' q.1.id q.2 := by
  induction qs generalizing s slots with
  | nil => simp
  | cons q qs ih =>
    obtain ⟨slot, s1, first, run⟩ := bind_ok.mp run
    obtain ⟨rest, s2, later, answered⟩ := bind_ok.mp run
    cases answered
    have inside : env.Inside env := ⟨rfl, fun _ _ found => found⟩
    have straight1 : Straight w env (fun _ => True) s s1 :=
      Plays.paramSlot (fun _ _ => trivial) env s slot s1 inside proper first
    have proper1 := (straight1.advances proper).1
    have straight2 : Straight w env (fun _ => True) s1 s' :=
      Plays.paramSlots (fun _ _ _ _ => trivial) env s1 rest s' inside proper1 later
    intro q' mem byValue isString
    obtain rfl | mem := mem_cons.mp mem
    · exact (paramSlot_clones w byValue isString proper first).mono (by simp) (straight2.advances proper1).2
    · exact (ih proper1 later q' mem byValue isString).mono (subset_cons_self _ _) (.refl _)

/-! ## Functions -/

theorem lowerFunction_copies (typed : f.WellTyped p) (run : lowerFunction p b f isMain = .ok s') :
    ∃ home params, home.IsHome p f isMain ∧ paramInfos p f.span f.params = .ok params ∧
      (∀ c ∈ s'.builder.entered, StoresBacked (p.outlook f) home (PassedPlain params) s' c.code) ∧
      (∀ st ∈ f.body.parts, Copies home s' st) ∧
      ∀ q ∈ params.zip (range params.length), q.1.byRef = false → q.1.type.isString = true →
        Clones home.slots s' q.1.id q.2 := by
  obtain ⟨home, params, s0, s1, s2, s3, stages, ended⟩ := lowerFunction_stages typed run
  have inside : home.Inside home := ⟨rfl, fun _ _ found => found⟩
  have isPassed : ∀ q ∈ params.zip (range params.length), q.1.byRef = false → q.1.type.isString = false →
      PassedPlain params q.2 := fun q mem byValue plain => ⟨q, mem, rfl, byValue, plain⟩
  have typedEnd : ∀ e ∈ f.endValue, e.WellTyped (p.outlook f) := fun e mem => (typed.endValue e mem).1.1
  have grows (s : LowerState) :
      Steady (p.outlook f) home (PassedPlain params) fun t => t.builder.Proper ∧ s.builder.Grows t.builder := .grows s.builder
  have proper0 := stages.start.proper
  obtain ⟨proper1, -⟩ := stages.entry (grows s0).lasting isPassed ⟨proper0, .refl _⟩
  obtain ⟨⟨properNamed, -⟩, proper3, grows3⟩ := stages.body (grows s1).lasting ⟨proper1, .refl _⟩
  obtain ⟨-, grows'⟩ := (grows s3).endOfFunction typedEnd inside ended ⟨proper3, .refl _⟩
  refine ⟨home, params, stages.isHome, stages.infos, ?_, ?_, ?_⟩
  · have steady : Steady (p.outlook f) home (PassedPlain params) (Storing (p.outlook f) home (PassedPlain params)) := Storing.steady
    have before : Storing (p.outlook f) home (PassedPlain params) s0 := ⟨[], [], none, stages.start, by simp, .nil⟩
    have after := (stages.body steady.lasting (stages.entry steady.lasting isPassed before)).2
    obtain ⟨done, code, t, reads, backed, here⟩ := steady.endOfFunction typedEnd inside ended after
    intro c mem
    have inText := mem_map_of_mem (f := Ir.Block.text) mem
    rw [reads.entered] at inText
    obtain mem | mem := mem_append.mp inText
    · exact backed _ mem
    · rw [show c.code = code from congrArg Prod.fst (mem_singleton.mp mem)]
      exact here
  · exact fun st mem => (stages.links.copies properNamed stages.sees st mem).mono grows'
  · intro q mem byValue isString
    obtain ⟨slots, slots', same, atParams, -⟩ := stages.slots
    rw [same]
    have pushed : (s0.tidy (·.pushFrame)).builder.Proper := proper0
    have cloned := paramSlots_clones (p.outlook f) pushed atParams q mem byValue isString
    exact cloned.mono (subset_append_left _ _) (grows3.trans grows')

end Lowering

end BasicCompiler
