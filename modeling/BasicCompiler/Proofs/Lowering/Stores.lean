/-
# What is stored without being copied

A store puts a register into a place as it is.
-/
import BasicCompiler.Proofs.Lowering.Links

namespace BasicCompiler

open Ir (BlockId Reg)
open Lowering.Lower Typed

/-- Whether an operation gives something that nothing else holds: nothing at all, a copy of a
string, a new array, or a number or a vector that it computes. -/
def Ir.Op.makes : Ir.Op → Bool
  | .const .zero _ | .binary _ _ _ | .insert _ _ _ => true
  | .call callee _ => callee = "__rt_string_clone" || callee = "__rt_array_new"
  | _ => false

namespace Lowering

open Lower
open Typed (Outlook)

variable {w : Outlook} {passed : Reg → Prop} {s : LowerState}

/-- The outlook of a function, whatever it assigns to at the moment. -/
def Varies (w u : Outlook) : Prop := ∃ target?, u = { w with target? }

/-- What may be stored as it is. A value that is, is that of an expression that the function can
evaluate and whose type is neither a string nor an array. -/
inductive Storable (w : Outlook) (home : Env) (passed : Reg → Prop) (s : LowerState) (reg : Reg) : Prop where
  | made {c : Ir.Block} {i : Ir.Instr} : s.builder.block = some c → c.code.getLast? = some i →
      i.result = some reg → i.op.makes = true → Storable w home passed s reg
  | passed : passed reg → Storable w home passed s reg
  | value {u : Outlook} {e : Expr} : Varies w u → e.WellTyped u → e.ty.isHeld = false → Answered home (expr .value e) s reg → Storable w home passed s reg

theorem Storable.emitted (proper : s.builder.Proper) (makes : op.makes = true)
    (noSlot : (Ir.Instr.mk none op).isSlot = false) :
    Storable w home passed (s.edit fun b => (b.emit op).2) s.builder.nextReg := by
  obtain ⟨c, block⟩ := proper.block
  have pushed : (s.edit fun b => (b.emit op).2).builder.block = some (c.push ⟨some s.builder.nextReg, op⟩) := by
    change s.builder.block.map _ = _
    rw [block]
    rfl
  refine .made (i := ⟨some s.builder.nextReg, op⟩) pushed ?_ rfl makes
  rw [Ir.Block.code_push (i := ⟨some s.builder.nextReg, op⟩) noSlot, List.getLast?_concat]

/-! ## Code without branches -/

/-- What a step may be: no slot as an instruction, no store but of what may be stored, and no
note but of a register that there is. -/
structure Step.Sound (w : Outlook) (home : Env) (passed : Reg → Prop) (s : LowerState) (st : Step) : Prop where
  noSlot : st.NoSlot
  store : ∀ address value, st = .perform (.store address value) → Storable w home passed s value
  note : ∀ owned place, st = .note owned place → place < s.builder.nextReg

abbrev Straight (w : Outlook) (home : Env) (passed : Reg → Prop) : LowerState → LowerState → Prop := Played (Step.Sound w home passed)

namespace Straight

theorem advances (h : Straight w home passed s s') : s.builder.Advances s'.builder :=
  Played.advances h fun _ _ sound => sound.noSlot

theorem trans (h : Straight w home passed s s1) (h' : Straight w home passed s1 s') : Straight w home passed s s' :=
  Played.trans h h'

theorem emit (noSlot : (Ir.Instr.mk none op).isSlot = false)
    (run : emit op env s = .ok (reg, s')) : Straight w home passed s s' := by
  cases run
  exact .one (.emit op) ⟨noSlot, by simp, by simp⟩

theorem perform (noSlot : (Ir.Instr.mk none op).isSlot = false)
    (backed : ∀ address value, op = .store address value → Storable w home passed s value)
    (run : perform op env s = .ok ((), s')) : Straight w home passed s s' := by
  cases run
  refine .one (.perform op) ⟨noSlot, fun address value same => ?_, by simp⟩
  exact backed address value (Step.perform.inj same)

theorem storeValue (backed : ty.isHeld = false → Storable w home passed s value)
    (run : Lower.storeValue address value ty env s = .ok ((), s')) : Straight w home passed s s' := by
  unfold Lower.storeValue at run
  split at run
  · exact perform rfl (by simp) run
  · next notString =>
    split at run
    · exact perform rfl (by simp) run
    · next notArray =>
      refine perform rfl (fun _ _ same => ?_) run
      obtain ⟨-, rfl⟩ := Ir.Op.store.inj same
      exact backed (by simp [Ty.isHeld, notString, notArray])

end Straight

def Plays (w : Outlook) (home : Env) (passed : Reg → Prop) (m : Lower α) : Prop :=
  ∀ env s a s', env.Inside home → s.builder.Proper → m env s = .ok (a, s') → Straight w home passed s s'

namespace Plays

variable {m : Lower α}

/-! ## Rules -/

theorem pure (a : α) : Plays w home passed (Pure.pure a) := by
  intro env s b s' _ _ run
  cases run
  exact .refl _

theorem fail : Plays w home passed (fail fault span : Lower α) := fun _ _ _ _ _ _ run => (fail_ok.mp run).elim

theorem bind (first : Plays w home passed m) (second : ∀ a, Plays w home passed (f a)) : Plays w home passed (m >>= f) := by
  intro env s b s' inside proper run
  obtain ⟨a, s1, run1, run2⟩ := bind_ok.mp run
  have straight := first env s a s1 inside proper run1
  exact straight.trans (second a env s1 b s' inside (straight.advances proper).1 run2)

theorem read (h : ∀ env, Plays w home passed (f env)) : Plays w home passed (MonadReader.read >>= f) :=
  fun env => h env env

theorem types (h : ∀ table, Plays w home passed (f table)) : Plays w home passed (types >>= f) :=
  fun env => h env.program.types env

theorem typeOf (h : ∀ type, Plays w home passed (f type)) : Plays w home passed (typeOf ty >>= f) :=
  fun env => h (irType env.program.types ty) env

theorem emit (noSlot : (Ir.Instr.mk none op).isSlot = false) : Plays w home passed (emit op) :=
  fun _ _ _ _ _ _ run => .emit noSlot run

theorem callVoid : Plays w home passed (callVoid callee args) := fun _ _ _ _ _ _ run => .perform rfl (by simp) run

abbrev plain (w : Outlook) : Terms := .typed (Varies w) (fun _ => True) False

theorem made [Regs α] (regs : List Reg) (made : Made (plain w) regs m) : Plays w home passed m := by
  intro env s a s' inside proper run
  have suits : (plain w).Suits home fun _ => True := ⟨fun _ _ _ _ _ => trivial, fun _ _ _ => trivial⟩
  have midway : Midway home (fun _ => True) s regs env s :=
    ⟨inside, fun _ _ => .inl trivial, fun _ _ => .inl trivial, Nat.le_refl _, .refl _⟩
  refine (made.played suits midway run).1.mono fun s1 st admits => ⟨admits.noSlot, ?_, ?_⟩
  · rintro address value rfl
    obtain - | - | - | - | - | - | - | ⟨never | ⟨e, asked, answered⟩, -, -⟩ := admits
    · exact never.elim
    · obtain ⟨⟨u, varies, typed⟩, isPlain⟩ := asked
      exact .value varies typed (isPlain rfl) (answered proper)
  · rintro owned place rfl
    cases admits with
    | note never => exact never.elim

theorem slot (type : Ir.Ty) : Plays w home passed (build (·.alloca type)) := made [] (.slot type)

theorem castWith : Plays w home passed (castWith kind reg type) := made [reg] (.castWith (by simp))

theorem varAddress {id : SymbolId} (seen : w.sees? id = some v) : Plays w home passed (varAddress id) := made [] (.locate id ⟨w, v, ⟨_, rfl⟩, seen⟩)

theorem calleeWithArgs (callee : Callee) (regs : List Reg) : Plays w home passed (calleeWithArgs callee regs) := by
  refine read fun env => ?_
  cases callee with
  | function id => exact pure _
  | command index =>
    dsimp only
    split
    · exact bind (made regs (.commandArgs _ (List.Subset.refl _))) fun _ => pure _
    · exact pure _

theorem expr (want : Want) (e : Expr) (typed : e.WellTyped w) (plain : want = .slot → e.ty.isHeld = false) :
    Plays w home passed (expr want e) :=
  made [] (.expr Terms.typed_hereditary want e ⟨⟨w, ⟨_, rfl⟩, typed⟩, plain⟩ _)

theorem arguments (args : List Arg) (params : List Param) (typed : Arg.WellTypedAll w params args) :
    Plays w home passed (arguments args) :=
  made [] (.arguments Terms.typed_hereditary args (Terms.typed_passesAll (w := w) ⟨_, rfl⟩ typed) _)

/-! ## Statements -/

theorem storeMade (makes : op.makes = true) (noSlot : (Ir.Instr.mk none op).isSlot = false) :
    Plays w home passed (do
      let made ← Lower.emit op
      Lower.perform (.store address made)) := by
  intro env s _ s' inside proper run
  obtain ⟨made, s1, emitted, stored⟩ := bind_ok.mp run
  refine (Straight.emit noSlot emitted).trans (.perform rfl (fun _ _ same => ?_) stored)
  obtain ⟨-, rfl⟩ := Ir.Op.store.inj same
  cases emitted
  exact .emitted proper makes noSlot

theorem dim (address : Reg) (ty : Ty) (typed : size.WellTyped w) :
    Plays w home passed (Lower.dim address ty size) := by
  unfold Lower.dim
  split
  · exact fail
  · refine bind (expr .value size typed (by simp)) fun _ => types fun _ => bind (emit rfl) fun _ => ?_
    exact bind (emit rfl) fun _ => bind callVoid fun _ => storeMade rfl rfl

theorem storeOf (plays : Plays w home passed value) (varies : Varies w u) (typed : e.WellTyped u)
    (isValue : ∀ env s reg s', env.Inside home → value env s = .ok (reg, s') → Answered home (Lower.expr .value e) s' reg)
    (sameType : e.ty = ty) : Plays w home passed (do
      let reg ← value
      Lower.storeValue address reg ty) := by
  intro env s _ s' inside proper run
  obtain ⟨reg, s1, evaluated, stored⟩ := bind_ok.mp run
  refine (plays env s reg s1 inside proper evaluated).trans (.storeValue (fun plain => ?_) stored)
  exact .value varies typed (sameType ▸ plain) (isValue env s reg s1 inside evaluated)

theorem declaration {id : SymbolId} {size init : Option Expr} (typed : (Stmt.declare span id size init).WellTyped w)
    (sees : ∀ v, w.sees? id = some v → home.program.asVariable? id = some v) :
    Plays w home passed (Lower.declaration span id size init) := by
  obtain ⟨v, seen, typedSize, typedInit⟩ := typed
  intro env s _ s' inside proper run
  rw [Lower.declaration, read_bind, inside.1, sees v seen] at run
  refine bind (varAddress seen) (fun address => ?_) env s _ s' inside proper run
  have filled (init : Expr) (typed : init.WellTypedAs w v.type) : Plays w home passed (do
      let value ← Lower.expr .value init
      Lower.storeValue address value v.type) :=
    storeOf (expr .value init typed.1 (by simp)) ⟨_, rfl⟩ typed.1 (fun _ _ _ _ inside run => .here inside run) typed.2
  cases size with
  | none =>
    cases init with
    | none => exact pure ()
    | some init => exact filled init (typedInit init rfl)
  | some size =>
    refine bind (dim address v.type (typedSize size rfl).1) fun _ => ?_
    cases init with
    | none => exact pure ()
    | some init => exact filled init (typedInit init rfl)

theorem assignedValue (address : Reg) (typed : value.WellTyped (w.assigning target)) :
    Plays w home passed (assignedValue address value) :=
  fun env s reg s' inside proper run =>
    made [] (.expr Terms.typed_hereditary .value value ⟨⟨_, ⟨_, rfl⟩, typed⟩, by simp⟩ _)
      { env with target := some address } s reg s' inside proper run

theorem storeLanes (nonempty : axes ≠ []) :
    Plays w home passed (do
      let vector ← Lower.insertLanes value isSingle lane vector axes
      Lower.perform (.store address vector)) := by
  induction axes generalizing lane vector with
  | nil => exact absurd rfl nonempty
  | cons axis axes ih =>
    intro env s _ s' inside proper run
    obtain ⟨changed, s1, inserted, stored⟩ := bind_ok.mp run
    have parts : ∃ component s2, Straight w home passed s s2 ∧ (do
        let vector ← Lower.emit (.insert vector component axis)
        Lower.insertLanes value isSingle (lane + 1) vector axes) env s2 = .ok (changed, s1) := by
      cases isSingle with
      | true => exact ⟨value, s, .refl s, inserted⟩
      | false =>
        obtain ⟨component, s2, picked, rest⟩ := bind_ok.mp inserted
        exact ⟨component, s2, .emit rfl picked, rest⟩
    obtain ⟨component, s2, first, inserted⟩ := parts
    obtain ⟨next, s3, put, rest⟩ := bind_ok.mp inserted
    have proper2 := (first.advances proper).1
    cases axes with
    | nil =>
      cases rest
      exact first.trans (storeMade rfl rfl env s2 _ s' inside proper2 (bind_ok.mpr ⟨_, _, put, stored⟩))
    | cons axis' axes =>
      have second : Straight w home passed s2 s3 := .emit rfl put
      have last := ih (List.cons_ne_nil _ _) env s3 _ s' inside (second.advances proper2).1
        (bind_ok.mpr ⟨_, _, rest, stored⟩)
      exact (first.trans second).trans last

theorem axes_ne_nil (picks : Picks base result axes) : axes ≠ [] := by
  rintro rfl
  obtain ⟨t, r, -, -, made, -⟩ := picks
  unfold vectorOf? at made
  split at made <;> simp_all

theorem picked_number (picks : Picks base result axes) :
    ∃ t, result = .builtin t ∧ (t.isSimd || t.isNumeric) = true := by
  obtain ⟨t, r, isVector, -, made, rfl⟩ := picks
  have isSimd : t.isSimd = true := (Bool.and_eq_true_iff.mp (Option.filter_eq_some_iff.mp isVector).2).1
  refine ⟨r, rfl, ?_⟩
  unfold vectorOf? at made
  split at made
  · obtain rfl := Option.some.inj made
    cases t <;> first | rfl | cases isSimd
  all_goals first | cases made; rfl | cases made

theorem assignment
    (typed : (Stmt.assign span target value).WellTyped w) : Plays w home passed (Lower.assignment target value) := by
  obtain ⟨typedTarget, -, typedValue, sameType⟩ := typed
  unfold Lower.assignment
  split
  next info base axes =>
    obtain ⟨typedBase, picks⟩ := typedTarget
    refine bind (expr .address base typedBase (by simp)) fun address => bind (assignedValue address typedValue) fun _ => ?_
    exact typeOf fun _ => bind (emit rfl) fun _ => storeLanes (axes_ne_nil picks)
  next =>
    refine bind (expr .address target typedTarget (by simp)) fun address => ?_
    refine storeOf (assignedValue address typedValue) ⟨_, rfl⟩ typedValue (fun env s reg s' inside run => ?_) sameType
    exact ⟨{ env with target := some address }, s, s', inside, run, .refl _⟩

/-! ## Parts of selections and loops -/

theorem advance (address current step : Reg) (ty : Ty) : Plays w home passed (Lower.advance address current step ty) := by
  unfold Lower.advance
  split
  · exact bind (emit rfl) fun _ => bind callVoid fun _ => callVoid
  · exact storeMade rfl rfl

theorem loopHead (typed : (Stmt.forLoop span var start bound inclusive step body).WellTyped w) :
    Plays w home passed (Lower.loopHead var start bound step) := by
  obtain ⟨⟨typedVar, -, -⟩, typedStart, typedBound, typedStep, -⟩ := typed
  have begun (address : Reg) : Plays w home passed (do
      let first ← Lower.expr .value start
      Lower.storeValue address first var.ty) :=
    storeOf (expr .value start typedStart.1 (by simp)) ⟨_, rfl⟩ typedStart.1 (fun _ _ _ _ inside run => .here inside run) typedStart.2
  refine bind (expr .address var typedVar (by simp)) fun address => ?_
  intro env s a s' inside proper run
  obtain ⟨first, s1, started, run⟩ := bind_ok.mp run
  obtain ⟨_, s2, stored, run⟩ := bind_ok.mp run
  have front := begun address env s _ s2 inside proper (bind_ok.mpr ⟨first, s1, started, stored⟩)
  refine front.trans (bind (expr .value bound typedBound.1 (by simp)) (fun limit => ?_) env s2 a s' inside
    (front.advances proper).1 run)
  cases step with
  | none => exact bind (made [] (.one var.ty)) fun _ => pure _
  | some step => exact bind (expr .value step (typedStep step rfl).1 (by simp)) fun _ => pure _

theorem piece (isPiece : Piece w sts m) (sees : ∀ id v, w.sees? id = some v → home.program.asVariable? id = some v) :
    Plays w home passed m := by
  cases isPiece with
  | declaration typed => exact declaration typed (sees _)
  | assignment typed => exact assignment typed
  | effect typed => exact made [] (.effect Terms.typed_hereditary ⟨⟨w, ⟨_, rfl⟩, typed⟩, by simp⟩)
  | loopHead typed => exact loopHead typed
  | value typed => exact expr .value _ typed (by simp)
  | @equalsAny reg _ _ _ typed =>
    have asked : ∀ e ∈ _, (plain w).evaluates .value e := Terms.typed_evaluatesAll (w := w) ⟨_, rfl⟩ typed
    exact made [reg] (.equalsAny Terms.typed_hereditary asked (by simp) (by simp))
  | atBound address bound ty => exact made [address, bound] (.atBound (by simp) (by simp))
  | current address type => exact emit rfl
  | advance address current step ty => exact advance address current step ty
  | ending => exact callVoid

theorem emitCleanups (cs : List Cleanup) : Plays w home passed (emitCleanups cs) := made _ (.released cs)

end Plays

/-! ## The beginning of a function -/

namespace Straight

theorem register (below : place < s.builder.nextReg) (run : register (.slot owned place) env s = .ok ((), s')) :
    Straight w home passed s s' := by
  cases run
  refine .one (.note owned place) ⟨trivial, by simp, fun _ _ same => ?_⟩
  obtain ⟨-, rfl⟩ := Step.note.inj same
  exact below

theorem registerMembers
    (each : ∀ s s' field ty, field < s.builder.nextReg → registerField field ty env s = .ok ((), s') → Straight w home passed s s')
    (run : registerMembers table registerField slot index members env s = .ok ((), s')) :
    Straight w home passed s s' := by
  induction members generalizing index s with
  | nil =>
    cases run
    exact .refl _
  | cons m rest ih =>
    unfold registerMembers at run
    split at run
    · obtain ⟨field, s1, found, run⟩ := bind_ok.mp run
      obtain ⟨_, s2, noted, later⟩ := bind_ok.mp run
      have front : Straight w home passed s s1 := emit rfl found
      cases found
      exact (front.trans (each _ s2 _ m.type (Nat.lt_succ_self _) noted)).trans (ih later)
    · exact ih run

theorem registerSlotWithin {depth : Nat} (below : slot < s.builder.nextReg)
    (run : registerSlotWithin table depth slot ty env s = .ok ((), s')) : Straight w home passed s s' := by
  induction depth using Nat.strongRecOn generalizing s s' slot ty with
  | ind depth ih =>
    obtain ⟨owned, same, -⟩ | same | ⟨inner, id, rfl, same, -⟩ := registerSlotWithin_cases table depth slot ty
    · exact register below (same ▸ run)
    · cases same ▸ run
      exact .refl _
    · exact registerMembers (fun _ _ _ _ => ih inner (Nat.lt_succ_self _)) (same ▸ run)

theorem registerSlot (below : slot < s.builder.nextReg)
    (run : registerSlot slot ty env s = .ok ((), s')) : Straight w home passed s s' :=
  registerSlotWithin below run

end Straight

namespace Plays

theorem filledSlot {type : Ir.Ty} {place made : Reg} (makes : op.makes = true)
    (noSlot : (Ir.Instr.mk none op).isSlot = false) (inside : env.Inside home) (proper : s.builder.Proper)
    (allocated : build (·.alloca type) env s = .ok (place, s1)) (emitted : Lower.emit op env s1 = .ok (made, s2))
    (stored : perform (.store place made) env s2 = .ok ((), s3)) (noted : registerSlot place ty env s3 = .ok ((), s4)) :
    Straight w home passed s s4 := by
  have first : Straight w home passed s s1 := slot type env s place s1 inside proper allocated
  have second : Straight w home passed s1 s3 :=
    storeMade makes noSlot env s1 _ s3 inside (first.advances proper).1 (bind_ok.mpr ⟨made, s2, emitted, stored⟩)
  have below : place < s3.builder.nextReg := by
    refine Nat.lt_of_lt_of_le ?_ second.nextReg_le
    obtain ⟨rfl, rfl⟩ := build_ok.mp allocated
    rw [Ir.Builder.alloca_fst, LowerState.edit_builder, Ir.Builder.alloca_nextReg]
    exact Nat.lt_succ_self _
  exact (first.trans second).trans (.registerSlot below noted)

theorem paramSlot {q : ParamInfo} (isPassed : q.byRef = false → q.type.isString = false → passed reg) :
    Plays w home passed (Lower.paramSlot q reg) := by
  unfold Lower.paramSlot
  cases byRef : q.byRef with
  | true => exact pure reg
  | false =>
    refine typeOf fun type => ?_
    intro env s a s' inside proper run
    obtain ⟨place, s1, allocated, run⟩ := bind_ok.mp run
    cases isString : q.type.isString with
    | true =>
      rw [isString] at run
      obtain ⟨copy, s2, cloned, run⟩ := bind_ok.mp run
      obtain ⟨_, s3, stored, run⟩ := bind_ok.mp run
      obtain ⟨_, s4, noted, run⟩ := bind_ok.mp run
      cases run
      exact filledSlot rfl rfl inside proper allocated cloned stored noted
    | false =>
      rw [isString] at run
      obtain ⟨_, s2, stored, run⟩ := bind_ok.mp run
      obtain ⟨-, rfl⟩ := pure_ok.mp run
      refine (slot type env s place s1 inside proper allocated).trans (.perform rfl (fun _ _ same => ?_) stored)
      obtain ⟨-, rfl⟩ := Ir.Op.store.inj same
      exact .passed (isPassed byRef isString)

theorem paramSlots (isPassed : ∀ q ∈ params, q.1.byRef = false → q.1.type.isString = false → passed q.2) :
    Plays w home passed (paramSlots params) := by
  induction params with
  | nil => exact pure []
  | cons q rest ih =>
    refine bind (paramSlot (isPassed q List.mem_cons_self)) fun _ => ?_
    exact bind (ih fun q mem => isPassed q (List.mem_cons_of_mem _ mem)) fun _ => pure _

theorem localSlots (ids : List SymbolId) : Plays w home passed (Lower.localSlots ids) := by
  induction ids with
  | nil => exact pure []
  | cons id rest ih =>
    refine read fun e => ?_
    split
    · exact ih
    next v _ =>
      refine typeOf fun type => ?_
      intro env s a s' inside proper run
      obtain ⟨place, s1, allocated, run⟩ := bind_ok.mp run
      obtain ⟨nought, s2, zero, run⟩ := bind_ok.mp run
      obtain ⟨_, s3, stored, run⟩ := bind_ok.mp run
      obtain ⟨_, s4, noted, run⟩ := bind_ok.mp run
      have front : Straight w home passed s s4 := filledSlot rfl rfl inside proper allocated zero stored noted
      exact front.trans (bind ih (fun _ => pure _) env s4 a s' inside (front.advances proper).1 run)

end Plays

end Lowering

end BasicCompiler
