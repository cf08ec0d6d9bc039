/-
# Every statement ends where the lowering stands

By induction over the statements: whatever surrounds a statement, its lowering ends in an open block, every block that
it created has been entered, and so have the blocks of the labels in it.
-/
import BasicCompiler.Proofs.Lowering.Placing

namespace BasicCompiler.Lowering

open List Lower Typed Ir.Builder LowerState
open Ir (BlockId Reg)
open Lower

variable {labels : List BlockId}

def labelIds (table : List (SymbolId × BlockId)) (ids : List SymbolId) : List BlockId :=
  ids.filterMap fun id => table.lookup id

theorem labelIds_append (ids ids' : List SymbolId) :
    labelIds table (ids ++ ids') = labelIds table ids ++ labelIds table ids' :=
  filterMap_append

/-- The blocks of labels are all different, and none has been entered. -/
structure Unplaced (table : List (SymbolId × BlockId)) (s : LowerState) (ids : List SymbolId) :
    Prop where
  nodup : (labelIds table ids).Nodup
  pending : ∀ id ∈ labelIds table ids, s.builder.Pending id

/-- Wherever a piece is lowered, it ends where the lowering stands and has entered the
blocks of its labels. -/
def Places (labels : List BlockId) (table : List (SymbolId × BlockId)) (ids : List SymbolId)
    (m : Lower Unit) : Prop :=
  ∀ env filled s s', env.labels = table → Stands labels env filled s → Unplaced table s ids →
    m env s = .ok ((), s') → ∃ filled', Passes labels env (labelIds table ids) filled s filled' s'

namespace Unplaced

theorem of_pending (h : Unplaced table s ids)
    (kept : ∀ id, s.builder.Pending id → id ∈ labelIds table ids → s'.builder.Pending id) : Unplaced table s' ids :=
  ⟨h.nodup, fun id mem => kept id (h.pending id mem) mem⟩

section

variable (h : Unplaced table s (ids ++ ids'))
include h

theorem left : Unplaced table s ids := by
  obtain ⟨nodup, pending⟩ := h
  rw [labelIds_append] at nodup pending
  exact ⟨(nodup_append.mp nodup).1, fun id mem => pending id (mem_append_left _ mem)⟩

theorem right (kept : ∀ id, s.builder.Pending id → id ∉ labelIds table ids → s'.builder.Pending id) :
    Unplaced table s' ids' := by
  obtain ⟨nodup, pending⟩ := h
  rw [labelIds_append] at nodup pending
  obtain ⟨-, nodup', apart⟩ := nodup_append.mp nodup
  refine ⟨nodup', fun id mem => kept id (pending id (mem_append_right _ mem)) fun mem' => ?_⟩
  exact apart id mem' id mem rfl

theorem apart (apart : ∀ id ∈ labelIds table ids', id ∉ gone) :
    ∀ id ∈ labelIds table ids', id ∉ gone ++ labelIds table ids := by
  have nodup := h.nodup
  rw [labelIds_append] at nodup
  intro id mem entered
  rcases mem_append.mp entered with before | here
  · exact apart id mem before
  · exact (nodup_append.mp nodup).2.2 id here id mem rfl

end

end Unplaced

namespace Places

theorem straight (made : Made .any [] m) : Places labels table [] m := by
  intro env filled s s' _ base _ run
  exact ⟨filled, (base.straight made (by simp) run).1⟩

/-! ## Loops -/

variable {blocks : List BlockId}

theorem mem_created (n k i : Nat) (below : i < k := by decide) : n + i ∈ range' n k :=
  mem_range'_1.mpr ⟨Nat.le_add_right n i, Nat.add_lt_add_left below n⟩

theorem labelIds_subset (base : Stands labels env filled s) (same : env.labels = table) :
    labelIds table ids ⊆ labels := by
  intro id mem
  obtain ⟨symbol, -, found⟩ := mem_filterMap.mp mem
  obtain ⟨front, back, split, -⟩ := lookup_eq_some_iff.mp found
  exact base.jumps (symbol, id) (by rw [same, split]; simp)

theorem unplaced_within (unplaced : Unplaced table s0 ids)
    (within : Within labels filled0 s0 blocks todo gone filled s)
    (apart : ∀ id ∈ labelIds table ids, id ∉ gone) : Unplaced table s ids :=
  unplaced.of_pending fun id pending mem => (within.pending id).mpr (.inl ⟨pending, apart id mem⟩)

theorem part (env' : Env) (inside : Places labels table ids m) (balanced : Balanced m) (same : env.labels = table)
    (same' : env'.labels = env.labels) (base : Stands labels env filled0 s0) (unplaced : Unplaced table s0 ids)
    (within : Within labels filled0 s0 blocks todo gone filled s) (apart : ∀ id ∈ labelIds table ids, id ∉ gone)
    (stands : Stands labels env' filled s) (run : m env' s = .ok ((), s')) :
    ∃ filled', Within labels filled0 s0 blocks todo (gone ++ labelIds table ids) filled' s' ∧
      s'.builder.IsOpen ∧ Moves labels filled s filled' s' := by
  obtain ⟨filled', passes⟩ := inside env' filled s s' (same'.trans same) stands
    (unplaced_within unplaced within apart) run
  exact ⟨filled', within.after passes (labelIds_subset base same) (balanced _ _ _ _ run),
    passes.stands.isOpen, passes.moves⟩

section

variable (inside : Places labels table ids body) (balanced : Balanced body)
include inside balanced

theorem loopBody {depth : Nat}
    (same : env.labels = table) (base : Stands labels env filled0 s0) (unplaced : Unplaced table s0 ids)
    (within : Within labels filled0 s0 blocks (first :: todo) [] filled s) (first_mem : first ∈ blocks)
    (onExit_mem : onExit ∈ blocks) (onContinue_mem : onContinue ∈ blocks)
    (run : body { env with loop := some ⟨onExit, onContinue, depth⟩ } (s.enter first) = .ok ((), s')) :
    ∃ filled', Within labels filled0 s0 blocks todo (labelIds table ids) filled' s' ∧
      s'.builder.IsOpen ∧ Moves labels filled (s.enter first) filled' s' := by
  obtain ⟨within, isOpen⟩ := within.resume [] first_mem
  refine part { env with loop := some ⟨onExit, onContinue, depth⟩ } inside balanced same
    rfl base unplaced within (by simp) ?_ run
  exact
    { within.stands base isOpen with
      loop := fun targets around => by
        cases around
        exact ⟨within.goal onExit_mem, within.goal onContinue_mem⟩ }

theorem doLoop : Places labels table ids (doLoop body) := by
  intro env filled s s' same base unplaced run
  obtain ⟨s1, ran, rfl⟩ := doLoop_run run
  obtain ⟨filled1, within⟩ := (Within.start base).createAll base ["do.body", "do.end"]
  have bodyBlock := mem_created s.builder.nextBlock 2 0
  have last := mem_created s.builder.nextBlock 2 1
  obtain ⟨filled2, within, isOpen, -⟩ := loopBody inside balanced same base unplaced within bodyBlock last bodyBlock ran
  obtain ⟨within, isOpen⟩ := (within.br isOpen bodyBlock).resume [] last
  exact ⟨filled2, within.passes base isOpen⟩

end

section

variable (cond : Expr) (inside : Places labels table ids body) (balanced : Balanced body)
include inside balanced

theorem whileLoop : Places labels table ids (whileLoop cond body) := by
  intro env filled s s' same base unplaced run
  obtain ⟨holds, s1, s2, tested, ran, rfl⟩ := whileLoop_run run
  obtain ⟨filled1, within⟩ := (Within.start base).createAll base ["while.cond", "while.body", "while.end"]
  have head := mem_created s.builder.nextBlock 3 0
  have bodyBlock := mem_created s.builder.nextBlock 3 1
  have last := mem_created s.builder.nextBlock 3 2
  obtain ⟨within, isOpen⟩ := within.resume [] head
  obtain ⟨passes, usable⟩ := (within.stands base isOpen).condition tested
  have within := within.after passes (by simp) (Balanced.condition cond _ _ _ _ tested)
  have within := within.condBr passes.stands.isOpen usable bodyBlock last
  obtain ⟨filled2, within, isOpen, -⟩ := loopBody inside balanced same base unplaced within bodyBlock last head ran
  obtain ⟨within, isOpen⟩ := (within.br isOpen head).resume [] last
  exact ⟨filled2, within.passes base isOpen⟩

theorem repeatLoop : Places labels table ids (repeatLoop body cond) := by
  intro env filled s s' same base unplaced run
  obtain ⟨s1, holds, s2, ran, tested, rfl⟩ := repeatLoop_run run
  obtain ⟨filled1, within⟩ := (Within.start base).createAll base ["repeat.body", "repeat.cond", "repeat.end"]
  have bodyBlock := mem_created s.builder.nextBlock 3 0
  have test := mem_created s.builder.nextBlock 3 1
  have last := mem_created s.builder.nextBlock 3 2
  obtain ⟨filled2, within, isOpen, -⟩ := loopBody inside balanced same base unplaced within bodyBlock last test ran
  obtain ⟨within, isOpen⟩ := within.resume [] test
  obtain ⟨passes, usable⟩ := (within.stands base isOpen).condition tested
  have within := within.after passes (by simp) (Balanced.condition cond _ _ _ _ tested)
  have within := within.condBr passes.stands.isOpen usable last bodyBlock
  obtain ⟨within, isOpen⟩ := within.resume [] last
  exact ⟨filled2, by simpa using within.passes base isOpen⟩

end

/-! ## Loops with a variable -/

section

variable (base : Stands labels env filled s) (atAddress : s.builder.Usable filled address)
include base atAddress

theorem atBound
    (atLimit : s.builder.Usable filled bound) (run : Lower.atBound address bound ty env s = .ok ((current, done), s')) :
    Passes labels env [] filled s filled s' ∧ s'.builder.Usable filled current ∧ s'.builder.Usable filled done := by
  have made : Made .any [address, bound] (Lower.atBound address bound ty) := .atBound (by simp) (by simp)
  obtain ⟨passes, usable⟩ := base.straight made (by simp [atAddress, atLimit]) run
  exact ⟨passes, usable current (by simp), usable done (by simp)⟩

theorem advance (atCurrent : s.builder.Usable filled current) (atStep : s.builder.Usable filled step)
    (run : Lower.advance address current step ty env s = .ok ((), s')) : Passes labels env [] filled s filled s' := by
  have made : Made .any [address, current, step] (Lower.advance address current step ty) :=
    .advance trivial (by simp) (by simp) (by simp)
  exact (base.straight made (by simp [atAddress, atCurrent, atStep]) run).1

end

section

variable (inside : Places labels table ids body) (balanced : Balanced body) (same : env.labels = table)
  (base : Stands labels env filled s) (unplaced : Unplaced table s ids) (atAddress : s.builder.Usable filled address)
  (atLimit : s.builder.Usable filled bound) (atStep : s.builder.Usable filled step)
include inside balanced same base unplaced atAddress atLimit atStep

theorem inclusiveLoop (run : inclusiveLoop address bound step ty body env s = .ok ((), s')) :
    ∃ filled', Passes labels env (labelIds table ids) filled s filled' s' := by
  obtain ⟨s1, current, done, s2, s3, ran, tested, advanced, rfl⟩ := inclusiveLoop_run run
  obtain ⟨filled1, within⟩ := (Within.start base).createAll base ["for.body", "for.end", "for.next"]
  have bodyBlock := mem_created s.builder.nextBlock 3 0
  have last := mem_created s.builder.nextBlock 3 1
  have test := mem_created s.builder.nextBlock 3 2
  -- the last block is entered from the test alone, so it may refer to what was read there
  have within := within.create base "for.step" fun r => s.builder.Usable filled r ∨ r = current
  have certified := Function.update_self (s.builder.nextBlock + 3)
    (fun r => s.builder.Usable filled r ∨ r = current) filled1
  have next := within.new (s.builder.nextBlock + 3) (by simp)
  obtain ⟨filled2, within, isOpen, moves⟩ := loopBody inside balanced same base unplaced within bodyBlock last test ran
  have certified := (moves.kept _ (by rw [enter_nextBlock]; exact next.2.1) next.2.2).trans
    certified
  obtain ⟨within, isOpen⟩ := within.resume [s.builder.nextBlock + 1] test
  obtain ⟨passes, atCurrent, atDone⟩ := atBound (within.stands base isOpen)
    (within.moves.usable _ atAddress) (within.moves.usable _ atLimit) tested
  have within := within.after passes (by simp) (Balanced.atBound _ _ _ _ _ _ _ tested)
  have enough (r : Reg) (full : filled2 (s.builder.nextBlock + 3) r) :
      s2.builder.Usable filled2 r := by
    rw [certified] at full
    obtain old | rfl := full
    · exact within.moves.usable r old
    · exact atCurrent
  have covers (r : Reg) (full : s.builder.Usable filled r ∨ r = current) :
      filled2 (s.builder.nextBlock + 3) r := by
    rwa [certified]
  have admitted : s2.builder.Admits filled2 labels (s.builder.nextBlock + 3) :=
    ⟨⟨Nat.succ_pos _, (within.new _ (by simp)).2.1⟩, .inr enough⟩
  obtain ⟨within, shut⟩ := within.finish (t := .condBr done (s.builder.nextBlock + 1)
    (s.builder.nextBlock + 3)) passes.stands.isOpen
    (forall_mem_singleton.mpr atDone)
    (forall_mem_cons.mpr ⟨(within.goal last).admits, forall_mem_singleton.mpr admitted⟩)
  obtain ⟨within, isOpen, usable⟩ := within.enter [s.builder.nextBlock + 1]
    (fun r old => covers r (.inl old)) (fun r full => (enough r full).1)
    (fun isOpen => (shut isOpen).elim)
  have atCurrent := usable current (covers current (.inr rfl))
  have passes := advance (within.stands base isOpen) (within.moves.usable _ atAddress) atCurrent
    (within.moves.usable _ atStep) advanced
  have within := within.after passes (by simp) (Balanced.advance _ _ _ _ _ _ _ _ advanced)
  obtain ⟨within, isOpen⟩ := (within.br passes.stands.isOpen bodyBlock).resume [] last
  exact ⟨filled2, by simpa using within.passes base isOpen⟩

theorem exclusiveLoop (run : exclusiveLoop address bound step ty body env s = .ok ((), s')) :
    ∃ filled', Passes labels env (labelIds table ids) filled s filled' s' := by
  obtain ⟨current, done, s1, s2, current', s3, s4, tested, ran, loaded, advanced, rfl⟩ := exclusiveLoop_run run
  obtain ⟨filled1, within⟩ := (Within.start base).createAll base ["for.body", "for.end", "for.head", "for.step"]
  have bodyBlock := mem_created s.builder.nextBlock 4 0
  have last := mem_created s.builder.nextBlock 4 1
  have head := mem_created s.builder.nextBlock 4 2
  have next := mem_created s.builder.nextBlock 4 3
  obtain ⟨within, isOpen⟩ := within.resume [s.builder.nextBlock, s.builder.nextBlock + 1] head
  obtain ⟨passes, -, atDone⟩ := atBound (within.stands base isOpen)
    (within.moves.usable _ atAddress) (within.moves.usable _ atLimit) tested
  have within := within.after passes (by simp) (Balanced.atBound _ _ _ _ _ _ _ tested)
  have within := within.condBr passes.stands.isOpen atDone last bodyBlock
  obtain ⟨filled2, within, isOpen, -⟩ := loopBody inside balanced same base unplaced within bodyBlock last next ran
  obtain ⟨within, isOpen⟩ := within.resume [s.builder.nextBlock + 1] next
  have stands := within.stands base isOpen
  have load : Made .any [address] (emit (.load address (irType env.program.types ty))) :=
    .emit _ trivial (by simp [Ir.Op.operands])
  obtain ⟨passes, usable⟩ := stands.straight load (by simpa using within.moves.usable _ atAddress) loaded
  have within := within.after passes (by simp) (Balanced.emit _ _ _ _ _ loaded)
  have passes := advance passes.stands (within.moves.usable _ atAddress) (usable current' (by simp))
    (within.moves.usable _ atStep) advanced
  have within := within.after passes (by simp) (Balanced.advance _ _ _ _ _ _ _ _ advanced)
  obtain ⟨within, isOpen⟩ := (within.br passes.stands.isOpen head).resume [] last
  exact ⟨filled2, by simpa using within.passes base isOpen⟩

end

theorem forLoop (var start bound : Expr) (inclusive : Bool) (step : Option Expr)
    (inside : Places labels table ids body) (balanced : Balanced body) :
    Places labels table ids (forLoop var start bound inclusive step body) := by
  intro env filled s s' same base unplaced run
  obtain ⟨address, limit, increment, s1, evaluated, run⟩ := forLoop_run run
  have head : Made .any [] (loopHead var start bound step) :=
    .loopHead Terms.any_hereditary trivial trivial trivial trivial fun _ _ => trivial
  obtain ⟨passes, usable⟩ := base.straight head (by simp) evaluated
  have unplaced1 : Unplaced table s1 ids :=
    unplaced.of_pending fun id pending _ => (passes.pending id).mpr ⟨pending, (by simp)⟩
  have loop : ∃ filled', Passes labels env (labelIds table ids) filled s1 filled' s' := by
    cases inclusive with
    | true =>
      exact inclusiveLoop inside balanced same passes.stands unplaced1 (usable _ (by simp))
        (usable _ (by simp)) (usable _ (by simp)) run
    | false =>
      exact exclusiveLoop inside balanced same passes.stands unplaced1 (usable _ (by simp))
        (usable _ (by simp)) (usable _ (by simp)) run
  obtain ⟨filled', passes'⟩ := loop
  exact ⟨filled', passes.trans passes'⟩

/-! ## Statements without statements inside -/

theorem leaveLoop (span : Span)
    (either : ∀ targets, target targets = targets.onExit ∨ target targets = targets.onContinue) :
    Places labels table [] (leaveLoop span target) := by
  intro env filled s s' _ base _ run
  obtain ⟨targets, around, jump⟩ := leaveLoop_run run
  obtain ⟨onExit, onContinue⟩ := base.loop targets around
  refine base.jump ?_ jump
  obtain same | same := either targets
  · rwa [same]
  · rwa [same]

theorem fallThrough (span : Span) : Places labels table [] (fallThrough span) := by
  intro env filled s s' _ base _ run
  obtain ⟨next, depth, around, jump⟩ := fallThrough_run run
  exact base.jump (base.nextCase next depth around) jump

theorem gotoLabel (id : SymbolId) : Places labels table [] (gotoLabel id) := by
  intro env filled s s' _ base _ run
  obtain ⟨target, found, rfl⟩ | ⟨-, rfl⟩ := gotoLabel_run run
  · obtain ⟨front, back, split, -⟩ := lookup_eq_some_iff.mp found
    have label : target ∈ labels := base.jumps (id, target) (by rw [split]; simp)
    refine base.leave (t := .br target) (by simp [Ir.Terminator.operands]) (fun d mem => ?_) _
    rw [mem_singleton.mp mem]
    exact ⟨base.created target label, .inl label⟩
  · exact base.detach (.start base) _

theorem stop : Places labels table [] stop := by
  intro env filled s s' _ base _ run
  obtain rfl := stop_run run
  have ended : callVoid "__rt_end" [] env s = .ok ((), s.edit (·.perform (.call "__rt_end" []))) := perform_ok.mpr rfl
  have made : Made .any [] (callVoid "__rt_end" []) := .callVoid _ _ (.inl (by simp [runtime])) (by simp)
  have passes := (base.straight made (by simp) ended).1
  obtain ⟨filled', passes'⟩ := passes.stands.leave (t := .unreachable) (by simp [Ir.Terminator.operands])
    (by simp [Ir.Terminator.successors]) "after.end"
  exact ⟨filled', passes.trans passes'⟩

theorem handedOn (base : Stands labels env filled s) (run : handedOn value env s = .ok (r, s')) :
    Passes labels env [] filled s filled s' ∧ ∀ reg, r = some reg → s'.builder.Usable filled reg := by
  cases value with
  | none =>
    obtain ⟨passes, usable⟩ := base.straight (.defaultReturn : Made .any [] _) (by simp) run
    exact ⟨passes, fun reg same => usable reg (by simp [same])⟩
  | some e =>
    obtain ⟨r', returned, rfl⟩ := map_ok.mp run
    obtain ⟨reg, s1, evaluated, rest⟩ := returnedValue_run returned
    obtain ⟨passes, usable⟩ := base.straight (.expr Terms.any_hereditary .value e trivial []) (by simp) evaluated
    have atReg := usable reg (by simp)
    have one {reg' : Reg} {s'' : LowerState} (usable : s''.builder.Usable filled reg') :
        ∀ reg, some reg' = some reg → s''.builder.Usable filled reg := by
      rintro reg ⟨⟩
      exact usable
    obtain ⟨-, rfl, rfl⟩ | ⟨-, -, rfl, rfl⟩ | ⟨-, -, copied⟩ := rest
    · exact ⟨passes, one atReg⟩
    · exact ⟨passes.trans (passes.stands.tidied rfl passes.stands.noted), one atReg⟩
    · have made : Made .any [reg] (call "__rt_string_clone" [reg]) := .runtimeCall (by simp [runtime]) (by simp)
      obtain ⟨passes', usable'⟩ := passes.stands.straight made (by simpa using atReg) copied
      exact ⟨passes.trans passes', one (usable' r' (by simp))⟩

theorem returnStmt (base : Stands labels env filled s) (run : returnStmt value env s = .ok ((), s')) :
    ∃ r s1, Passes labels env [] filled s filled s1 ∧ s' = s1.finish (.ret r) ∧
      ∀ reg ∈ (Ir.Terminator.ret r).operands, s1.builder.Usable filled reg := by
  obtain ⟨r, s1, s2, made, released, rfl⟩ := returnStmt_run run
  obtain ⟨passes, usable⟩ := handedOn base made
  have passes' := passes.stands.releaseFrom released
  refine ⟨r, s2, passes.trans passes', rfl, fun reg mem => ?_⟩
  cases r with
  | none => cases mem
  | some r =>
    rw [mem_singleton.mp mem]
    exact passes'.moves.usable r (usable r rfl)

theorem ret (span : Span) (value : Option Expr) : Places labels table [] (stmt (.ret span value)) := by
  intro env filled s s' _ base _ run
  obtain ⟨_, s1, returned, run⟩ := bind_ok.mp run
  obtain ⟨r, s2, passes, rfl, usable⟩ := returnStmt base returned
  obtain rfl := detach_run run
  obtain ⟨filled', passes'⟩ := passes.stands.leave usable (by simp [Ir.Terminator.successors]) "after.return"
  exact ⟨filled', passes.trans passes'⟩

theorem label (span : Span) (id : SymbolId) : Places labels table [id] (stmt (.label span id)) := by
  intro env filled s s' same base unplaced run
  obtain ⟨e, s1, read, inner⟩ := bind_ok.mp run
  obtain ⟨rfl, rfl⟩ := read_ok.mp read
  have entered : labelIds table [id] = (e.labels.lookup id).toList := by
    rw [labelIds, same]
    cases h : table.lookup id <;> simp [h]
  rw [entered]
  cases found : e.labels.lookup id with
  | none =>
    rw [found] at inner
    cases inner
    exact ⟨filled, base.passes⟩
  | some block =>
    rw [found] at inner entered
    cases inner
    have pending : s1.builder.Pending block := unplaced.pending block (by rw [entered]; simp)
    obtain ⟨front, back, split, -⟩ := lookup_eq_some_iff.mp found
    have mem : block ∈ labels := base.jumps (id, block) (by rw [split]; simp)
    obtain ⟨placed, usable⟩ := base.placed.relabel pending mem (s1.builder.Usable filled)
    have certified := Function.update_self block (s1.builder.Usable filled) filled
    have moves : Moves labels filled s1 (Function.update filled block (s1.builder.Usable filled))
        (s1.enter block) := by
      refine ⟨fun r h => ?_, fun other _ noLabel => ?_, ?_, ?_⟩
      · exact usable_setBlock base.placed.proper (by rw [certified]; exact h) h.1
      · refine Function.update_of_ne (fun here => noLabel ?_) _ _
        rwa [here]
      · exact Nat.le_of_eq (enter_nextBlock s1 block).symm
      · exact Nat.le_of_eq (enter_nextReg s1 block).symm
    have placed' : (s1.enter block).builder.Placed
        (Function.update filled block (s1.builder.Usable filled)) labels := by
      refine placed.setBlock_of_open base.isOpen pending fun r full => ?_
      rw [certified] at full
      exact (usable r).mpr full
    refine ⟨_, base.back moves placed' (isOpen_setBlock base.placed.proper) rfl, moves, fun other => ?_⟩
    rw [Option.toList_some, mem_singleton]
    exact pending_setBlock base.placed.proper other

/-! ## Chains -/

variable {merge : BlockId}

theorem branches (gone : List BlockId)
    (each : ∀ cond body, .mk cond body ∈ bs → Places labels table body.labels (block body)) (same : env.labels = table)
    (base : Stands labels env filled0 s0) (unplaced : Unplaced table s0 (Branch.labelsAll bs))
    (apart : ∀ id ∈ labelIds table (Branch.labelsAll bs), id ∉ gone) (tests_length : tests.length = bs.tail.length)
    (bodies_length : bodies.length = bs.length)
    (within : Within labels filled0 s0 blocks (tests ++ (bodies ++ rest)) gone filled s)
    (isOpen : bs ≠ [] → s.builder.IsOpen) (mem : tests ++ bodies ⊆ blocks) (merge_mem : merge ∈ blocks)
    (otherwise_mem : otherwise ∈ blocks) (run : branches merge otherwise tests bodies bs env s = .ok ((), s')) :
    ∃ filled', Within labels filled0 s0 blocks rest (gone ++ labelIds table (Branch.labelsAll bs)) filled' s' := by
  induction bs generalizing tests bodies gone filled s with
  | nil =>
    obtain ⟨rfl, rfl⟩ := And.intro (length_eq_zero_iff.mp tests_length)
      (length_eq_zero_iff.mp bodies_length)
    cases run
    exact ⟨filled, by simpa [Branch.labelsAll, labelIds] using within⟩
  | cons b bs ih =>
    obtain ⟨cond, body⟩ := b
    obtain ⟨first, bodies, rfl⟩ := exists_cons_of_length_eq_add_one bodies_length
    obtain ⟨holds, s1, s2, tested, inside, run⟩ := branches_run run
    rw [Branch.labelsAll] at unplaced apart ⊢
    rw [labelIds_append] at apart ⊢
    -- the condition
    obtain ⟨passes, usable⟩ := (within.stands base (isOpen (by simp))).condition tested
    have within := within.after passes (by simp) (Balanced.condition cond _ _ _ _ tested)
    have falseMem : tests.headD otherwise ∈ blocks := by
      cases tests with
      | nil => exact otherwise_mem
      | cons test tests => exact mem (by simp)
    have within := within.condBr passes.stands.isOpen usable (mem (by simp) : first ∈ blocks) falseMem
    -- the body
    obtain ⟨within, isOpen'⟩ := within.resume tests (mem (by simp))
    obtain ⟨filled2, within, isOpen', -⟩ := part env (each cond body mem_cons_self)
      (Balanced.block body) same rfl base unplaced.left within
      (fun id mem => by simpa using apart id (mem_append_left _ mem))
      (within.stands base isOpen') inside
    have within := within.br isOpen' merge_mem
    rw [append_nil] at within
    have unplaced' : Unplaced table s0 (Branch.labelsAll bs) := unplaced.right fun _ pending _ => pending
    have apart' := unplaced.apart fun id mem => apart id (mem_append_right _ mem)
    have finished : ∃ filled', Within labels filled0 s0 blocks rest
        (gone ++ labelIds table body.labels ++ labelIds table (Branch.labelsAll bs))
        filled' s' := by
      cases tests with
      | nil =>
        obtain rfl : bs = [] := length_eq_zero_iff.mp tests_length.symm
        refine ih _ (fun cond body mem => each cond body (mem_cons_of_mem _ mem)) unplaced' apart'
          rfl (Nat.succ.inj bodies_length) within (by simp) (fun id h => mem (by simp_all)) run
      | cons test tests =>
        obtain ⟨within, isOpen''⟩ := within.resume [] (mem (by simp))
        cases bs with
        | nil => cases tests_length
        | cons b bs =>
          refine ih _ (fun cond body mem => each cond body (mem_cons_of_mem _ mem)) unplaced'
            apart' (Nat.succ.inj tests_length) (Nat.succ.inj bodies_length) within
            (fun _ => isOpen'') (fun id h => mem ?_) run
          simp only [cons_append, mem_cons, mem_append] at h ⊢
          tauto
    simpa using finished

theorem elseBranch (each : ∀ body, otherwise = some body → Places labels table body.labels (block body))
    (same : env.labels = table) (base : Stands labels env filled0 s0)
    (unplaced : Unplaced table s0 (Block.labelsOf otherwise))
    (apart : ∀ id ∈ labelIds table (Block.labelsOf otherwise), id ∉ gone)
    (within : Within labels filled0 s0 blocks ((otherwise.toList.map fun _ => elseBlock) ++ rest) gone filled s)
    (mem : otherwise ≠ none → elseBlock ∈ blocks) (merge_mem : merge ∈ blocks)
    (run : elseBranch merge elseBlock otherwise env s = .ok ((), s')) :
    ∃ filled', Within labels filled0 s0 blocks rest
      (gone ++ labelIds table (Block.labelsOf otherwise)) filled' s' := by
  cases otherwise with
  | none =>
    cases run
    exact ⟨filled, by simpa [Block.labelsOf, labelIds] using within⟩
  | some body =>
    obtain ⟨s1, inside, rfl⟩ := elseBranch_run run
    obtain ⟨within, isOpen⟩ := within.resume [] (mem (by simp))
    obtain ⟨filled', within, isOpen, -⟩ := part env (each body rfl) (Balanced.block body) same rfl base
      unplaced within apart (within.stands base isOpen) inside
    exact ⟨filled', within.br isOpen merge_mem⟩

theorem ifChain (span : Span) (each : ∀ cond body, .mk cond body ∈ bs → Places labels table body.labels (block body))
    (other : ∀ body, otherwise = some body → Places labels table body.labels (block body)) :
    Places labels table (Branch.labelsAll bs ++ Block.labelsOf otherwise) (stmt (.ifChain span bs otherwise)) := by
  intro env filled s s' same base unplaced run
  obtain ⟨s1, s2, chained, elsewhere, rfl⟩ := ifChain_run run
  obtain ⟨filled1, within⟩ := (Within.start base).createAll base (chainLabels bs otherwise)
  have isOpen : (s.createAll (chainLabels bs otherwise)).builder.IsOpen := by
    rw [Ir.Builder.IsOpen, createAll_block]
    exact base.isOpen
  generalize s.builder.nextBlock = n at *
  -- the blocks in the order they are entered
  have split : [] ++ range' n (chainLabels bs otherwise).length =
      range' n bs.tail.length ++ (range' (n + bs.tail.length) bs.length ++
        (range' (n + bs.tail.length + bs.length) otherwise.toList.length ++
          [n + bs.tail.length + bs.length + otherwise.toList.length])) := by
    have length : (chainLabels bs otherwise).length =
        bs.tail.length + (bs.length + (otherwise.toList.length + 1)) := by
      simp only [chainLabels, length_append, length_map, length_singleton, Nat.add_assoc]
    rw [nil_append, length, ← range'_append_1, ← range'_append_1, ← range'_append_1]
    rfl
  rw [split] at within
  have sub : range' n bs.tail.length ++ range' (n + bs.tail.length) bs.length ⊆
      range' n bs.tail.length ++ (range' (n + bs.tail.length) bs.length ++
        (range' (n + bs.tail.length + bs.length) otherwise.toList.length ++
          [n + bs.tail.length + bs.length + otherwise.toList.length])) := by
    rw [← append_assoc]
    exact subset_append_left _ _
  obtain ⟨filled2, within⟩ := branches [] each same base unplaced.left (fun _ _ => (by simp))
    length_range' length_range' within (fun _ => isOpen) sub (by simp)
    (by cases otherwise <;> simp) chained
  have elseList (m merge : BlockId) : range' m otherwise.toList.length =
      otherwise.toList.map fun _ => (range' m otherwise.toList.length).headD merge := by
    cases otherwise <;> rfl
  rw [elseList _ (n + bs.tail.length + bs.length + otherwise.toList.length)] at within
  have unplaced' : Unplaced table s (Block.labelsOf otherwise) := unplaced.right fun _ pending _ => pending
  obtain ⟨filled3, within⟩ := elseBranch other same base unplaced' (unplaced.apart (by simp)) within
    (fun given => by cases otherwise <;> simp_all) (by simp) elsewhere
  obtain ⟨within, isOpen⟩ := within.resume [] (by simp)
  exact ⟨filled3, by simpa [labelIds_append] using within.passes base isOpen⟩

/-! ## Selections -/

theorem caseTests (base : Stands labels env filled0 s0) (atValue : s0.builder.Usable filled0 value)
    (within : Within labels filled0 s0 blocks todo gone filled s) (isOpen : s.builder.IsOpen)
    (otherwise_mem : otherwise ∈ blocks) (mem : ∀ test ∈ tests, test.2 ∈ blocks)
    (run : caseTests value ty otherwise tests env s = .ok ((), s')) :
    ∃ filled', Within labels filled0 s0 blocks todo gone filled' s' := by
  induction tests generalizing blocks filled s with
  | nil =>
    unfold caseTests at run
    cases run
    exact ⟨filled, within.br isOpen otherwise_mem⟩
  | cons test rest ih =>
    obtain ⟨values, body⟩ := test
    obtain ⟨hit, s1, tested, next⟩ := caseTests_run run
    have bodyMem : body ∈ blocks := mem (values, body) mem_cons_self
    have made : Made .any [value] (equalsAny value ty none values) :=
      .equalsAny Terms.any_hereditary (fun _ _ => trivial) (by simp) (by simp)
    obtain ⟨passes, usable⟩ := (within.stands base isOpen).framedStraight made
      (by simpa using within.moves.usable _ atValue) tested
    have within := within.after passes (by simp) (Balanced.withFrame (.made made) _ _ _ _ tested)
    rw [append_nil] at within
    obtain ⟨-, rfl⟩ | run := next
    · exact ⟨filled, within.condBr passes.stands.isOpen usable bodyMem otherwise_mem⟩
    · have atHit := ((within.placed.createBlock "case.test" (s0.builder.Usable filled0)).2 hit).mpr usable
      have within := within.createOne base "case.test"
      have nextMem : s1.builder.nextBlock ∈ blocks ++ [s1.builder.nextBlock] := by simp
      have within := within.condBr passes.stands.isOpen atHit (mem_append_left _ bodyMem) nextMem
      obtain ⟨within, isOpen⟩ := within.resume todo nextMem
      rw [append_nil] at within
      obtain ⟨filled', within⟩ := ih within isOpen (mem_append_left _ otherwise_mem)
        (fun test here => mem_append_left _ (mem test (mem_cons_of_mem _ here))) run
      exact ⟨filled', within.forget (subset_append_left _ _)⟩

theorem caseBodies (front gone : List BlockId)
    (each : ∀ values body, .mk values body ∈ cs → Places labels table body.labels (block body))
    (same : env.labels = table) (base : Stands labels env filled0 s0) (unplaced : Unplaced table s0 (Case.labelsAll cs))
    (apart : ∀ id ∈ labelIds table (Case.labelsAll cs), id ∉ gone) (bodies_length : bodies.length = cs.length)
    (within : Within labels filled0 s0 blocks (front ++ bodies) gone filled s) (mem : bodies ⊆ blocks)
    (last_mem : last ∈ blocks) (run : caseBodies last bodies cs env s = .ok ((), s')) :
    ∃ filled', Within labels filled0 s0 blocks front (gone ++ labelIds table (Case.labelsAll cs)) filled' s' := by
  induction cs generalizing bodies gone filled s with
  | nil =>
    obtain rfl := length_eq_zero_iff.mp bodies_length
    cases run
    exact ⟨filled, by simpa [Case.labelsAll, labelIds] using within⟩
  | cons c cs ih =>
    obtain ⟨values, body⟩ := c
    obtain ⟨first, bodies, rfl⟩ := exists_cons_of_length_eq_add_one bodies_length
    obtain ⟨s1, inside, run⟩ := caseBodies_run run
    rw [Case.labelsAll] at unplaced apart ⊢
    rw [labelIds_append] at apart ⊢
    obtain ⟨within, isOpen⟩ := within.resume front (mem mem_cons_self)
    have stands : Stands labels { env with nextCase := some ⟨bodies.head?, s.cleanups.depth⟩ } filled
        (s.enter first) :=
      { within.stands base isOpen with
        nextCase := fun next depth around => by
          cases head : bodies.head? with
          | none => rw [head] at around; cases around
          | some id =>
            rw [head] at around
            cases around
            exact within.goal (mem (mem_cons_of_mem _ (mem_of_head? head))) }
    obtain ⟨filled1, within, isOpen, -⟩ :=
      part { env with nextCase := some ⟨bodies.head?, s.cleanups.depth⟩ }
        (each values body mem_cons_self) (Balanced.block body) same rfl base unplaced.left within
        (fun id mem => apart id (mem_append_left _ mem)) stands inside
    have within := within.br isOpen last_mem
    have unplaced' : Unplaced table s0 (Case.labelsAll cs) := unplaced.right fun _ pending _ => pending
    have apart' := unplaced.apart fun id mem => apart id (mem_append_right _ mem)
    obtain ⟨filled', within⟩ :=
      ih _ (fun values body mem => each values body (mem_cons_of_mem _ mem)) unplaced' apart'
        (Nat.succ.inj bodies_length) within (fun id here => mem (mem_cons_of_mem _ here)) run
    exact ⟨filled', by simpa using within⟩

theorem mem_testedCases (mem : test ∈ testedCases cs bodies) : test.2 ∈ bodies := by
  obtain ⟨⟨c, body⟩, zipped, rfl⟩ := mem_map.mp (mem_filter.mp mem).1
  exact (of_mem_zip zipped).2

theorem defaultBlock_mem (cs : List Case) (bodies : List BlockId) (last : BlockId) :
    defaultBlock cs bodies last ∈ last :: bodies := by
  unfold defaultBlock
  split
  · next c body found => exact mem_cons_of_mem _ (of_mem_zip (mem_of_find?_eq_some found)).2
  · exact mem_cons_self

theorem select (span : Span) (selector : Expr)
    (each : ∀ values body, .mk values body ∈ cs → Places labels table body.labels (block body)) :
    Places labels table (Case.labelsAll cs) (stmt (.select span selector cs)) := by
  intro env filled s s' same base unplaced run
  obtain ⟨value, s1, evaluated, s2, s3, tested, inside, rfl⟩ := select_run run
  obtain ⟨passes, usable⟩ := base.straight (.expr Terms.any_hereditary .value selector trivial []) (by simp) evaluated
  have base1 := passes.stands
  have unplaced1 : Unplaced table s1 (Case.labelsAll cs) :=
    unplaced.of_pending fun id pending _ => (passes.pending id).mpr ⟨pending, (by simp)⟩
  obtain ⟨filled1, within⟩ := (Within.start base1).createAll base1 ("select.end" :: cs.map caseLabel)
  have isOpen : (s1.createAll ("select.end" :: cs.map caseLabel)).builder.IsOpen := by
    rw [Ir.Builder.IsOpen, createAll_block]
    exact base1.isOpen
  generalize s1.builder.nextBlock = n at *
  rw [nil_append, length_cons, length_map, range'_succ] at within
  obtain ⟨filled2, within⟩ := caseTests base1 (usable value (by simp)) within isOpen (defaultBlock_mem cs _ n)
    (fun test mem => mem_cons_of_mem _ (mem_testedCases mem)) tested
  obtain ⟨filled3, within⟩ := caseBodies [n] [] each same base1 unplaced1
    (fun _ _ => (by simp)) length_range' within (fun id mem => mem_cons_of_mem _ mem)
    mem_cons_self inside
  obtain ⟨within, isOpen⟩ := within.resume [] mem_cons_self
  exact ⟨filled3, passes.trans (within.passes base1 isOpen)⟩

/-! ## Statements and blocks -/

theorem block (inside : Places labels table b.labels (stmts b.stmts)) : Places labels table b.labels (block b) := by
  obtain ⟨span, body⟩ := b
  intro env filled s s' same base unplaced run
  exact base.framed (fun s1 acted => inside env filled _ s1 same base.pushFrame.stands
    ⟨unplaced.nodup, unplaced.pending⟩ acted) run

theorem cons (first : Places labels table st.labels (stmt st))
    (others : Places labels table (Stmt.labelsAll rest) (stmts rest)) :
    Places labels table (Stmt.labelsAll (st :: rest)) (stmts (st :: rest)) := by
  intro env filled s s' same base unplaced run
  rw [Stmt.labelsAll] at unplaced ⊢
  obtain ⟨_, s1, run1, run2⟩ := bind_ok.mp run
  obtain ⟨filled1, passes⟩ := first env filled s s1 same base unplaced.left run1
  obtain ⟨filled2, passes'⟩ := others env filled1 s1 s' same passes.stands
    (unplaced.right fun id pending apart => (passes.pending id).mpr ⟨pending, apart⟩) run2
  exact ⟨filled2, by rw [labelIds_append]; exact passes.trans passes'⟩

mutual

theorem stmt : (st : Stmt) → Places labels table st.labels (Lower.stmt st)
  | .label span id => label span id
  | .declare _ _ _ _ =>
    straight (.declaration Terms.any_hereditary trivial trivial (fun _ _ => trivial) fun _ _ => trivial)
  | .assign _ _ _ => straight (.assignment Terms.any_hereditary trivial trivial (fun _ _ _ _ => trivial) trivial)
  | .eval _ _ => straight (.effect Terms.any_hereditary trivial)
  | .ifChain span bs otherwise => ifChain span (branchBodies bs) (elseBody otherwise)
  | .select span selector cs => select span selector (bodiesOf cs)
  | .doLoop _ body => doLoop (block (stmtsOf body)) (Balanced.block body)
  | .whileLoop _ cond body => whileLoop cond (block (stmtsOf body)) (Balanced.block body)
  | .repeatLoop _ body cond => repeatLoop cond (block (stmtsOf body)) (Balanced.block body)
  | .forLoop _ var start bound inclusive step body =>
    forLoop var start bound inclusive step (block (stmtsOf body)) (Balanced.block body)
  | .goto _ id => gotoLabel id
  | .ret span value => ret span value
  | .exitLoop span => leaveLoop span fun _ => .inl rfl
  | .continueLoop span => leaveLoop span fun _ => .inr rfl
  | .fallthrough span => fallThrough span
  | .stop _ => stop

theorem stmts : (sts : List Stmt) → Places labels table (Stmt.labelsAll sts) (Lower.stmts sts)
  | [] => by
    intro env filled s s' same base unplaced run
    cases run
    exact ⟨filled, base.passes⟩
  | st :: rest => cons (stmt st) (stmts rest)

theorem stmtsOf : (b : Block) → Places labels table b.labels (Lower.stmts b.stmts)
  | .mk _ body => stmts body

theorem branchBodies : (bs : List Branch) → ∀ cond body, .mk cond body ∈ bs →
    Places labels table body.labels (Lower.block body)
  | [], _, _, mem => nomatch mem
  | .mk cond body :: rest, cond', body', mem => by
    obtain same | mem := mem_cons.mp mem
    · cases same
      exact block (stmtsOf body)
    · exact branchBodies rest cond' body' mem

theorem elseBody : (otherwise : Option Block) → ∀ body, otherwise = some body →
    Places labels table body.labels (Lower.block body)
  | none, _, same => nomatch same
  | some body, body', same => by
    cases same
    exact block (stmtsOf body)

theorem bodiesOf : (cs : List Case) → ∀ values body, .mk values body ∈ cs →
    Places labels table body.labels (Lower.block body)
  | [], _, _, mem => nomatch mem
  | .mk values body :: rest, values', body', mem => by
    obtain same | mem := mem_cons.mp mem
    · cases same
      exact block (stmtsOf body)
    · exact bodiesOf rest values' body' mem

end

end Places

end BasicCompiler.Lowering
