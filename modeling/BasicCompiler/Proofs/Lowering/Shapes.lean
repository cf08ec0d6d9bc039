/-
# The blocks that statements are made of

For each statement that branches, a successful run is taken apart into the blocks it creates, the places where it ends
and enters them, and the runs of its parts between those.
-/
import BasicCompiler.Proofs.Lowering.Edits

namespace BasicCompiler.Lowering

open Ir (BlockId Reg)
open Lower Typed

/-! ## Blocks -/

namespace LowerState

variable (s : LowerState)

def create (label : String) : LowerState := s.edit fun b => (b.createBlock label).2

def createAll (labels : List String) : LowerState := labels.foldl create s

def enter (id : BlockId) : LowerState := s.edit (·.setBlock id)

def finish (t : Ir.Terminator) : LowerState := s.edit (·.terminate t)

def detach (label : String) : LowerState := (s.create label).enter s.builder.nextBlock

@[simp] theorem create_nextBlock (label : String) :
    (s.create label).builder.nextBlock = s.builder.nextBlock + 1 := rfl

@[simp] theorem enter_nextBlock (id : BlockId) :
    (s.enter id).builder.nextBlock = s.builder.nextBlock := Ir.Builder.setBlock_nextBlock id

@[simp] theorem enter_nextReg (id : BlockId) :
    (s.enter id).builder.nextReg = s.builder.nextReg := Ir.Builder.setBlock_nextReg id

@[simp] theorem createAll_cons (label : String) (labels : List String) :
    s.createAll (label :: labels) = (s.create label).createAll labels := rfl

theorem createAll_append (labels labels' : List String) :
    s.createAll (labels ++ labels') = (s.createAll labels).createAll labels' := List.foldl_append

@[simp] theorem createAll_nextBlock (labels : List String) :
    (s.createAll labels).builder.nextBlock = s.builder.nextBlock + labels.length := by
  induction labels generalizing s with
  | nil => rfl
  | cons label labels ih =>
    rw [createAll_cons, ih, create_nextBlock, List.length_cons, Nat.add_assoc, Nat.add_comm 1 labels.length]

theorem createAll_block (labels : List String) : (s.createAll labels).builder.block = s.builder.block := by
  induction labels generalizing s with
  | nil => rfl
  | cons label labels ih => exact ih (s.create label)

end LowerState

namespace Lower

variable {env : Env}

/-! ## Steps that cannot fail

Before anything else such a step only changes the state.
-/

section

theorem createBlock_bind (label : String) (f : BlockId → Lower α) :
    (createBlock label >>= f) env s = f s.builder.nextBlock env (s.create label) := rfl

theorem setBlock_bind (id : BlockId) (f : Unit → Lower α) : (setBlock id >>= f) env s = f () env (s.enter id) := rfl

theorem terminate_bind (t : Ir.Terminator) (f : Unit → Lower α) :
    (terminate t >>= f) env s = f () env (s.finish t) := rfl

end

theorem enter_run (env : Env) {id : BlockId} (run : setBlock id env s = .ok (u, s')) : s' = s.enter id :=
  setBlock_ok.mp run

/-! ## Frames -/

theorem emitCleanup_cleanups (run : emitCleanup c env s = .ok (u, s')) : s'.cleanups = s.cleanups := by
  unfold emitCleanup at run
  cases type : c.indirect? with
  | none =>
    rw [type] at run
    cases run
    rfl
  | some type' =>
    rw [type] at run
    obtain ⟨handle, s1, loaded, run⟩ := bind_ok.mp run
    cases loaded
    cases run
    rfl

theorem emitCleanups_cleanups (run : emitCleanups cs env s = .ok (u, s')) : s'.cleanups = s.cleanups := by
  induction cs generalizing s with
  | nil => exact congrArg _ (pure_ok.mp run).2
  | cons c cs ih =>
    obtain ⟨_, s1, first, rest⟩ := bind_ok.mp run
    exact (ih rest).trans (emitCleanup_cleanups first)

theorem closeFrame_frames (run : closeFrame env s = .ok (u, s')) :
    s'.cleanups.frames = s.cleanups.popFrame.2.frames := by
  have released := closeFrame_ok run
  split at released
  · rw [emitCleanups_cleanups released]
    rfl
  · rw [released]
    rfl

def Balanced {α : Type} (m : Lower α) : Prop :=
  ∀ env s a s', m env s = .ok (a, s') → s'.cleanups.frames = s.cleanups.frames

theorem Balanced.withFrame (woven : Woven m) : Balanced (withFrame m) := by
  intro env s a s' run
  obtain ⟨s1, acted, shut⟩ := withFrame_ok run
  obtain ⟨notes, frames⟩ := (woven.edits acted).frames rfl
  rw [closeFrame_frames shut, CleanupStack.popFrame, frames]

namespace Balanced

theorem pure (a : α) : Balanced (Pure.pure a) := by
  intro env s b s' run
  rw [(pure_ok.mp run).2]

theorem bind (first : Balanced m) (second : ∀ a, Balanced (f a)) : Balanced (m >>= f) := by
  intro env s b s' run
  obtain ⟨a, s1, run1, run2⟩ := bind_ok.mp run
  exact (second a env s1 b s' run2).trans (first env s a s1 run1)

theorem typeOf (ty : Ty) : Balanced (typeOf ty) := by
  intro env s a s' run
  rw [(typeOf_ok.mp run).2]

theorem emit (op : Ir.Op) : Balanced (emit op) := by
  intro env s a s' run
  rw [(emit_ok.mp run).2, LowerState.edit_cleanups]

theorem perform (op : Ir.Op) : Balanced (perform op) := by
  intro env s a s' run
  rw [perform_ok.mp run, LowerState.edit_cleanups]

theorem compare (op : BinaryOp) (left right : Reg) (ty : Ty) : Balanced (Lower.compare op left right ty) := by
  unfold Lower.compare
  split
  · exact bind (emit _) fun _ => bind (emit _) fun _ => emit _
  · split <;> exact emit _

theorem advance (address current step : Reg) (ty : Ty) : Balanced (Lower.advance address current step ty) := by
  unfold Lower.advance
  split
  · exact bind (emit _) fun _ => bind (perform _) fun _ => perform _
  · exact bind (emit _) fun _ => perform _

end Balanced

theorem Balanced.block (b : Block) : Balanced (block b) := by
  obtain ⟨span, body⟩ := b
  exact .withFrame (Woven.stmts body)

theorem Balanced.condition (cond : Expr) : Balanced (condition cond) := .withFrame (Woven.expr .value cond)

/-! ## Blocks that are created together, and what surrounds a body -/

theorem createBlocks_run (run : createBlocks label as env s = .ok (ids, s')) :
    ids = List.range' s.builder.nextBlock as.length ∧ s' = s.createAll (as.map label) :=
  createBlocks_ok.mp run

theorem inLoop_run (run : inLoop onExit onContinue body env s = .ok (u, s')) :
    body { env with loop := some ⟨onExit, onContinue, s.cleanups.depth⟩ } s = .ok (u, s') := run

theorem inCase_run (run : inCase next body env s = .ok (u, s')) :
    body { env with nextCase := some ⟨next, s.cleanups.depth⟩ } s = .ok (u, s') := run

/-! ## Leaving -/

theorem detach_run (run : detach label env s = .ok (u, s')) : s' = s.detach label := enter_run env run

def leaving (depth : Nat) (s : LowerState) : LowerState := s.ran (s.cleanups.pendingFrom depth)

theorem releaseFrom_run {depth : Nat} (run : releaseFrom depth env s = .ok (u, s')) :
    emitCleanups (s.cleanups.pendingFrom depth) env (leaving depth s) = .ok ((), s') := run

/-- Leaves to a block: the releases above a depth, the branch, and a block that nothing
leads to. -/
def Jump (env : Env) (depth : Nat) (target : BlockId) (label : String)
    (s s' : LowerState) : Prop :=
  ∃ s₁, emitCleanups (s.cleanups.pendingFrom depth) env (leaving depth s) = .ok ((), s₁) ∧
    s' = (s₁.finish (.br target)).detach label

theorem jump_run {depth : Nat} {target : BlockId} {label : String}
    (run : (do
      releaseFrom depth
      br target
      detach label) env s = .ok (u, s')) : Jump env depth target label s s' := by
  obtain ⟨_, s1, released, run⟩ := bind_ok.mp run
  exact ⟨s1, releaseFrom_run released, @detach_run env _ _ _ _ run⟩

theorem leaveLoop_run (run : leaveLoop span target env s = .ok (u, s')) :
    ∃ targets, env.loop = some targets ∧ Jump env targets.depth (target targets) "after.jump" s s' := by
  obtain ⟨e, s1, read, inner⟩ := bind_ok.mp run
  obtain ⟨rfl, rfl⟩ := read_ok.mp read
  cases found : e.loop with
  | none =>
    rw [found] at inner
    exact (fail_ok.mp inner).elim
  | some targets =>
    rw [found] at inner
    exact ⟨targets, rfl, jump_run inner⟩

theorem fallThrough_run (run : fallThrough span env s = .ok (u, s')) :
    ∃ next depth, env.nextCase = some ⟨some next, depth⟩ ∧ Jump env depth next "after.fallthrough" s s' := by
  obtain ⟨e, s1, read, inner⟩ := bind_ok.mp run
  obtain ⟨rfl, rfl⟩ := read_ok.mp read
  rcases found : e.nextCase with _ | ⟨_ | next, depth⟩
  · rw [found] at inner
    exact (fail_ok.mp inner).elim
  · rw [found] at inner
    exact (fail_ok.mp inner).elim
  · rw [found] at inner
    exact ⟨next, depth, rfl, jump_run inner⟩

theorem gotoLabel_run {id : SymbolId} (run : gotoLabel id env s = .ok (u, s')) :
    (∃ target, env.labels.lookup id = some target ∧
      s' = (s.finish (.br target)).detach "after.goto") ∨
    env.labels.lookup id = none ∧ s' = s.detach "after.goto" := by
  obtain ⟨e, s1, read, inner⟩ := bind_ok.mp run
  obtain ⟨rfl, rfl⟩ := read_ok.mp read
  cases found : e.labels.lookup id with
  | none =>
    rw [found] at inner
    exact .inr ⟨rfl, detach_run inner⟩
  | some target =>
    rw [found] at inner
    obtain ⟨_, s2, ended, left⟩ := bind_ok.mp inner
    cases ended
    exact .inl ⟨target, rfl, detach_run left⟩

theorem stop_run (run : stop env s = .ok (u, s')) :
    s' = ((s.edit (·.perform (.call "__rt_end" []))).finish .unreachable).detach "after.end" := @detach_run env _ _ _ _ run

/-- What is handed on by a `return` is evaluated, and then exempt from release or
copied, if it is a string. -/
theorem returnedValue_run (run : returnedValue e env s = .ok (r, s')) :
    ∃ reg s1, expr .value e env s = .ok (reg, s1) ∧
      (e.ty.isString = false ∧ r = reg ∧ s' = s1 ∨
        e.ty.isString = true ∧ e.isFresh = true ∧ r = reg ∧ s' = s1.tidy (·.ignore reg) ∨
        e.ty.isString = true ∧ e.isFresh = false ∧ call "__rt_string_clone" [reg] env s1 = .ok (r, s')) := by
  obtain ⟨reg, s1, evaluated, run⟩ := bind_ok.mp run
  refine ⟨reg, s1, evaluated, ?_⟩
  cases string : e.ty.isString with
  | false =>
    rw [string] at run
    cases run
    exact .inl ⟨rfl, rfl, rfl⟩
  | true =>
    rw [string] at run
    right
    cases fresh : e.isFresh with
    | true =>
      rw [fresh] at run
      obtain ⟨_, s2, ignored, run⟩ := bind_ok.mp run
      cases ignored
      cases run
      exact .inl ⟨rfl, rfl, rfl, rfl⟩
    | false =>
      rw [fresh] at run
      exact .inr ⟨rfl, rfl, run⟩

def handedOn (value : Option Expr) : Lower (Option Reg) :=
  match value with
  | some e => some <$> returnedValue e
  | none => defaultReturn

theorem returnStmt_run (run : returnStmt value env s = .ok (u, s')) :
    ∃ r s1 s2, handedOn value env s = .ok (r, s1) ∧
      emitCleanups (s1.cleanups.pendingFrom 0) env (leaving 0 s1) = .ok ((), s2) ∧ s' = s2.finish (.ret r) := by
  have rest {r : Option Reg} {s1 : LowerState} (run : (do
      releaseFrom 0
      terminate (.ret r)) env s1 = .ok (u, s')) :
      ∃ s2, emitCleanups (s1.cleanups.pendingFrom 0) env (leaving 0 s1) = .ok ((), s2) ∧
        s' = s2.finish (.ret r) := by
    obtain ⟨_, s2, released, ended⟩ := bind_ok.mp run
    exact ⟨s2, releaseFrom_run released, terminate_ok.mp ended⟩
  cases value with
  | none =>
    obtain ⟨r, s1, made, run⟩ := bind_ok.mp run
    obtain ⟨s2, released, rfl⟩ := rest run
    exact ⟨r, s1, s2, made, released, rfl⟩
  | some e =>
    obtain ⟨r, s1, made, run⟩ := bind_ok.mp run
    obtain ⟨r', s2, same, run⟩ := bind_ok.mp run
    obtain ⟨rfl, rfl⟩ := pure_ok.mp same
    obtain ⟨s3, released, rfl⟩ := rest run
    exact ⟨some r, s2, s3, map_ok.mpr ⟨r, made, rfl⟩, released, rfl⟩

/-! ## Loops -/

theorem doLoop_run (run : doLoop body env s = .ok (u, s')) :
    let n := s.builder.nextBlock
    ∃ s1, body { env with loop := some ⟨n + 1, n, s.cleanups.depth⟩ }
        ((s.createAll ["do.body", "do.end"]).enter n) = .ok ((), s1) ∧ s' = (s1.finish (.br n)).enter (n + 1) := by
  simp only [doLoop, createBlock_bind, setBlock_bind] at run
  obtain ⟨_, s1, inside, ended⟩ := bind_ok.mp run
  exact ⟨s1, inLoop_run inside, enter_run env ended⟩

theorem whileLoop_run {cond : Expr} (run : whileLoop cond body env s = .ok (u, s')) :
    let n := s.builder.nextBlock
    ∃ holds s1 s2, condition cond env
        ((s.createAll ["while.cond", "while.body", "while.end"]).enter n) = .ok (holds, s1) ∧
      body { env with loop := some ⟨n + 2, n, s1.cleanups.depth⟩ }
        ((s1.finish (.condBr holds (n + 1) (n + 2))).enter (n + 1)) = .ok ((), s2) ∧
      s' = (s2.finish (.br n)).enter (n + 2) := by
  simp only [whileLoop, createBlock_bind, setBlock_bind] at run
  obtain ⟨holds, s1, tested, run⟩ := bind_ok.mp run
  simp only [condBr, terminate_bind, setBlock_bind] at run
  obtain ⟨_, s2, inside, ended⟩ := bind_ok.mp run
  exact ⟨holds, s1, s2, tested, inLoop_run inside, enter_run env ended⟩

theorem repeatLoop_run {cond : Expr} (run : repeatLoop body cond env s = .ok (u, s')) :
    let n := s.builder.nextBlock
    ∃ s1 holds s2, body { env with loop := some ⟨n + 2, n + 1, s.cleanups.depth⟩ }
        ((s.createAll ["repeat.body", "repeat.cond", "repeat.end"]).enter n) = .ok ((), s1) ∧
      condition cond env (s1.enter (n + 1)) = .ok (holds, s2) ∧
      s' = (s2.finish (.condBr holds (n + 2) n)).enter (n + 2) := by
  simp only [repeatLoop, createBlock_bind, setBlock_bind] at run
  obtain ⟨_, s1, inside, run⟩ := bind_ok.mp run
  obtain ⟨holds, s2, tested, ended⟩ := bind_ok.mp (setBlock_bind _ _ ▸ run)
  exact ⟨s1, holds, s2, inLoop_run inside, tested, enter_run env ended⟩

def atBound (address bound : Reg) (ty : Ty) : Lower (Reg × Reg) := do
  let current ← emit (.load address (← typeOf ty))
  let done ← compare .eq current bound ty
  return (current, done)

theorem atBound_run (loaded : emit (.load address (irType env.program.types ty)) env s = .ok (current, s1))
    (compared : compare .eq current bound ty env s1 = .ok (done, s2)) :
    atBound address bound ty env s = .ok ((current, done), s2) := by
  refine bind_ok.mpr ⟨_, s, typeOf_ok.mpr ⟨rfl, rfl⟩, bind_ok.mpr ⟨current, s1, loaded, ?_⟩⟩
  exact bind_ok.mpr ⟨done, s2, compared, pure_ok.mpr ⟨rfl, rfl⟩⟩

theorem Balanced.atBound (address bound : Reg) (ty : Ty) : Balanced (atBound address bound ty) :=
  bind (typeOf ty) fun _ => bind (emit _) fun _ => bind (compare _ _ _ _) fun _ => pure _

theorem inclusiveLoop_run (run : inclusiveLoop address bound step ty body env s = .ok (u, s')) :
    let n := s.builder.nextBlock
    ∃ s1 current done s2 s3, body { env with loop := some ⟨n + 1, n + 2, s.cleanups.depth⟩ }
        ((s.createAll ["for.body", "for.end", "for.next", "for.step"]).enter n) = .ok ((), s1) ∧
      atBound address bound ty env (s1.enter (n + 2)) = .ok ((current, done), s2) ∧
      advance address current step ty env ((s2.finish (.condBr done (n + 1) (n + 3))).enter (n + 3)) = .ok ((), s3) ∧
      s' = (s3.finish (.br n)).enter (n + 1) := by
  simp only [inclusiveLoop, typeOf_bind, createBlock_bind, setBlock_bind] at run
  obtain ⟨_, s1, inside, run⟩ := bind_ok.mp run
  obtain ⟨current, s2, loaded, run⟩ := bind_ok.mp (setBlock_bind _ _ ▸ run)
  obtain ⟨done, s3, compared, run⟩ := bind_ok.mp run
  simp only [condBr, terminate_bind, setBlock_bind] at run
  obtain ⟨_, s4, advanced, ended⟩ := bind_ok.mp run
  exact ⟨s1, current, done, s3, s4, inLoop_run inside, atBound_run loaded compared, advanced, enter_run env ended⟩

theorem exclusiveLoop_run (run : exclusiveLoop address bound step ty body env s = .ok (u, s')) :
    let n := s.builder.nextBlock
    ∃ current done s1 s2 current' s3 s4, atBound address bound ty env
        ((s.createAll ["for.body", "for.end", "for.head", "for.step"]).enter (n + 2)) =
          .ok ((current, done), s1) ∧
      body { env with loop := some ⟨n + 1, n + 3, s1.cleanups.depth⟩ }
        ((s1.finish (.condBr done (n + 1) n)).enter n) = .ok ((), s2) ∧
      emit (.load address (irType env.program.types ty)) env (s2.enter (n + 3)) =
        .ok (current', s3) ∧
      advance address current' step ty env s3 = .ok ((), s4) ∧ s' = (s4.finish (.br (n + 2))).enter (n + 1) := by
  simp only [exclusiveLoop, typeOf_bind, createBlock_bind, setBlock_bind] at run
  obtain ⟨current, s1, loaded, run⟩ := bind_ok.mp run
  obtain ⟨done, s2, compared, run⟩ := bind_ok.mp run
  simp only [condBr, terminate_bind, setBlock_bind] at run
  obtain ⟨_, s3, inside, run⟩ := bind_ok.mp run
  obtain ⟨current', s4, loaded', run⟩ := bind_ok.mp (setBlock_bind _ _ ▸ run)
  obtain ⟨_, s5, advanced, ended⟩ := bind_ok.mp run
  exact ⟨current, done, s2, s3, current', s4, s5, atBound_run loaded compared, inLoop_run inside, loaded',
    advanced, enter_run env ended⟩

/-- What a `for` loop evaluates once: the address of its variable, the bound and the
step. -/
def loopHead (var start bound : Expr) (step : Option Expr) :
    Lower (Reg × Reg × Reg) := do
  let address ← expr .address var
  let first ← expr .value start
  storeValue address first var.ty
  let bound ← expr .value bound
  let step ←
    match step with
    | some step => expr .value step
    | none => one var.ty
  return (address, bound, step)

theorem forLoop_run (run : forLoop var start bound inclusive step body env s = .ok (u, s')) :
    ∃ address limit increment s1,
      loopHead var start bound step env s = .ok ((address, limit, increment), s1) ∧
      (if inclusive then inclusiveLoop address limit increment var.ty body
        else exclusiveLoop address limit increment var.ty body) env s1 = .ok (u, s') := by
  obtain ⟨address, s1, found, run⟩ := bind_ok.mp run
  obtain ⟨first, s2, begun, run⟩ := bind_ok.mp run
  obtain ⟨_, s3, stored, run⟩ := bind_ok.mp run
  obtain ⟨limit, s4, bounded, run⟩ := bind_ok.mp run
  have assemble {increment : Reg} {s5 : LowerState}
      (stepped : (match step with
        | some step => expr .value step
        | none => one var.ty) env s4 = .ok (increment, s5)) :
      loopHead var start bound step env s = .ok ((address, limit, increment), s5) := by
    refine bind_ok.mpr ⟨address, s1, found, bind_ok.mpr ⟨first, s2, begun, ?_⟩⟩
    refine bind_ok.mpr ⟨(), s3, stored, bind_ok.mpr ⟨limit, s4, bounded, ?_⟩⟩
    cases step with
    | none | some step => exact bind_ok.mpr ⟨increment, s5, stepped, pure_ok.mpr ⟨rfl, rfl⟩⟩
  cases step with
  | none | some step =>
    obtain ⟨increment, s5, stepped, run⟩ := bind_ok.mp run
    exact ⟨address, limit, increment, s5, assemble stepped, run⟩

/-! ## Selections -/

def chainLabels (bs : List Branch) (otherwise : Option Block) : List String :=
  bs.tail.map (fun _ => "if.test") ++ bs.map (fun _ => "if.then") ++
    otherwise.toList.map (fun _ => "if.else") ++ ["if.end"]

theorem ifChain_run (run : stmt (.ifChain span bs otherwise) env s = .ok (u, s')) :
    let n := s.builder.nextBlock
    let tests := List.range' n bs.tail.length
    let bodies := List.range' (n + bs.tail.length) bs.length
    let merge := n + bs.tail.length + bs.length + otherwise.toList.length
    let elseBlock := (List.range' (n + bs.tail.length + bs.length) otherwise.toList.length).headD merge
    ∃ s1 s2, branches merge elseBlock tests bodies bs env (s.createAll (chainLabels bs otherwise)) = .ok ((), s1) ∧
      elseBranch merge elseBlock otherwise env s1 = .ok ((), s2) ∧ s' = s2.enter merge := by
  obtain ⟨tests, s1, created, run⟩ := bind_ok.mp run
  obtain ⟨rfl, rfl⟩ := createBlocks_run created
  obtain ⟨bodies, s2, created, run⟩ := bind_ok.mp run
  obtain ⟨rfl, rfl⟩ := createBlocks_run created
  obtain ⟨elseBlock, s3, created, run⟩ := bind_ok.mp run
  obtain ⟨rfl, rfl⟩ := createBlocks_run created
  obtain ⟨merge, s4, created, run⟩ := bind_ok.mp run
  obtain ⟨rfl, rfl⟩ := createBlock_ok.mp created
  obtain ⟨_, s5, chained, run⟩ := bind_ok.mp run
  obtain ⟨_, s6, elsewhere, run⟩ := bind_ok.mp run
  cases run
  simp only [LowerState.createAll_nextBlock, List.length_map] at chained elsewhere ⊢
  refine ⟨s5, s6, ?_, elsewhere, rfl⟩
  rw [chainLabels, LowerState.createAll_append, LowerState.createAll_append, LowerState.createAll_append]
  exact chained

theorem branches_run {cond : Expr} {body : Block}
    (run : branches merge otherwise tests bodies (.mk cond body :: rest) env s = .ok (u, s')) :
    ∃ holds s1 s2, condition cond env s = .ok (holds, s1) ∧
      block body env ((s1.finish (.condBr holds (bodies.headD merge) (tests.headD otherwise))).enter
        (bodies.headD merge)) = .ok ((), s2) ∧
      branches merge otherwise tests.tail bodies.tail rest env
        (match tests with
          | [] => s2.finish (.br merge)
          | test :: _ => (s2.finish (.br merge)).enter test) = .ok (u, s') := by
  obtain ⟨holds, s1, tested, run⟩ := bind_ok.mp run
  simp only [condBr, terminate_bind, setBlock_bind] at run
  obtain ⟨_, s2, inside, run⟩ := bind_ok.mp run
  refine ⟨holds, s1, s2, tested, inside, ?_⟩
  cases tests <;> exact run

theorem elseBranch_run (run : elseBranch merge elseBlock (some body) env s = .ok (u, s')) :
    ∃ s1, block body env (s.enter elseBlock) = .ok ((), s1) ∧ s' = s1.finish (.br merge) := by
  rw [elseBranch, setBlock_bind] at run
  obtain ⟨_, s1, inside, ended⟩ := bind_ok.mp run
  exact ⟨s1, inside, terminate_ok.mp ended⟩

theorem select_run (run : stmt (.select span selector cs) env s = .ok (u, s')) :
    ∃ value s1, expr .value selector env s = .ok (value, s1) ∧
      let n := s1.builder.nextBlock
      let bodies := List.range' (n + 1) cs.length
      ∃ s2 s3, caseTests value selector.ty (defaultBlock cs bodies n) (testedCases cs bodies) env
          (s1.createAll ("select.end" :: cs.map caseLabel)) = .ok ((), s2) ∧
        caseBodies n bodies cs env s2 = .ok ((), s3) ∧ s' = s3.enter n := by
  obtain ⟨value, s1, evaluated, run⟩ := bind_ok.mp run
  obtain ⟨last, s2, created, run⟩ := bind_ok.mp run
  cases created
  obtain ⟨bodies, s3, created, run⟩ := bind_ok.mp run
  obtain ⟨rfl, rfl⟩ := createBlocks_run created
  obtain ⟨_, s4, tested, run⟩ := bind_ok.mp run
  obtain ⟨_, s5, inside, run⟩ := bind_ok.mp run
  exact ⟨value, s1, evaluated, s4, s5, tested, inside, setBlock_ok.mp run⟩

theorem caseTests_run (run : caseTests value ty otherwise ((values, body) :: rest) env s = .ok (u, s')) :
    ∃ hit s1, withFrame (equalsAny value ty none values) env s = .ok (hit, s1) ∧
      (rest = [] ∧ s' = s1.finish (.condBr hit body otherwise) ∨
        caseTests value ty otherwise rest env
          (((s1.create "case.test").finish (.condBr hit body s1.builder.nextBlock)).enter
            s1.builder.nextBlock) = .ok (u, s')) := by
  cases rest with
  | nil =>
    obtain ⟨hit, s1, tested, run⟩ := bind_ok.mp run
    exact ⟨hit, s1, tested, .inl ⟨rfl, terminate_ok.mp run⟩⟩
  | cons next rest =>
    obtain ⟨hit, s1, tested, run⟩ := bind_ok.mp run
    exact ⟨hit, s1, tested, .inr run⟩

theorem caseBodies_run (run : caseBodies last bodies (.mk values body :: rest) env s = .ok (u, s')) :
    ∃ s1, block body { env with nextCase := some ⟨bodies.tail.head?, s.cleanups.depth⟩ }
        (s.enter (bodies.headD last)) = .ok ((), s1) ∧
      caseBodies last bodies.tail rest env (s1.finish (.br last)) = .ok (u, s') := by
  rw [caseBodies, setBlock_bind] at run
  obtain ⟨_, s1, inside, run⟩ := bind_ok.mp run
  exact ⟨s1, inCase_run inside, run⟩

/-! ## Functions -/

def labelName (p : Program) (id : SymbolId) : String := fold (((p.scopes.get? id).map (·.name)).getD "")

theorem labelBlocks_run (run : labelBlocks ids env s = .ok (table, s')) :
    table = ids.zip (List.range' s.builder.nextBlock ids.length) ∧
      s' = s.createAll (ids.map (labelName env.program)) := by
  induction ids generalizing s table with
  | nil =>
    cases run
    exact ⟨rfl, rfl⟩
  | cons id rest ih =>
    obtain ⟨e, s1, read, inner⟩ := bind_ok.mp run
    cases read
    obtain ⟨block, s2, created, named⟩ := bind_ok.mp inner
    cases created
    obtain ⟨blocks, s3, others, returned⟩ := bind_ok.mp named
    cases returned
    obtain ⟨rfl, rfl⟩ := ih others
    exact ⟨rfl, rfl⟩

theorem endOfFunction_run (run : endOfFunction endValue env s = .ok (u, s')) :
    s.builder.isTerminated = true ∧ s' = s ∨
      s.builder.isReachable = false ∧ s' = s.finish .unreachable ∨
        s.builder.isReachable = true ∧ returnStmt endValue env s = .ok ((), s') := by
  obtain ⟨t, s1, got, ended⟩ := bind_ok.mp run
  cases got
  split at ended
  · next terminated => exact .inl ⟨terminated, (pure_ok.mp ended).2⟩
  · split at ended
    · next dead => exact .inr (.inl ⟨by simpa using dead, terminate_ok.mp ended⟩)
    · next live => exact .inr (.inr ⟨by simpa using live, ended⟩)

theorem functionBody_run (run : functionBody f params regs env s = .ok (u, s')) :
    ∃ slots slots' s1 s2 s3,
      paramSlots (params.zip regs) env (s.tidy (·.pushFrame)) = .ok (slots, s1) ∧
      localSlots f.locals env s1 = .ok (slots', s2) ∧
      block f.body { env with
          slots := slots ++ slots'
          labels := f.labels.zip (List.range' s2.builder.nextBlock f.labels.length) }
        (s2.createAll (f.labels.map (labelName env.program))) = .ok ((), s3) ∧
      endOfFunction f.endValue { env with
          slots := slots ++ slots'
          labels := f.labels.zip (List.range' s2.builder.nextBlock f.labels.length) } s3 = .ok ((), s') := by
  obtain ⟨_, s0, pushed, run⟩ := bind_ok.mp run
  cases pushed
  obtain ⟨slots, s1, atParams, run⟩ := bind_ok.mp run
  obtain ⟨slots', s2, atLocals, run⟩ := bind_ok.mp run
  obtain ⟨table, s2', created, run⟩ := bind_ok.mp run
  obtain ⟨rfl, rfl⟩ := labelBlocks_run created
  obtain ⟨_, s3, inside, ended⟩ := bind_ok.mp (withReader_ok.mp run)
  exact ⟨slots, slots', s1, s2, s3, atParams, atLocals, inside, ended⟩

end Lower

/-! ## Parts without branches -/

namespace Made

theorem atBound (place : address ∈ regs) (there : bound ∈ regs) : Made t regs (atBound address bound ty) := by
  refine typeOf fun _ => bind (emit _ trivial (by simpa [Ir.Op.operands] using place)) fun _ => ?_
  exact bind (compare (by simp) (by simp [there])) fun _ => pure _ (by simp)

theorem loopHead (h : t.Hereditary) (may : t.stores) (askedVar : t.evaluates .address var)
    (askedStart : t.evaluates .value start) (askedBound : t.evaluates .value bound)
    (askedStep : ∀ e ∈ step, t.evaluates .value e) : Made t regs (loopHead var start bound step) := by
  refine bind (expr h .address var askedVar _) fun _ => bind (expr h .value start askedStart _) fun _ => ?_
  refine bind (storeValue may (by simp) (by simp)) fun _ => bind (expr h .value bound askedBound _) fun _ => ?_
  cases step with
  | none => exact bind (one var.ty) fun _ => pure _ (by simp)
  | some step => exact bind (expr h .value step (askedStep step rfl) _) fun _ => pure _ (by simp)

end Made

end BasicCompiler.Lowering
