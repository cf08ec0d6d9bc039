/-
# Successful runs of the lowering

A run of `Lower` that succeeds is taken apart into the runs of its steps. The steps that cannot fail are functions on
the state, and the lemmas here say which.
-/
import BasicCompiler.Lowering.Program
import BasicCompiler.Proofs.Runs

namespace BasicCompiler.Lowering

/-- The state with its builder changed. -/
def LowerState.edit (s : LowerState) (step : Ir.Builder → Ir.Builder) : LowerState :=
  { s with builder := step s.builder }

def LowerState.tidy (s : LowerState) (step : CleanupStack → CleanupStack) : LowerState :=
  { s with cleanups := step s.cleanups }

@[simp] theorem LowerState.edit_builder (s : LowerState) (step : Ir.Builder → Ir.Builder) :
    (s.edit step).builder = step s.builder := rfl

@[simp] theorem LowerState.edit_cleanups (s : LowerState) (step : Ir.Builder → Ir.Builder) :
    (s.edit step).cleanups = s.cleanups := rfl

@[simp] theorem LowerState.tidy_cleanups (s : LowerState) (step : CleanupStack → CleanupStack) :
    (s.tidy step).cleanups = step s.cleanups := rfl

def LowerState.ran (s : LowerState) (cs : List Cleanup) : LowerState := s.tidy (·.ran cs)

theorem mem_register {stack : CleanupStack} (mem : d ∈ (stack.register c).frames.flatten) :
    d ∈ stack.frames.flatten ∨ d = c := by
  unfold CleanupStack.register at mem
  split at mem
  · exact .inl mem
  · next top rest frames =>
    obtain rfl | mem := List.mem_cons.mp mem
    · exact .inr rfl
    · rw [frames, List.flatten_cons]
      exact .inl mem

theorem mem_pendingFrom {stack : CleanupStack} (mem : c ∈ stack.pendingFrom depth) : c ∈ stack.frames.flatten := by
  obtain ⟨frame, taken, mem⟩ := List.mem_flatten.mp (List.mem_filter.mp mem).1
  exact List.mem_flatten.mpr ⟨frame, List.mem_of_mem_take taken, mem⟩

theorem mem_of_mem_popFrame {stack : CleanupStack} (mem : c ∈ stack.popFrame.1 ∨ c ∈ stack.popFrame.2.frames.flatten) :
    c ∈ stack.frames.flatten := by
  unfold CleanupStack.popFrame at mem
  split at mem
  next =>
    rcases mem with impossible | mem
    · cases impossible
    · exact mem
  next frame rest frames =>
    rw [frames, List.flatten_cons, List.mem_append]
    exact mem.imp_left fun live => (List.mem_filter.mp live).1

namespace Lower

theorem bind_ok {f : α → Lower β} :
    (m >>= f) env s = .ok (b, s') ↔ ∃ a s1, m env s = .ok (a, s1) ∧ f a env s1 = .ok (b, s') :=
  run_bind_ok (m := m env) (f := fun a => f a env)

theorem pure_ok : (pure a : Lower α) env s = .ok (b, s') ↔ b = a ∧ s' = s := run_ok

theorem map_ok {m : Lower α} : (f <$> m) env s = .ok (b, s') ↔ ∃ a, m env s = .ok (a, s') ∧ b = f a := by
  change (m >>= fun a => pure (f a)) env s = .ok (b, s') ↔ _
  rw [bind_ok]
  constructor
  · rintro ⟨a, s1, first, second⟩
    cases second
    exact ⟨a, first, rfl⟩
  · rintro ⟨a, first, rfl⟩
    exact ⟨a, s', first, rfl⟩

theorem read_ok : (read : Lower Env) env s = .ok (e, s') ↔ e = env ∧ s' = s := run_ok

theorem withReader_ok : (withReader f m : Lower α) env s = .ok (a, s') ↔ m (f env) s = .ok (a, s') := Iff.rfl

theorem fail_ok : (fail fault span : Lower α) env s = .ok (a, s') ↔ False := ⟨fun run => (by cases run), False.elim⟩

theorem types_ok : types env s = .ok (t, s') ↔ t = env.program.types ∧ s' = s := run_ok

theorem typeOf_ok : typeOf ty env s = .ok (t, s') ↔ t = irType env.program.types ty ∧ s' = s := run_ok

theorem read_bind (f : Env → Lower α) : (read >>= f) env s = f env env s := rfl

theorem typeOf_bind (ty : Ty) (f : Ir.Ty → Lower α) :
    (typeOf ty >>= f) env s = f (irType env.program.types ty) env s := rfl

theorem build_ok : build step env s = .ok (a, s') ↔ a = (step s.builder).1 ∧ s' = s.edit fun b => (step b).2 := run_ok

theorem change_ok : change step env s = .ok (u, s') ↔ s' = s.edit step := run_unit_ok

theorem changeCleanups_ok : changeCleanups step env s = .ok (u, s') ↔ s' = s.tidy step := run_unit_ok

/-! ## Steps that always succeed -/

theorem emit_ok : emit op env s = .ok (r, s') ↔ r = s.builder.nextReg ∧ s' = s.edit fun b => (b.emit op).2 := build_ok

theorem perform_ok : perform op env s = .ok (u, s') ↔ s' = s.edit (·.perform op) := change_ok

theorem createBlock_ok {id : Ir.BlockId} :
    createBlock label env s = .ok (id, s') ↔
      id = s.builder.nextBlock ∧ s' = s.edit fun b => (b.createBlock label).2 := build_ok

theorem setBlock_ok {id : Ir.BlockId} : setBlock id env s = .ok (u, s') ↔ s' = s.edit (·.setBlock id) := change_ok

theorem terminate_ok : terminate t env s = .ok (u, s') ↔ s' = s.edit (·.terminate t) := change_ok

theorem createBlocks_ok {as : List α} :
    createBlocks label as env s = .ok (ids, s') ↔
      ids = List.range' s.builder.nextBlock as.length ∧
        s' = (as.map label).foldl (fun s l => s.edit fun b => (b.createBlock l).2) s := by
  induction as generalizing ids s s' with
  | nil => exact pure_ok
  | cons a as ih =>
    unfold createBlocks
    rw [bind_ok]
    constructor
    · rintro ⟨id, s1, first, run⟩
      cases first
      obtain ⟨rest, s2, second, run⟩ := bind_ok.mp run
      obtain ⟨rfl, rfl⟩ := ih.mp second
      cases run
      exact ⟨rfl, rfl⟩
    · rintro ⟨rfl, rfl⟩
      refine ⟨_, _, createBlock_ok.mpr ⟨rfl, rfl⟩, bind_ok.mpr ⟨_, _, ih.mpr ⟨rfl, rfl⟩, ?_⟩⟩
      exact pure_ok.mpr ⟨rfl, rfl⟩

/-- What is noted for a slot: one release of a handle, nothing, or the releases of the
members of a declared type. -/
theorem registerSlotWithin_cases (types : TypeTable) (depth : Nat) (slot : Ir.Reg) (ty : Ty) :
    (∃ owned, registerSlotWithin types depth slot ty = register (.slot owned slot) ∧
        (ty.isString = true ∨ ty.isArray = true)) ∨
      registerSlotWithin types depth slot ty = pure () ∨
      ∃ inner id, depth = inner + 1 ∧ registerSlotWithin types depth slot ty =
        registerMembers types (registerSlotWithin types inner) slot 0 (types.get id).members ∧ ty = .user id := by
  cases ty with
  | builtin t =>
    by_cases string : t = .string
    · exact .inl ⟨.string, by rw [string]; cases depth <;> rfl, .inl (by rw [string]; rfl)⟩
    · by_cases array : t = .array
      · exact .inl ⟨.array, by rw [array]; cases depth <;> rfl, .inr (by rw [array]; rfl)⟩
      · refine .inr (.inl ?_)
        cases depth <;> simp [registerSlotWithin]
  | arrayOf elem => exact .inl ⟨.array, by cases depth <;> rfl, .inr rfl⟩
  | pointerTo inner => exact .inr (.inl (by cases depth <;> rfl))
  | user id =>
    cases depth with
    | zero => exact .inr (.inl rfl)
    | succ depth =>
      unfold registerSlotWithin
      split
      · exact .inr (.inr ⟨depth, id, rfl, rfl, rfl⟩)
      · exact .inr (.inl rfl)

end Lower

end BasicCompiler.Lowering
