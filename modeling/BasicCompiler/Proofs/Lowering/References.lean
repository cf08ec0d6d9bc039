/-
# What the code of a function refers to

Code refers to functions and globals by their names.
-/
import BasicCompiler.Proofs.Lowering.Links
import BasicCompiler.Proofs.Lowering.TypedModules
import BasicCompiler.Proofs.Typed.Mentions

namespace BasicCompiler

open Typed Ir.Builder Option

/-! ## Instructions of the function at work -/

namespace Ir

def textGlobal (n : Nat) (content : String) : Global :=
  ⟨s!".str.{n}", .array .i8 (content.utf8ByteSize + 1), some (.str content), true⟩

namespace Builder

variable {b b' : Builder}

/-- The instruction stands in a block that has been entered. -/
def Has (b : Builder) (i : Instr) : Prop := ∃ c ∈ b.entered, i ∈ c.instrs

theorem has_push (function : b'.function = b.function) (block : b'.block = b.block.map (·.push j))
    (h : b'.Has i) : b.Has i ∨ i = j := by
  obtain ⟨c, entered, inside⟩ := h
  rcases mem_entered entered with closed | current
  · rw [Builder.closed, function] at closed
    exact .inl ⟨c, mem_entered_of_closed closed, inside⟩
  · rw [block] at current
    obtain ⟨d, isCurrent, rfl⟩ := map_eq_some_iff.mp current
    rcases List.mem_append.mp inside with old | new
    · exact .inl ⟨d, mem_entered_of_block isCurrent, old⟩
    · exact .inr (List.mem_singleton.mp new)

theorem has_terminate (h : (b.terminate t).Has i) : b.Has i := by
  obtain ⟨c, entered, inside⟩ := h
  rcases mem_entered entered with closed | current
  · exact ⟨c, mem_entered_of_closed closed, inside⟩
  · obtain ⟨d, isCurrent, rfl⟩ := map_eq_some_iff.mp current
    exact ⟨d, mem_entered_of_block isCurrent, inside⟩

theorem has_closeBlock (h : b.closeBlock.Has i) : b.Has i := by
  unfold Builder.closeBlock at h
  split at h
  · exact h
  next c current =>
    obtain ⟨d, entered, inside⟩ := h
    refine ⟨d, ?_, inside⟩
    rw [entered_of_block current]
    unfold Builder.entered Builder.closed at entered
    unfold Builder.closed
    cases function : b.function with
    | none =>
      rw [function] at entered
      cases entered
    | some f =>
      rw [function] at entered
      simpa using entered

theorem has_setBlock {id : BlockId} (h : (b.setBlock id).Has i) : b.Has i := by
  obtain ⟨c, entered, inside⟩ := h
  rcases mem_entered entered with closed | current
  · exact has_terminate (has_closeBlock ⟨c, mem_entered_of_closed closed, inside⟩)
  · obtain rfl := some.inj current
    cases inside

theorem has_alloca (h : (b.alloca type).2.Has i) : b.Has i ∨ i.op = .alloca type := by
  have inserted {n : Nat} {c : Block} (inside : i ∈ (insertAt n ⟨some b.nextReg, .alloca type⟩ c).instrs)
      (entered : c ∈ b.entered) : b.Has i ∨ i.op = .alloca type := by
    rcases List.eq_or_mem_of_mem_insertIdx inside with rfl | old
    · exact .inr rfl
    · exact .inl ⟨c, entered, old⟩
  have slotted {n : Nat} {d : Block}
      (current : b.block.map (insertAt n ⟨some b.nextReg, .alloca type⟩) = some d) (inside : i ∈ d.instrs) :
      b.Has i ∨ i.op = .alloca type := by
    obtain ⟨c, isCurrent, rfl⟩ := map_eq_some_iff.mp current
    exact inserted inside (mem_entered_of_block isCurrent)
  obtain ⟨d, entered, inside⟩ := h
  simp only [alloca, freshReg] at entered
  -- the first block has been left, or it is the current one
  split at entered
  next f function =>
    split at entered
    next first rest closed =>
      have old (c : Block) (mem : c ∈ first :: rest) : c ∈ b.entered := by
        refine mem_entered_of_closed ?_
        rwa [Builder.closed, function, map_some, getD_some, closed]
      rcases mem_entered entered with isClosed | current
      · rcases List.mem_cons.mp isClosed with rfl | later
        · exact inserted inside (old first List.mem_cons_self)
        · exact .inl ⟨d, old d (List.mem_cons_of_mem _ later), inside⟩
      · exact .inl ⟨d, mem_entered_of_block current, inside⟩
    next closed =>
      rcases mem_entered entered with isClosed | current
      · exact .inl ⟨d, mem_entered_of_closed isClosed, inside⟩
      · exact slotted current inside
  next =>
    rcases mem_entered entered with isClosed | current
    · exact .inl ⟨d, mem_entered_of_closed isClosed, inside⟩
    · exact slotted current inside

end Builder

end Ir

namespace Lowering

open Lower
open Typed (Outlook Mention)

/-! ## References -/

def linkName? (p : Program) : Callee → Option String
  | .function id => p.functions[id]?.map (·.linkName)
  | .command index => p.commands[index]?.map (·.linkName)

def Calls (p : Program) (ms : List Mention) (name : String) : Prop :=
  name ∈ runtime.map (·.1) ∨ ∃ callee, .callee callee ∈ ms ∧ linkName? p callee = some name

/-- What is referred to is a text of the module or a global among the variables. -/
def Names (p : Program) (ms : List Mention) (globals : List Ir.Global) (name : String) : Prop :=
  (∃ n content, Ir.textGlobal n content ∈ globals ∧ name = (Ir.textGlobal n content).name) ∨
    ∃ id ∈ p.globals, ∃ g, .variable id ∈ ms ∧ globalOf? p id = some g ∧ name = g.name

/-- All that an operation refers to by name is of the runtime, a text or mentioned. -/
def Refers (p : Program) (ms : List Mention) (globals : List Ir.Global) : Ir.Op → Prop
  | .call callee _ => Calls p ms callee
  | .global name => Names p ms globals name
  | _ => True

section

theorem Names.mono (h : Names p ms globals name) (more : globals ⊆ globals') : Names p ms globals' name := by
  rcases h with ⟨n, content, mem, same⟩ | isVariable
  · exact .inl ⟨n, content, more mem, same⟩
  · exact .inr isVariable

theorem Refers.mono (h : Refers p ms globals op) (more : globals ⊆ globals') : Refers p ms globals' op := by
  cases op with
  | global name => exact Names.mono h more
  | call callee args => exact h
  | _ => trivial

end

def Cites (p : Program) (ms : List Mention) (b : Ir.Builder) : Prop := ∀ i, b.Has i → Refers p ms b.module.globals i.op

namespace Cites

theorem push (h : Cites p ms b) (function : b'.function = b.function) (block : b'.block = b.block.map (·.push i))
    (globals : b.module.globals ⊆ b'.module.globals) (refers : Refers p ms b'.module.globals i.op) :
    Cites p ms b' := by
  intro j has
  rcases has_push function block has with old | rfl
  · exact (h j old).mono globals
  · exact refers

theorem terminate (h : Cites p ms b) (t : Ir.Terminator) : Cites p ms (b.terminate t) :=
  fun i has => h i (has_terminate has)

theorem setBlock (h : Cites p ms b) (id : Ir.BlockId) : Cites p ms (b.setBlock id) := by
  intro i has
  rw [setBlock_module]
  exact h i (has_setBlock has)

theorem alloca (h : Cites p ms b) (type : Ir.Ty) : Cites p ms (b.alloca type).2 := by
  intro i has
  rw [(alloca_rest type).2]
  rcases has_alloca has with old | isSlot
  · exact h i old
  · rw [isSlot]
    trivial

theorem startFunction (b : Ir.Builder) (name : String) (params : List Ir.Ty) (result : Ir.Ty) :
    Cites p ms (b.startFunction name params result).2 := by
  rintro i ⟨c, entered, inside⟩
  rw [List.mem_singleton.mp entered] at inside
  cases inside

end Cites

/-- All that the outlook knows is mentioned, and its globals are those of the program. -/
structure Mentioned (p : Program) (ms : List Mention) (w : Outlook) : Prop where
  callees : ∀ callee params, w.params? callee = some params → .callee callee ∈ ms ∧ p.callParams? callee = some params
  seen : ∀ id v, w.sees? id = some v →
    .variable id ∈ ms ∧ p.asVariable? id = some v ∧ (v.storage = .global → id ∈ p.globals)

/-! ## Pieces -/

def citing (p : Program) (ms : List Mention) : Terms :=
  .typed (Mentioned p ms) (fun name => ∃ callee, .callee callee ∈ ms ∧ linkName? p callee = some name) True

section

theorem linkName?_of_callParams? {params : List Param} (known : p.callParams? callee = some params) :
    linkName? p callee = some (calleeName p callee) := by
  cases callee with
  | function id =>
    obtain ⟨f, found, -⟩ := map_eq_some_iff.mp known
    simp [linkName?, calleeName, found]
  | command index =>
    obtain ⟨c, found, -⟩ := map_eq_some_iff.mp known
    simp [linkName?, calleeName, found]

theorem citing_suits (program : home.program = p) : (citing p ms).Suits home fun _ => True where
  calls want info callee args asked := by
    obtain ⟨⟨w, mentioned, params, known, -⟩, -⟩ := asked
    obtain ⟨isMentioned, isCallee⟩ := mentioned.callees callee params known
    rw [program]
    exact ⟨callee, isMentioned, linkName?_of_callParams? isCallee⟩
  slots _ _ _ := trivial

theorem Refers.of_emits (emits : (citing p ms).emits op) : Refers p ms globals op := by
  cases op with
  | call callee args => exact emits
  | global name => exact emits.elim
  | _ => trivial

theorem Names.of_sees {id : SymbolId} (sees : (citing p ms).sees id)
    (found : p.scopes.get? id = some ⟨name, span, scope, .variable ⟨type, .global⟩⟩) :
    Names p ms globals (globalName name) := by
  obtain ⟨w, v, mentioned, seen⟩ := sees
  obtain ⟨isMentioned, isVariable, atRoot⟩ := mentioned.seen id v seen
  have isGlobal : v.storage = .global := by
    rw [Program.asVariable?, found] at isVariable
    cases isVariable
    rfl
  have own : globalOf? p id = some ⟨globalName name, irType p.types type, some .zero, false⟩ := by
    rw [globalOf?, found]
  exact .inr ⟨id, atRoot isGlobal, _, isMentioned, own, rfl⟩

theorem Cites.step {st : Step} (h : Cites p ms s.builder) (program : home.program = p)
    (admits : (citing p ms).Admits home K s0 s st) : Cites p ms (st.play s).builder := by
  have pushed {i : Ir.Instr} {s' : LowerState} (function : s'.builder.function = s.builder.function)
      (block : s'.builder.block = s.builder.block.map (·.push i))
      (globals : s'.builder.module.globals = s.builder.module.globals)
      (refers : Refers p ms s.builder.module.globals i.op) : Cites p ms s'.builder :=
    h.push function block (globals ▸ List.Subset.refl _) (globals ▸ refers)
  cases admits with
  | emit emits _ => exact pushed (i := ⟨some s.builder.nextReg, _⟩) rfl rfl rfl (.of_emits emits)
  | global sees found =>
    rw [program] at found
    exact pushed (i := ⟨some s.builder.nextReg, _⟩) rfl rfl rfl (Names.of_sees sees found)
  | @callVoid callee args reaches _ => exact pushed (i := ⟨none, .call callee args⟩) rfl rfl rfl reaches
  | @fresh callee args reaches _ =>
    exact pushed (i := ⟨some s.builder.nextReg, .call callee args⟩) rfl rfl rfl reaches
  | text content =>
    refine h.push (i := ⟨some s.builder.nextReg, .global s!".str.{s.builder.nextString}"⟩) rfl rfl
      (List.subset_append_left _ _) (.inl ⟨s.builder.nextString, content, ?_, rfl⟩)
    exact List.mem_append_right _ List.mem_cons_self
  | slot type => exact h.alloca type
  | note => exact h
  | store => exact pushed (i := ⟨none, _⟩) rfl rfl rfl trivial

theorem Made.cites {α : Type} [Regs α] {m : Lower α} {a : α} (made : Made (citing p ms) regs m)
    (run : m env s = .ok (a, s')) (program : env.program = p) (before : Cites p ms s.builder) :
    Cites p ms s'.builder := by
  have midway : Midway env (fun _ => True) s regs env s :=
    ⟨⟨rfl, fun _ _ same => same⟩, fun _ _ => .inl trivial, fun _ _ => .inl trivial, Nat.le_refl _, .refl _⟩
  have played := (made.played (citing_suits program) midway run).1
  clear run midway
  induction played with
  | refl => exact before
  | step st _ admits ih => exact ih.step program admits

theorem closeFrame_cites {u : Unit} (run : closeFrame env s = .ok (u, s')) (program : env.program = p)
    (before : Cites p ms s.builder) : Cites p ms s'.builder := by
  have released := closeFrame_ok run
  split at released
  · exact (Made.released _).cites released program before
  · rw [released]
    exact before

theorem returnedValue_cites (mentioned : Mentioned p ms w) {e : Expr} {reg : Ir.Reg} (typed : e.WellTyped w)
    (run : returnedValue e env s = .ok (reg, s')) (program : env.program = p) (before : Cites p ms s.builder) :
    Cites p ms s'.builder := by
  obtain ⟨value, s1, evaluated, run⟩ := bind_ok.mp run
  have asked : (citing p ms).evaluates .value e := ⟨⟨w, mentioned, typed⟩, by simp⟩
  have valued := (Made.expr Terms.typed_hereditary .value e asked []).cites evaluated program before
  split at run
  · cases run
    exact valued
  · split at run
    · obtain ⟨_, s2, ignored, run⟩ := bind_ok.mp run
      cases ignored
      cases run
      exact valued
    · have copied : Made (citing p ms) [value] (Lower.call "__rt_string_clone" [value]) :=
        .runtimeCall (by simp [runtime]) (by simp)
      exact copied.cites run program valued

theorem returnStmt_cites (mentioned : Mentioned p ms w) {value : Option Expr} {u : Unit}
    (typed : ∀ e ∈ value, e.WellTyped w) (run : returnStmt value env s = .ok (u, s')) (program : env.program = p)
    (before : Cites p ms s.builder) : Cites p ms s'.builder := by
  obtain ⟨r, s1, s2, made, released, rfl⟩ := returnStmt_run run
  have first : Cites p ms s1.builder := by
    cases value with
    | none =>
      have zero : Made (citing p ms) [] defaultReturn := .defaultReturn
      exact zero.cites made program before
    | some e =>
      obtain ⟨reg, returned, rfl⟩ := map_ok.mp made
      exact returnedValue_cites mentioned (typed e rfl) returned program before
  exact ((Made.released _).cites released program first).terminate _

end

/-! ## A whole function -/

section

variable {s : LowerState}

theorem Cites.createAll (h : Cites p ms s.builder) (labels : List String) : Cites p ms (s.createAll labels).builder := by
  induction labels generalizing s with
  | nil => exact h
  | cons label labels ih => exact ih h

theorem Links.cites {sts : List Stmt} (mentioned : Mentioned p ms w) (program : home.program = p)
    (links : Links w home sts s s') (before : Cites p ms s.builder) : Cites p ms s'.builder := by
  induction links with
  | refl => exact before
  | trans _ _ first second => exact second (first before)
  | create label => exact before
  | enter id => exact before.setBlock id
  | jump t _ => exact before.terminate t
  | piece isPiece run => 
    obtain ⟨_, regs, made⟩ := isPiece.made mentioned fun _ => ⟨mentioned.callees, mentioned.seen⟩
    exact made.cites run program before
  | release run => exact (Made.released _).cites run program before
  | framed _ shut within => exact closeFrame_cites shut program (within before)
  | returns span value typed run =>
    have returned := returnStmt_cites mentioned (fun e mem => (typed e mem).1) run program before
    exact (returned.createAll ["after.return"]).setBlock _

theorem mentioned_narrow (resolved : f.Resolved p) : Mentioned p f.mentions (p.narrow f) where
  callees callee params known := Outlook.params?_only.mp known
  seen id v seen := by
    obtain ⟨isMentioned, seen⟩ := Outlook.sees?_only.mp seen
    obtain ⟨mem, isVariable⟩ := ite_none_right_eq_some.mp seen
    refine ⟨isMentioned, isVariable, fun atRoot => ?_⟩
    exact resolved.mem_globals mem isVariable atRoot

theorem lowerFunction_cites {b : Ir.Builder} (resolved : f.Resolved p) (run : lowerFunction p b f isMain = .ok s) :
    Cites p f.mentions s.builder := by
  obtain ⟨params, -, body⟩ := lowerFunction_run run
  obtain ⟨slots, slots', s1, s2, s3, atParams, atLocals, body, ended⟩ := functionBody_run body
  have mentioned := mentioned_narrow resolved
  obtain ⟨typedBody, typedEnd⟩ := resolved.typed.narrow
  have starts : Cites p f.mentions
      (b.startFunction f.linkName (params.map (·.irType p.types)) (resultType p f isMain)).2 :=
    Cites.startFunction b _ _ _
  have entry := (Made.paramSlots trivial (List.Subset.refl _)).cites atParams rfl starts
  have locals : Made (citing p f.mentions) [] (localSlots f.locals) := .localSlots trivial _
  have front := (locals.cites atLocals rfl entry).createAll (f.labels.map (labelName p))
  let home : Env := { startEnv p f isMain with
    slots := slots ++ slots'
    labels := f.labels.zip (List.range' s2.builder.nextBlock f.labels.length) }
  have links : Links (p.narrow f) home f.body.parts (s2.createAll (f.labels.map (labelName p))) s3 :=
    Links.block f.body typedBody _ _ _ _ body
  have inside := links.cites mentioned rfl front
  obtain ⟨-, rfl⟩ | ⟨-, rfl⟩ | ⟨-, returned⟩ := endOfFunction_run ended
  · exact inside
  · exact inside.terminate _
  · exact returnStmt_cites mentioned typedEnd returned rfl inside

end

end Lowering

end BasicCompiler
