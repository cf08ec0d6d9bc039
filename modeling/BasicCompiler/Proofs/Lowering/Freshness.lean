/-
# Which strings are noted for release

The tree says of a string expression whether its value is new. The lowering notes the value for release exactly then,
and whatever else it notes on the way is the result of a call as well.
-/
import BasicCompiler.Proofs.Lowering.Returning
import Mathlib.Logic.Relation

namespace BasicCompiler

open List Lowering.Lower Typed
open Relation (ReflTransGen)

namespace Typed

/-! ## Where expressions occur -/

def Arg.expr : Arg → Expr
  | .value e | .place e => e

def Branch.cond : Branch → Expr
  | .mk cond _ => cond

def Branch.body : Branch → Block
  | .mk _ body => body

/-- The expressions right inside an expression. -/
def Expr.inner : Expr → List Expr
  | .const _ _ | .var _ _ | .target _ => []
  | .member _ e _ | .swizzle _ e _ | .unary _ _ e | .convert _ _ e => [e]
  | .index _ a b | .binary _ _ a b => [a, b]
  | .call _ _ args => args.map Arg.expr
  | .construct _ parts => parts

/-- The statements right inside a statement. -/
def Stmt.inner : Stmt → List Stmt
  | .ifChain _ bs otherwise => bs.flatMap (·.body.stmts) ++ otherwise.toList.flatMap (·.stmts)
  | .select _ _ cs => cs.flatMap (·.body.stmts)
  | .doLoop _ body | .whileLoop _ _ body | .repeatLoop _ body _ | .forLoop _ _ _ _ _ _ body => body.stmts
  | _ => []

/-- The expressions of a statement that stand in no other one. -/
def Stmt.exprs : Stmt → List Expr
  | .declare _ _ size init => size.toList ++ init.toList
  | .assign _ target value => [target, value]
  | .eval _ e => [e]
  | .ifChain _ bs _ => bs.map (·.cond)
  | .select _ selector cs => selector :: cs.flatMap (·.values)
  | .whileLoop _ cond _ | .repeatLoop _ _ cond => [cond]
  | .forLoop _ var start bound _ step _ => var :: start :: bound :: step.toList
  | .ret _ value => value.toList
  | _ => []

/-- The expression occurs in the function, however deep. -/
def Function.Evaluates (f : Function) (e : Expr) : Prop :=
  ∃ root, (root ∈ f.endValue.toList ∨ ∃ s ∈ f.body.stmts, ∃ t,
      ReflTransGen (fun a b => b ∈ a.inner) s t ∧ root ∈ t.exprs) ∧ ReflTransGen (fun a b => b ∈ a.inner) root e

section

variable {w : Outlook} {e : Expr} {s : Stmt} {p : Program} {f : Function}

theorem Expr.WellTyped.inner (typed : e.WellTyped w) : ∀ x ∈ e.inner, x.WellTyped w := by
  cases e with
  | const | var | target => exact forall_mem_nil _
  | member | swizzle | unary | convert => exact forall_mem_singleton.mpr typed.1
  | index | binary => exact forall_mem_cons.mpr ⟨typed.1, forall_mem_singleton.mpr typed.2.1⟩
  | call =>
    obtain ⟨params, -, -, args, -⟩ := typed
    refine forall_mem_map.mpr fun arg mem => ?_
    obtain ⟨p, typedArg⟩ := args.each arg mem
    cases arg <;> exact typedArg.2.1
  | construct =>
    obtain ⟨t, -, -, -, parts⟩ := typed
    exact parts.each

theorem Block.WellTyped.each {b : Block} (typed : b.WellTyped w) : ∀ s ∈ b.stmts, s.WellTyped w := by
  cases b
  exact forall_mem_of_step (fun _ _ h => h) typed

theorem Branch.WellTypedAll.each (typed : WellTypedAll w bs) :
    ∀ b ∈ bs, b.cond.WellTyped w ∧ b.body.WellTyped w :=
  forall_mem_of_step (fun b _ h => by cases b; exact ⟨⟨h.1.1, h.2.1⟩, h.2.2⟩) typed

theorem Stmt.WellTyped.inner (typed : s.WellTyped w) : ∀ t ∈ s.inner, t.WellTyped w := by
  cases s with
  | ifChain span bs otherwise =>
    refine forall_mem_append.mpr ⟨forall_mem_flatMap.mpr fun b mem => (typed.1.each b mem).2.each, ?_⟩
    cases otherwise with
    | none => simp
    | some body => simpa using Block.WellTyped.each typed.2
  | select => exact forall_mem_flatMap.mpr fun c mem => (typed.2.2.each c mem).2.each
  | doLoop => exact Block.WellTyped.each typed
  | whileLoop | repeatLoop => exact typed.2.each
  | forLoop => exact typed.2.2.2.2.each
  | _ => exact forall_mem_nil _

theorem Stmt.WellTyped.exprs (typed : s.WellTyped w) : ∀ e ∈ s.exprs, ∃ w, e.WellTyped w := by
  cases s with
  | declare =>
    obtain ⟨v, -, size, init⟩ := typed
    simp only [Stmt.exprs, forall_mem_append, Option.mem_toList]
    exact ⟨fun e mem => ⟨w, (size e mem).1⟩, fun e mem => ⟨w, (init e mem).1⟩⟩
  | assign => exact forall_mem_cons.mpr ⟨⟨w, typed.1⟩, forall_mem_singleton.mpr ⟨_, typed.2.2.1⟩⟩
  | eval => exact forall_mem_singleton.mpr ⟨w, typed⟩
  | ifChain => exact forall_mem_map.mpr fun b mem => ⟨w, (typed.1.each b mem).1⟩
  | select =>
    refine forall_mem_cons.mpr ⟨⟨w, typed.1⟩, forall_mem_flatMap.mpr fun c mem e isValue => ?_⟩
    exact ⟨w, (typed.2.2.each c mem).1.each e isValue⟩
  | whileLoop | repeatLoop => exact forall_mem_singleton.mpr ⟨w, typed.1.1⟩
  | forLoop =>
    obtain ⟨⟨var, -⟩, start, bound, step, -⟩ := typed
    simp only [Stmt.exprs, forall_mem_cons, Option.mem_toList]
    exact ⟨⟨w, var⟩, ⟨w, start.1⟩, ⟨w, bound.1⟩, fun e mem => ⟨w, (step e mem).1⟩⟩
  | ret => exact fun e mem => ⟨w, (typed e (Option.mem_toList.mp mem)).1⟩
  | _ => exact forall_mem_nil _

theorem Function.WellTyped.evaluates (typed : f.WellTyped p) (occurs : f.Evaluates e) : ∃ w, e.WellTyped w := by
  obtain ⟨root, stands, inside⟩ := occurs
  have typedRoot : ∃ w, root.WellTyped w := by
    rcases stands with isEnd | ⟨s, mem, t, within, isRoot⟩
    · exact ⟨_, (typed.endValue root (Option.mem_toList.mp isEnd)).1.1⟩
    · have typedStmt : t.WellTyped (p.outlook f) := by
        clear isRoot
        induction within with
        | refl => exact typed.body.each s mem
        | tail _ next ih => exact ih.inner _ next
      exact typedStmt.exprs root isRoot
  induction inside with
  | refl => exact typedRoot
  | tail _ next ih =>
    obtain ⟨w, typed⟩ := ih
    exact ⟨w, typed.inner _ next⟩

end

end Typed

namespace Lowering

/-! ## Steps that note -/

variable {env : Env} {s s1 s' : LowerState} {v : Ir.Reg} {block : Ir.Block}

/-- The step notes no place. -/
def Step.IsDirect : Step → Prop
  | .note _ _ => False
  | _ => True

abbrev Directly : LowerState → LowerState → Prop := Played fun _ st => st.IsDirect

/-- What was noted in the innermost frame between two states: strings that calls have made since. -/
structure Notes (s s' : LowerState) (notes : List Cleanup) : Prop where
  frames : ∀ top rest, s.cleanups.frames = top :: rest → s'.cleanups.frames = (notes ++ top) :: rest
  nodup : notes.Nodup
  calls : ∀ c ∈ notes, s.builder.nextReg ≤ c.reg ∧ c.reg < s'.builder.nextReg ∧ c = .direct .string c.reg ∧
    ∃ callee args, ∀ block, s'.builder.block = some block → ⟨some c.reg, .call callee args⟩ ∈ block.instrs

theorem mem_insertAt (mem : i ∈ block.instrs) : i ∈ (Ir.Builder.insertAt n j block).instrs := by
  unfold Ir.Builder.insertAt
  by_cases inside : n ≤ block.instrs.length
  · exact (mem_insertIdx inside).mpr (.inr mem)
  · rwa [insertIdx_of_length_lt (by omega)]

theorem Step.mem_play (st : Step) (mem : ∀ block, s.builder.block = some block → i ∈ block.instrs) :
    ∀ block, (st.play s).builder.block = some block → i ∈ block.instrs := by
  have kept {f : Ir.Block → Ir.Block} (keeps : ∀ c, i ∈ c.instrs → i ∈ (f c).instrs) :
      ∀ block, s.builder.block.map f = some block → i ∈ block.instrs := by
    intro block found
    obtain ⟨before, isBlock, rfl⟩ := Option.map_eq_some_iff.mp found
    exact keeps before (mem before isBlock)
  cases st with
  | emit | perform | text | fresh => exact kept fun _ => mem_append_left _
  | note owned place => exact mem
  | slot type =>
    intro block found
    simp only [play, LowerState.edit_builder, Ir.Builder.alloca, Ir.Builder.freshReg] at found
    split at found
    · split at found
      · exact mem block found
      · exact kept (fun _ => mem_insertAt) block found
    · exact kept (fun _ => mem_insertAt) block found

theorem Notes.quiet (h : Notes s s1 notes) (st : Step) (same : (st.play s1).cleanups = s1.cleanups) :
    Notes s (st.play s1) notes where
  frames top rest framed := by rw [same, h.frames top rest framed]
  nodup := h.nodup
  calls c mem := by
    obtain ⟨since, before, isDirect, callee, args, called⟩ := h.calls c mem
    exact ⟨since, Nat.lt_of_lt_of_le before st.play_nextReg_le, isDirect, callee, args, st.mem_play called⟩

theorem Notes.fresh (h : Notes s s1 notes) (le : s.builder.nextReg ≤ s1.builder.nextReg) (callee : String)
    (args : List Ir.Reg) :
    Notes s ((Step.fresh callee args).play s1) (.direct .string s1.builder.nextReg :: notes) where
  frames top rest framed := Edits.frames_register (h.frames top rest framed)
  nodup := by
    refine nodup_cons.mpr ⟨fun mem => ?_, h.nodup⟩
    exact Nat.lt_irrefl _ (h.calls _ mem).2.1
  calls := by
    refine forall_mem_cons.mpr ⟨⟨le, Nat.lt_succ_self _, rfl, callee, args, fun block found => ?_⟩, fun c mem => ?_⟩
    · obtain ⟨before, -, rfl⟩ := Option.map_eq_some_iff.mp found
      exact mem_append_right _ (mem_singleton_self _)
    · obtain ⟨since, before, isDirect, callee', args', called⟩ := h.calls c mem
      exact ⟨since, Nat.lt_succ_of_lt before, isDirect, callee', args',
        (Step.fresh callee args).mem_play called⟩

theorem Directly.notes (h : Directly s s') : ∃ notes, Notes s s' notes := by
  induction h with
  | refl => exact ⟨[], fun _ _ framed => framed, nodup_nil, forall_mem_nil _⟩
  | step st before isDirect ih =>
    obtain ⟨notes, noted⟩ := ih
    cases st with
    | fresh callee args => exact ⟨_, noted.fresh before.nextReg_le callee args⟩
    | note owned place => exact isDirect.elim
    | _ => exact ⟨notes, noted.quiet _ rfl⟩

/-! ## The last step of an evaluation -/

def quietly : Terms := { Terms.any with stores := False }

theorem quietly_hereditary : quietly.Hereditary := { Terms.any_hereditary with }

theorem Made.quiet {α : Type} [Regs α] {m : Lower α} {a : α} (made : Made quietly regs m)
    (run : m env s = .ok (a, s')) : Directly s s' := by
  refine (made.steps (fun _ => trivial) run).mono fun _ st admits => ?_
  cases admits with
  | note stores _ => exact stores.elim
  | _ => trivial

theorem expr_quiet (run : expr want e env s = .ok (v, s')) : Directly s s' :=
  (Made.expr quietly_hereditary want e trivial []).quiet run

theorem calleeWithArgs_quiet (run : calleeWithArgs target regs env s = .ok (named, s')) : Directly s s' := by
  rw [calleeWithArgs, read_bind] at run
  cases target with
  | function id =>
    cases run
    exact .refl _
  | command index =>
    cases found : env.program.commands[index]? with
    | none =>
      simp only [found] at run
      cases run
      exact .refl _
    | some c =>
      simp only [found] at run
      obtain ⟨all, s1, completed, run⟩ := bind_ok.mp run
      cases run
      exact (Made.commandArgs _ (Subset.refl regs) : Made quietly regs _).quiet completed

/-- The value is what the last step makes: a string that it notes if the value is new, and else nothing it notes. -/
def Last (isNew : Bool) (s : LowerState) (v : Ir.Reg) (s' : LowerState) : Prop :=
  ∃ s₀, Directly s s₀ ∧ v = s₀.builder.nextReg ∧
    if isNew then ∃ callee args, s' = (Step.fresh callee args).play s₀ else ∃ op, s' = (Step.emit op).play s₀

section

variable (before : Directly s s1)
include before

theorem Last.fresh {callee : String} {args : List Ir.Reg} (run : freshString callee args env s1 = .ok (v, s')) :
    Last true s v s' := by
  cases run
  exact ⟨s1, before, rfl, callee, args, rfl⟩

theorem Last.toText {value : Ir.Reg} {source : Ty} (run : toText value source env s1 = .ok (v, s')) :
    Last true s v s' := by
  obtain ⟨kind, type, callee, wide, s2, -, cast, made⟩ := toText_run run
  have more := (Made.castWith (mem_singleton_self value) : Made quietly [value] _).quiet cast
  exact .fresh (before.trans more) made

end

theorem toString_of_converts {conversion : Conversion} {source : Ty} (converts : Converts conversion source .string) :
    conversion = .toString := by
  obtain ⟨changes, valid, mode, rfl⟩ := converts
  unfold Ty.conversion at changes valid ⊢
  by_cases same : source = .string
  · exact absurd (if_pos same) changes
  · rw [if_neg same] at valid ⊢
    cases found : source.builtin? with
    | none => rw [found] at valid; cases valid
    | some a =>
      rw [found] at valid
      cases a <;> cases mode <;> first | rfl | cases valid

/-- By the form of the expression, whose parts only have to be evaluated. -/
theorem expr_last {w : Outlook} {e : Expr} (typed : e.WellTyped w) (isString : e.ty = .string)
    (run : expr .value e env s = .ok (v, s')) : Last e.isFresh s v s' := by
  have held (isPlace : e.isPlace = true) : Last false s v s' := by
    obtain ⟨address, s1, found, run⟩ := expr_of_isPlace isPlace run
    cases run
    exact ⟨_, expr_quiet found, rfl, _, rfl⟩
  cases e with
  | var | member | index => exact held rfl
  | const info value =>
    cases value with
    | str content =>
      obtain ⟨bytes, s1, made, run⟩ := bind_ok.mp run
      exact .fresh ((Made.text content : Made quietly [] _).quiet made) run
    | int | float | bool =>
      cases run
      exact ⟨_, .refl _, rfl, _, rfl⟩
  | swizzle info base axes =>
    obtain ⟨vector, s1, evaluated, run⟩ := bind_ok.mp run
    unfold components at run
    split at run <;> cases run <;> exact ⟨_, expr_quiet evaluated, rfl, _, rfl⟩
  | call info target args =>
    obtain ⟨regs, s1, evaluated, run⟩ := bind_ok.mp run
    have passed := (Made.arguments quietly_hereditary args (fun arg _ => by cases arg <;> trivial) []).quiet evaluated
    obtain ⟨value, s2, called, run⟩ := bind_ok.mp run
    obtain ⟨⟨name, all⟩, s3, named, called⟩ := bind_ok.mp called
    rw [show info.ty = .string from isString] at called
    cases called
    cases run
    exact ⟨s3, passed.trans (calleeWithArgs_quiet named), rfl, name, all, rfl⟩
  | construct info parts =>
    obtain ⟨lanes, s1, evaluated, run⟩ := bind_ok.mp run
    cases run
    exact ⟨_, (Made.exprs quietly_hereditary parts (fun _ _ => trivial) []).quiet evaluated, rfl, _, rfl⟩
  | unary info op operand =>
    obtain ⟨value, s1, evaluated, run⟩ := bind_ok.mp run
    cases op <;> cases run <;> exact ⟨_, expr_quiet evaluated, rfl, _, rfl⟩
  | binary info op left right =>
    obtain ⟨l, s1, first, run⟩ := bind_ok.mp run
    obtain ⟨r, s2, second, run⟩ := bind_ok.mp run
    have owns : (TypeTable.empty .bits64 1).needsFini info.ty = true := by
      rw [show info.ty = .string from isString]
      rfl
    obtain ⟨noComparison, sameType, isString⟩ := joins_of_between typed.2.2.2 owns
    unfold Lower.binary at run
    rw [if_neg (by simp [noComparison]), if_pos (by rw [sameType]; exact isString)] at run
    exact .fresh ((expr_quiet first).trans (expr_quiet second)) run
  | convert info conversion operand =>
    obtain ⟨value, s1, evaluated, run⟩ := bind_ok.mp run
    obtain ⟨-, converts⟩ := typed
    rw [show info.ty = .string from isString] at converts
    obtain rfl := toString_of_converts converts
    exact .toText (expr_quiet evaluated) run
  | target info =>
    obtain ⟨inner, s1, same, found⟩ := bind_ok.mp run
    obtain ⟨rfl, rfl⟩ := read_ok.mp same
    cases aimed : inner.target <;> rw [aimed] at found <;> cases found
    exact ⟨_, .refl _, rfl, _, rfl⟩

/-- From the notes up to the last step. -/
theorem Last.notes {isNew : Bool} (last : Last isNew s v s') :
    ∃ notes, Notes s s' notes ∧ (.direct .string v ∈ notes ↔ isNew = true) := by
  obtain ⟨s1, before, rfl, made⟩ := last
  obtain ⟨notes, noted⟩ := Directly.notes before
  cases isNew with
  | true =>
    obtain ⟨callee, args, rfl⟩ := made
    exact ⟨_, noted.fresh before.nextReg_le callee args, by simp⟩
  | false =>
    obtain ⟨op, rfl⟩ := made
    refine ⟨notes, noted.quiet _ rfl, fun mem => ?_, by simp⟩
    exact absurd (noted.calls _ mem).2.1 (Nat.lt_irrefl _)

/-- In a program that is accepted the evaluation of a string notes its value for release exactly if the tree says that
it is new, and all that it notes are strings that its own calls have made, each once. -/
theorem string_noted_iff_isFresh {ctx : Context} {p : Program} {f : Function} {e : Expr}
    (accepted : check ctx source = .ok p) (isFunction : f ∈ p.functions ++ [p.main]) (occurs : f.Evaluates e)
    (isString : e.ty.isString = true) (run : expr .value e env s = .ok (v, s')) :
    ∃ notes, Notes s s' notes ∧ (.direct .string v ∈ notes ↔ e.isFresh = true) := by
  obtain ⟨w, typed⟩ := ((check_resolved accepted).each f isFunction).typed.evaluates occurs
  exact (expr_last typed (of_decide_eq_true isString) run).notes

theorem ok_of_any {r : Except ε α} (h : r.toOption.any q = true) : ∃ a, r = .ok a ∧ q a = true := by
  cases r with
  | error e => cases h
  | ok a => exact ⟨a, rfl, h⟩

/-- The value of `a$ = "x" + 1`. -/
theorem concatenation_noted : ∃ (p : Program) (e : Expr) (env : Env) (s s' : LowerState) (v : Ir.Reg),
    p.main.Evaluates e ∧ expr .value e env s = .ok (v, s') ∧
      ∃ notes, Notes s s' notes ∧ .direct .string v ∈ notes := by
  let span : Span := ⟨0, 0⟩
  let joined : Source.Expr :=
    .binary span ⟨.add, span⟩ (.literal span (.token (.str "x"))) (.literal span (.token (.int 1)))
  let source : Source.Program := ⟨[], [], [.assign span (.name span ⟨"a$", span⟩) none joined]⟩
  let home (p : Program) : Env := ⟨p, .void, true, [], [], none, none, none⟩
  let s : LowerState := ⟨((Ir.Builder.start "").startFunction "" [] .void).2, ⟨[[]], [], [], []⟩⟩
  have computed : (check (.bare .bits64) source).toOption.any (fun p => p.main.body.stmts.any fun t => t.exprs.any
      fun e => e.ty.isString && e.isFresh && (expr .value e (home p) s).toOption.any fun _ => true) = true := by
    decide +kernel
  obtain ⟨p, accepted, computed⟩ := ok_of_any computed
  simp only [any_eq_true, Bool.and_eq_true] at computed
  obtain ⟨t, isStmt, e, isExpr, ⟨isString, isFresh⟩, succeeds⟩ := computed
  have occurs : p.main.Evaluates e := ⟨e, .inr ⟨t, isStmt, t, .refl, isExpr⟩, .refl⟩
  obtain ⟨made, run, -⟩ := ok_of_any succeeds
  obtain ⟨notes, noted, isNoted⟩ := string_noted_iff_isFresh accepted (by simp) occurs isString run
  exact ⟨p, e, home p, s, made.2, made.1, occurs, run, notes, noted, isNoted.mpr isFresh⟩

end Lowering

end BasicCompiler
