/-
# What code with branches is made of

Where control branches, blocks are created, entered and ended around pieces without branches, frames are opened and
closed, and a body is lowered in other surroundings.
-/
import BasicCompiler.Proofs.Lowering.Made

namespace BasicCompiler.Lowering

open Lower Lower Typed

/-- A piece that may branch. What it looks at in its surroundings, apart from what pieces
without branches do, does not depend on the program. -/
inductive Woven : {α : Type} → Lower α → Prop where
  | made {regs : List Ir.Reg} {α : Type} [Regs α] {m : Lower α} : Made .any regs m → Woven m
  | bind {α β : Type} {m : Lower α} {f : α → Lower β} : Woven m → (∀ a, Woven (f a)) → Woven (m >>= f)
  | look {α : Type} {f : Env → Lower α} : (∀ env p, f { env with program := p } = f env) →
      (∀ env, Woven (f env)) → Woven (read >>= f)
  | within {α : Type} {m : Lower α} (f : Env → Env) :
      (∀ env p, f { env with program := p } = { f env with program := p }) → Woven m → Woven (withReader f m)
  | inspect {α : Type} {f : LowerState → Lower α} : (∀ s, Woven (f s)) → Woven (get >>= f)
  | createBlock (label : String) : Woven (createBlock label)
  | setBlock (id : Ir.BlockId) : Woven (setBlock id)
  | terminate (t : Ir.Terminator) : Woven (terminate t)
  | tidied {step : CleanupStack → CleanupStack} : (∀ c, (step c).frames = c.frames) → Woven (changeCleanups step)
  | framed {α : Type} {m : Lower α} : Woven m → Woven (withFrame m)

namespace Woven

open Terms (any_hereditary)

/-! ## Pieces without branches -/

theorem pure (a : α) : Woven (Pure.pure a) :=
  letI : Regs α := ⟨fun _ => []⟩
  made (.pure a (List.nil_subset []))

theorem fail (fault : LowerFault) (span : Span) : Woven (fail fault span : Lower α) :=
  letI : Regs α := ⟨fun _ => []⟩
  made (Made.fail trivial fault span : Made .any [] _)

theorem expr (want : Want) (e : Expr) : Woven (expr want e) := made (.expr any_hereditary want e trivial [])

theorem storeValue (address value : Ir.Reg) (ty : Ty) : Woven (storeValue address value ty) :=
  made (.storeValue trivial (by simp) (by simp) : Made .any [address, value] _)

theorem typeOf (ty : Ty) : Woven (typeOf ty) :=
  letI : Regs Ir.Ty := ⟨fun _ => []⟩
  made (Made.look (f := Pure.pure) (.type ty) fun _ => .pure _ (List.nil_subset []))

theorem load (address : Ir.Reg) (type : Ir.Ty) : Woven (emit (.load address type)) :=
  made (.emit (.load address type) trivial (by simp [Ir.Op.operands]) : Made .any [address] _)

theorem compare (op : BinaryOp) (left right : Ir.Reg) (ty : Ty) : Woven (compare op left right ty) :=
  made (.compare (by simp) (by simp) : Made .any [left, right] _)

theorem advance (address current step : Ir.Reg) (ty : Ty) : Woven (advance address current step ty) :=
  made (.advance trivial (by simp) (by simp) (by simp) : Made .any [address, current, step] _)

theorem equalsAny (value : Ir.Reg) (ty : Ty) (es : List Expr) : Woven (equalsAny value ty none es) :=
  made (.equalsAny any_hereditary (fun _ _ => trivial) (by simp) (by simp) : Made .any [value] _)

/-! ## Leaving -/

theorem releaseFrom (depth : Nat) : Woven (releaseFrom depth) :=
  inspect fun _ => bind (tidied fun _ => rfl) fun _ => made (.released _)

theorem detach (label : String) : Woven (detach label) := bind (createBlock label) setBlock

theorem createBlocks (label : α → String) (as : List α) : Woven (createBlocks label as) := by
  induction as with
  | nil => exact pure []
  | cons a rest ih => exact bind (createBlock _) fun _ => bind ih fun _ => pure _

theorem returnedValue (e : Expr) : Woven (returnedValue e) := by
  refine bind (expr .value e) fun value => ?_
  split
  · exact pure value
  · split
    · exact bind (tidied fun _ => rfl) fun _ => pure value
    · exact made (.runtimeCall (by simp [runtime]) (by simp) : Made .any [value] _)

theorem returnStmt (value : Option Expr) : Woven (Lower.returnStmt value) := by
  have rest (value : Option Ir.Reg) : Woven (do
      Lower.releaseFrom 0
      Lower.terminate (.ret value)) := bind (releaseFrom 0) fun _ => terminate _
  cases value with
  | none => exact bind (made (.defaultReturn : Made .any [] _)) rest
  | some e => exact bind (returnedValue e) fun _ => bind (pure _) rest

theorem leaveLoop (span : Span) (target : LoopTargets → Ir.BlockId) : Woven (leaveLoop span target) := by
  refine look (fun _ _ => rfl) fun env => ?_
  cases env.loop with
  | none => exact fail _ _
  | some targets => exact bind (releaseFrom _) fun _ => bind (terminate _) fun _ => detach _

theorem fallThrough (span : Span) : Woven (fallThrough span) := by
  refine look (fun _ _ => rfl) fun env => ?_
  rcases env.nextCase with _ | ⟨_ | next, depth⟩
  · exact fail _ _
  · exact fail _ _
  · exact bind (releaseFrom _) fun _ => bind (terminate _) fun _ => detach _

theorem gotoLabel (id : SymbolId) : Woven (gotoLabel id) := by
  refine look (fun _ _ => rfl) fun env => ?_
  cases env.labels.lookup id with
  | none => exact detach _
  | some target => exact bind (terminate _) fun _ => detach _

theorem stop : Woven stop :=
  bind (made (.callVoid _ _ (.inl (by simp [runtime])) (by simp) : Made .any [] _)) fun _ =>
    bind (terminate _) fun _ => detach _

/-! ## Parts of selections and loops -/

theorem condition (cond : Expr) : Woven (condition cond) := framed (expr .value cond)

theorem caseTests (value : Ir.Reg) (ty : Ty) (otherwise : Ir.BlockId) (tests : List (List Expr × Ir.BlockId)) :
    Woven (caseTests value ty otherwise tests) := by
  induction tests with
  | nil => exact terminate _
  | cons test rest ih =>
    have tested := framed (equalsAny value ty test.1)
    cases rest with
    | nil => exact bind tested fun _ => terminate _
    | cons next rest =>
      exact bind tested fun _ => bind (createBlock _) fun _ => bind (terminate _) fun _ => bind (setBlock _) fun _ => ih

section Loops

variable {body : Lower Unit} (h : Woven body)

include h

theorem inLoop (onExit onContinue : Ir.BlockId) : Woven (inLoop onExit onContinue body) :=
  bind (inspect fun _ => pure _) fun _ => within _ (fun _ _ => rfl) h

theorem inCase (next : Option Ir.BlockId) : Woven (inCase next body) :=
  bind (inspect fun _ => pure _) fun _ => within _ (fun _ _ => rfl) h

theorem inclusiveLoop (address bound step : Ir.Reg) (ty : Ty) : Woven (inclusiveLoop address bound step ty body) := by
  refine bind (typeOf ty) fun type => bind (createBlock _) fun bodyBlock => bind (createBlock _) fun onExit => ?_
  refine bind (createBlock _) fun test => bind (createBlock _) fun next => bind (setBlock bodyBlock) fun _ => ?_
  refine bind (inLoop h onExit test) fun _ => bind (setBlock test) fun _ => bind (load address type) fun current => ?_
  refine bind (compare .eq current bound ty) fun done => bind (terminate _) fun _ => bind (setBlock next) fun _ => ?_
  exact bind (advance address current step ty) fun _ => bind (terminate _) fun _ => setBlock _

theorem exclusiveLoop (address bound step : Ir.Reg) (ty : Ty) : Woven (exclusiveLoop address bound step ty body) := by
  refine bind (typeOf ty) fun type => bind (createBlock _) fun bodyBlock => bind (createBlock _) fun onExit => ?_
  refine bind (createBlock _) fun head => bind (createBlock _) fun next => bind (setBlock head) fun _ => ?_
  refine bind (load address type) fun current => bind (compare .eq current bound ty) fun done => ?_
  refine bind (terminate _) fun _ => bind (setBlock bodyBlock) fun _ => bind (inLoop h onExit next) fun _ => ?_
  refine bind (setBlock next) fun _ => bind (load address type) fun current => ?_
  exact bind (advance address current step ty) fun _ => bind (terminate _) fun _ => setBlock _

theorem forLoop (var start bound : Expr) (inclusive : Bool) (step : Option Expr) :
    Woven (Lower.forLoop var start bound inclusive step body) := by
  have loop (address bound step : Ir.Reg) : Woven
      (if inclusive then Lower.inclusiveLoop address bound step var.ty body
        else Lower.exclusiveLoop address bound step var.ty body) := by
    split
    · exact inclusiveLoop h _ _ _ _
    · exact exclusiveLoop h _ _ _ _
  refine bind (expr .address var) fun address => bind (expr .value start) fun first => ?_
  refine bind (storeValue _ _ _) fun _ => bind (expr .value bound) fun bound => ?_
  cases step with
  | none => exact bind (made (.one var.ty : Made .any [] _)) fun step => loop address bound step
  | some step => exact bind (expr .value step) fun step => loop address bound step

theorem doLoop : Woven (doLoop body) := by
  refine bind (createBlock _) fun bodyBlock => bind (createBlock _) fun onExit => ?_
  refine bind (setBlock bodyBlock) fun _ => bind (inLoop h onExit bodyBlock) fun _ => ?_
  exact bind (terminate _) fun _ => setBlock _

theorem whileLoop (cond : Expr) : Woven (whileLoop cond body) := by
  refine bind (createBlock _) fun head => bind (createBlock _) fun bodyBlock => bind (createBlock _) fun onExit => ?_
  refine bind (setBlock head) fun _ => bind (condition cond) fun holds => bind (terminate _) fun _ => ?_
  exact bind (setBlock bodyBlock) fun _ => bind (inLoop h onExit head) fun _ => bind (terminate _) fun _ => setBlock _

theorem repeatLoop (cond : Expr) : Woven (repeatLoop body cond) := by
  refine bind (createBlock _) fun bodyBlock => bind (createBlock _) fun test => bind (createBlock _) fun onExit => ?_
  refine bind (setBlock bodyBlock) fun _ => bind (inLoop h onExit test) fun _ => bind (setBlock test) fun _ => ?_
  exact bind (condition cond) fun _ => bind (terminate _) fun _ => setBlock _

end Loops

/-! ## Statements and blocks -/

mutual

theorem stmt : (st : Stmt) → Woven (stmt st)
  | .label _ id => by
    refine look (fun _ _ => rfl) fun env => ?_
    cases env.labels.lookup id with
    | none => exact pure ()
    | some block => exact setBlock block
  | .declare _ _ _ _ =>
    made (.declaration any_hereditary trivial trivial (fun _ _ => trivial) (fun _ _ => trivial) : Made .any [] _)
  | .assign _ _ _ => made (.assignment any_hereditary trivial trivial (fun _ _ _ _ => trivial) trivial : Made .any [] _)
  | .eval _ _ => made (.effect any_hereditary trivial : Made .any [] _)
  | .ifChain _ bs otherwise => by
    refine bind (createBlocks _ _) fun tests => bind (createBlocks _ _) fun bodies => ?_
    refine bind (createBlocks _ _) fun elseBlock => bind (createBlock _) fun merge => ?_
    exact bind (branches merge _ tests bodies bs) fun _ => bind (elseBranch merge _ otherwise) fun _ => setBlock merge
  | .select _ selector cases => by
    refine bind (expr .value selector) fun value => bind (createBlock _) fun last => bind (createBlocks _ _) fun bodies => ?_
    exact bind (caseTests value _ _ _) fun _ => bind (caseBodies last bodies cases) fun _ => setBlock last
  | .doLoop _ body => doLoop (block body)
  | .whileLoop _ cond body => whileLoop (block body) cond
  | .repeatLoop _ body cond => repeatLoop (block body) cond
  | .forLoop _ var start bound inclusive step body => forLoop (block body) var start bound inclusive step
  | .goto _ id => gotoLabel id
  | .ret _ value => bind (returnStmt value) fun _ => detach _
  | .exitLoop span | .continueLoop span => leaveLoop span _
  | .fallthrough span => fallThrough span
  | .stop _ => stop

theorem stmts : (sts : List Stmt) → Woven (stmts sts)
  | [] => pure ()
  | st :: rest => bind (stmt st) fun _ => stmts rest

theorem block : (b : Block) → Woven (block b)
  | .mk _ body => framed (stmts body)

theorem branches (merge otherwise : Ir.BlockId) (tests bodies : List Ir.BlockId) :
    (bs : List Branch) → Woven (branches merge otherwise tests bodies bs)
  | [] => pure ()
  | .mk cond body :: rest => by
    refine bind (condition cond) fun holds => bind (terminate _) fun _ => bind (setBlock _) fun _ => ?_
    refine bind (block body) fun _ => bind (terminate _) fun _ => ?_
    cases tests with
    | nil => exact branches merge otherwise [] bodies.tail rest
    | cons test tests => exact bind (setBlock test) fun _ => branches merge otherwise tests bodies.tail rest

theorem elseBranch (merge elseBlock : Ir.BlockId) : (body : Option Block) → Woven (elseBranch merge elseBlock body)
  | none => pure ()
  | some body => bind (setBlock _) fun _ => bind (block body) fun _ => terminate _

theorem caseBodies (last : Ir.BlockId) (bodies : List Ir.BlockId) :
    (cases : List Case) → Woven (caseBodies last bodies cases)
  | [] => pure ()
  | .mk _ body :: rest =>
    bind (setBlock _) fun _ => bind (inCase (block body) _) fun _ => bind (terminate _) fun _ =>
      caseBodies last bodies.tail rest

end

theorem endOfFunction (endValue : Option Expr) : Woven (endOfFunction endValue) := by
  refine inspect fun s => ?_
  dsimp only
  split
  · exact pure ()
  · split
    · exact terminate _
    · exact returnStmt endValue

end Woven

end BasicCompiler.Lowering
