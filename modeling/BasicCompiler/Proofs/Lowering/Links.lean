/-
# A body is lowered link by link

However statements are nested, the lowering of a body is a sequence of a few kinds of links: a block is created,
entered or ended, a frame is opened and closed, and in between stand pieces that emit no branch.
-/
import BasicCompiler.Proofs.Lowering.Shapes
import BasicCompiler.Proofs.Lowering.Addresses

namespace BasicCompiler

open Lowering.Lower Typed List

/-- Whether a handle stands for the values of a type: strings and arrays. -/
def Ty.isHeld (ty : Ty) : Bool := ty.isString || ty.isArray

/-! ## The parts of a body -/

namespace Typed

mutual

/-- The statements in a statement, itself included, that evaluate something of their own and
are not tests. -/
def Stmt.parts : Stmt → List Stmt
  | .ifChain _ branches otherwise => Branch.partsAll branches ++ Block.partsOf otherwise
  | .select _ _ cases => Case.partsAll cases
  | .doLoop _ body | .whileLoop _ _ body | .repeatLoop _ body _ => body.parts
  | .forLoop span var start bound inclusive step body => .forLoop span var start bound inclusive step body :: body.parts
  | .declare span id size init => [.declare span id size init]
  | .assign span target value => [.assign span target value]
  | .eval span e => [.eval span e]
  | .ret span value => [.ret span value]
  | .label _ _ | .goto _ _ | .exitLoop _ | .continueLoop _ | .fallthrough _ | .stop _ => []

def Stmt.partsAll : List Stmt → List Stmt
  | [] => []
  | s :: rest => s.parts ++ Stmt.partsAll rest

def Block.parts : Block → List Stmt
  | .mk _ body => Stmt.partsAll body

def Block.partsOf : Option Block → List Stmt
  | none => []
  | some body => body.parts

def Branch.partsAll : List Branch → List Stmt
  | [] => []
  | .mk _ body :: rest => body.parts ++ Branch.partsAll rest

def Case.partsAll : List Case → List Stmt
  | [] => []
  | .mk _ body :: rest => body.parts ++ Case.partsAll rest

end

end Typed

namespace Lowering

open Lower
open Typed (Outlook)

/-! ## Links -/

def Env.around (env : Env) (loop : Option LoopTargets) (nextCase : Option CaseTarget) : Env :=
  { env with loop, nextCase }

/-- The pieces that emit no branch, with the statements they stand for, all of them well
typed. -/
inductive Piece (w : Outlook) : List Stmt → {α : Type} → Lower α → Prop where
  | declaration {span : Span} {id : SymbolId} {size init : Option Expr} :
      (Stmt.declare span id size init).WellTyped w →
      Piece w [.declare span id size init] (declaration span id size init)
  | assignment {span : Span} {target value : Expr} : (Stmt.assign span target value).WellTyped w →
      Piece w [.assign span target value] (assignment target value)
  | effect {span : Span} {e : Expr} : e.WellTyped w → Piece w [.eval span e] (effect e)
  | loopHead {span : Span} {var start bound : Expr} {inclusive : Bool} {step : Option Expr}
      {body : Block} : (Stmt.forLoop span var start bound inclusive step body).WellTyped w →
      Piece w [.forLoop span var start bound inclusive step body] (loopHead var start bound step)
  | value {e : Expr} : e.WellTyped w → Piece w [] (expr .value e)
  | equalsAny {value : Ir.Reg} {ty ty' : Ty} {es : List Expr} : Expr.WellTypedAll w ty' es →
      Piece w [] (equalsAny value ty none es)
  | atBound (address bound : Ir.Reg) (ty : Ty) : Piece w [] (atBound address bound ty)
  | current (address : Ir.Reg) (type : Ir.Ty) : Piece w [] (emit (.load address type))
  | advance (address current step : Ir.Reg) (ty : Ty) : Piece w [] (advance address current step ty)
  | ending : Piece w [] (callVoid "__rt_end" [])

/-! ## Well typed pieces -/

/-- The terms on which only what is well typed is evaluated, in outlooks of one kind, and only
what no handle stands for is put into a slot of its own. -/
def Terms.typed (kind : Outlook → Prop) (calls : String → Prop) (stores : Prop) : Terms where
  evaluates want e := (∃ w, kind w ∧ e.WellTyped w) ∧ (want = .slot → e.ty.isHeld = false)
  sees id := ∃ w v, kind w ∧ w.sees? id = some v
  calls := calls
  stores := stores
  fails := True

section

variable {calls : String → Prop} {stores : Prop}

theorem Terms.typed_evaluates (isKind : kind w) (typed : e.WellTyped w) (notSlot : want ≠ .slot) :
    (Terms.typed kind calls stores).evaluates want e :=
  ⟨⟨w, isKind, typed⟩, fun isSlot => absurd isSlot notSlot⟩

theorem Terms.typed_evaluatesAll (isKind : kind w) (typed : Expr.WellTypedAll w ty es) :
    ∀ e ∈ es, (Terms.typed kind calls stores).evaluates .value e :=
  fun e mem => typed_evaluates isKind (typed.each e mem) (by simp)

theorem Terms.typed_passesAll (isKind : kind w) (typed : Arg.WellTypedAll w params args) :
    ∀ arg ∈ args, (Terms.typed kind calls stores).passes arg := by
  intro arg mem
  obtain ⟨p, typedArg⟩ := typed.each arg mem
  cases arg with
  | value e | place e => exact typed_evaluates isKind typedArg.2.1 (by simp)

theorem Terms.typed_hereditary : (Terms.typed kind calls stores).Hereditary where
  fails := trivial
  var := by
    rintro _ _ _ ⟨⟨w, isKind, v, seen, -⟩, -⟩
    exact ⟨w, v, isKind, seen⟩
  member := by
    rintro _ _ _ _ ⟨⟨w, isKind, typed, id, _, isUser, -⟩, -⟩
    exact ⟨⟨w, isKind, typed⟩, fun _ => by rw [isUser]; rfl⟩
  index := by
    rintro _ _ _ _ ⟨⟨w, isKind, base, place, -⟩, -⟩
    exact ⟨typed_evaluates isKind base (by simp), typed_evaluates isKind place (by simp)⟩
  swizzle := by
    rintro _ _ _ _ ⟨⟨w, isKind, base, -⟩, -⟩
    exact typed_evaluates isKind base (by simp)
  call := by
    rintro _ _ _ _ ⟨⟨w, isKind, params, -, -, typed, -⟩, -⟩
    exact typed_passesAll isKind typed
  construct := by
    rintro _ _ _ ⟨⟨w, isKind, t, -, -, -, typed⟩, -⟩
    exact typed_evaluatesAll isKind typed
  unary := by
    rintro _ _ _ _ ⟨⟨w, isKind, operand, -⟩, -⟩
    exact typed_evaluates isKind operand (by simp)
  binary := by
    rintro _ _ _ _ _ ⟨⟨w, isKind, left, right, -⟩, -⟩
    exact ⟨typed_evaluates isKind left (by simp), typed_evaluates isKind right (by simp)⟩
  convert := by
    rintro _ _ _ _ ⟨⟨w, isKind, operand, -⟩, -⟩
    exact typed_evaluates isKind operand (by simp)

theorem Piece.made {α : Type} {m : Lower α} (isPiece : Piece w sts m) (isKind : kind w)
    (assigning : ∀ target, kind (w.assigning target)) :
    ∃ (_ : Regs α) (regs : List Ir.Reg), Made (.typed kind calls True) regs m := by
  have value {e : Expr} (typed : e.WellTyped w) : (Terms.typed kind calls True).evaluates .value e :=
    Terms.typed_evaluates isKind typed (by simp)
  have address {e : Expr} (typed : e.WellTyped w) : (Terms.typed kind calls True).evaluates .address e :=
    Terms.typed_evaluates isKind typed (by simp)
  have hereditary : (Terms.typed kind calls True).Hereditary := Terms.typed_hereditary
  cases isPiece with
  | declaration typed =>
    obtain ⟨v, seen, typedSize, typedInit⟩ := typed
    refine ⟨_, [], .declaration hereditary trivial ⟨w, v, isKind, seen⟩ (fun e mem => ?_) fun e mem => ?_⟩
    · exact value (typedSize e mem).1
    · exact value (typedInit e mem).1
  | assignment typed =>
    obtain ⟨typedTarget, -, typedValue, -⟩ := typed
    refine ⟨_, [], .assignment hereditary trivial (address typedTarget) ?_ ?_⟩
    · rintro info base axes rfl
      exact address typedTarget.1
    · exact Terms.typed_evaluates (assigning _) typedValue (by simp)
  | effect typed => exact ⟨_, [], .effect hereditary (value typed)⟩
  | loopHead typed =>
    obtain ⟨⟨typedVar, -, -⟩, typedStart, typedBound, typedStep, -⟩ := typed
    exact ⟨_, [], .loopHead hereditary trivial (address typedVar) (value typedStart.1) (value typedBound.1)
      fun e mem => value (typedStep e mem).1⟩
  | value typed => exact ⟨_, [], .expr hereditary .value _ (value typed) _⟩
  | @equalsAny reg _ _ _ typed =>
    exact ⟨_, [reg], .equalsAny hereditary (Terms.typed_evaluatesAll isKind typed) (by simp) (by simp)⟩
  | atBound place bound ty => exact ⟨_, [place, bound], .atBound (by simp) (by simp)⟩
  | current place type => exact ⟨_, [place], .emit _ trivial (by simp [Ir.Op.operands])⟩
  | advance place current step ty =>
    exact ⟨_, [place, current, step], .advance trivial (by simp) (by simp) (by simp)⟩
  | ending => exact ⟨_, [], .callVoid _ _ (.inl (by simp [runtime])) (by simp)⟩

end

/-- The lowering comes from one state to another, and lowers the statements on the way. -/
inductive Links (w : Outlook) (env : Env) : List Stmt → LowerState → LowerState → Prop where
  | refl (s : LowerState) : Links w env [] s s
  | trans {sts sts' : List Stmt} {s s₁ s₂ : LowerState} :
      Links w env sts s s₁ → Links w env sts' s₁ s₂ → Links w env (sts ++ sts') s s₂
  | create {s : LowerState} (label : String) : Links w env [] s (s.create label)
  | enter {s : LowerState} (id : Ir.BlockId) : Links w env [] s (s.enter id)
  | jump {s : LowerState} (t : Ir.Terminator) : (∀ value, t ≠ .ret value) → Links w env [] s (s.finish t)
  | piece {loop : Option LoopTargets} {nextCase : Option CaseTarget} {sts : List Stmt} {α : Type}
      {m : Lower α} {a : α} {s s' : LowerState} : Piece w sts m →
      m (env.around loop nextCase) s = .ok (a, s') → Links w env sts s s'
  | release {loop : Option LoopTargets} {nextCase : Option CaseTarget} {depth : Nat} {s s' : LowerState} :
      emitCleanups (s.cleanups.pendingFrom depth) (env.around loop nextCase) (leaving depth s) = .ok ((), s') →
      Links w env [] s s'
  | framed {loop : Option LoopTargets} {nextCase : Option CaseTarget} {sts : List Stmt}
      {s s₁ s' : LowerState} : Links w env sts (s.tidy (·.pushFrame)) s₁ →
      closeFrame (env.around loop nextCase) s₁ = .ok ((), s') → Links w env sts s s'
  | returns {loop : Option LoopTargets} {nextCase : Option CaseTarget} {s s' : LowerState} (span : Span)
      (value : Option Expr) : (Stmt.ret span value).WellTyped w →
      returnStmt value (env.around loop nextCase) s = .ok ((), s') →
      Links w env [.ret span value] s (s'.detach "after.return")

namespace Links

variable {env : Env}

theorem cons (first : Links w env [] s s1) (rest : Links w env sts s1 s') : Links w env sts s s' := first.trans rest

theorem snoc (front : Links w env sts s s1) (last : Links w env [] s1 s') : Links w env sts s s' := by
  rw [← append_nil sts]
  exact front.trans last

theorem createAll (labels : List String) : Links w env [] s (s.createAll labels) := by
  induction labels generalizing s with
  | nil => exact .refl s
  | cons label labels ih => exact (create label).cons ih

theorem detach (label : String) : Links w env [] s (s.detach label) := (create label).cons (enter _)

theorem branch (target : Ir.BlockId) : Links w env [] s (s.finish (.br target)) := jump _ (by simp)

theorem fork (cond : Ir.Reg) (onTrue onFalse : Ir.BlockId) :
    Links w env [] s (s.finish (.condBr cond onTrue onFalse)) := jump _ (by simp)

theorem leave {depth : Nat} (h : Jump (env.around loop nextCase) depth target label s s') : Links w env [] s s' := by
  obtain ⟨s1, released, rfl⟩ := h
  exact (release released).cons ((branch target).cons (detach label))

theorem framedPiece (isPiece : Piece w sts m)
    (run : withFrame m (env.around loop nextCase) s = .ok (a, s')) : Links w env sts s s' := by
  obtain ⟨s1, acted, shut⟩ := withFrame_ok run
  exact framed (piece isPiece acted) shut

theorem caseTests (typed : ∀ test ∈ tests, Expr.WellTypedAll w ty' test.1)
    (run : caseTests value ty otherwise tests (env.around loop nextCase) s = .ok ((), s')) : Links w env [] s s' := by
  induction tests generalizing s with
  | nil =>
    have ended : br otherwise (env.around loop nextCase) s = .ok ((), s') := run
    cases ended
    exact branch otherwise
  | cons test rest ih =>
    obtain ⟨values, body⟩ := test
    obtain ⟨hit, s1, tested, ⟨-, rfl⟩ | run⟩ := caseTests_run run
    · exact (framedPiece (.equalsAny (typed _ mem_cons_self)) tested).cons (fork ..)
    · refine (framedPiece (.equalsAny (typed _ mem_cons_self)) tested).cons ((create "case.test").cons ?_)
      exact (fork ..).cons ((enter _).cons (ih (forall_mem_cons.mp typed).2 run))

/-! ## Loops -/

def Within (w : Outlook) (env : Env) (sts : List Stmt) (body : Lower Unit) : Prop :=
  ∀ loop nextCase s s', body (env.around loop nextCase) s = .ok ((), s') → Links w env sts s s'

theorem doLoop (inside : Within w env sts body)
    (run : doLoop body (env.around loop nextCase) s = .ok ((), s')) : Links w env sts s s' := by
  obtain ⟨s1, ran, rfl⟩ := doLoop_run run
  exact (createAll _).cons ((enter _).cons ((inside _ _ _ _ ran).snoc ((branch _).cons (enter _))))

theorem whileLoop {cond : Expr} (typed : cond.WellTyped w) (inside : Within w env sts body)
    (run : whileLoop cond body (env.around loop nextCase) s = .ok ((), s')) : Links w env sts s s' := by
  obtain ⟨holds, s1, s2, tested, ran, rfl⟩ := whileLoop_run run
  exact (createAll _).cons ((enter _).cons ((framedPiece (.value typed) tested).cons ((fork ..).cons
    ((enter _).cons ((inside _ _ _ _ ran).snoc ((branch _).cons (enter _)))))))

theorem repeatLoop {cond : Expr} (typed : cond.WellTyped w) (inside : Within w env sts body)
    (run : repeatLoop body cond (env.around loop nextCase) s = .ok ((), s')) : Links w env sts s s' := by
  obtain ⟨s1, holds, s2, ran, tested, rfl⟩ := repeatLoop_run run
  exact (createAll _).cons ((enter _).cons ((inside _ _ _ _ ran).snoc
    ((enter _).cons ((framedPiece (.value typed) tested).cons ((fork ..).cons (enter _))))))

theorem inclusiveLoop (inside : Within w env sts body)
    (run : inclusiveLoop address bound step ty body (env.around loop nextCase) s = .ok ((), s')) :
    Links w env sts s s' := by
  obtain ⟨s1, current, done, s2, s3, ran, tested, advanced, rfl⟩ := inclusiveLoop_run run
  exact (createAll _).cons ((enter _).cons ((inside _ _ _ _ ran).snoc
    ((enter _).cons ((piece (.atBound ..) tested).cons ((fork ..).cons ((enter _).cons
      ((piece (.advance ..) advanced).cons ((branch _).cons (enter _)))))))))

theorem exclusiveLoop (inside : Within w env sts body)
    (run : exclusiveLoop address bound step ty body (env.around loop nextCase) s = .ok ((), s')) :
    Links w env sts s s' := by
  obtain ⟨current, done, s1, s2, current', s3, s4, tested, ran, loaded, advanced, rfl⟩ := exclusiveLoop_run run
  exact (createAll _).cons ((enter _).cons ((piece (.atBound ..) tested).cons ((fork ..).cons ((enter _).cons
    ((inside _ _ _ _ ran).snoc ((enter _).cons ((piece (.current ..) loaded).cons
      ((piece (.advance ..) advanced).cons ((branch _).cons (enter _))))))))))

theorem forLoop {span : Span} {block : Block}
    (typed : (Stmt.forLoop span var start bound inclusive step block).WellTyped w) (inside : Within w env sts body)
    (run : forLoop var start bound inclusive step body (env.around loop nextCase) s = .ok ((), s')) :
    Links w env (.forLoop span var start bound inclusive step block :: sts) s s' := by
  obtain ⟨address, limit, increment, s1, begun, run⟩ := forLoop_run run
  refine (piece (.loopHead typed) begun).trans ?_
  cases inclusive with
  | true => exact inclusiveLoop inside run
  | false => exact exclusiveLoop inside run

/-! ## Statements -/

mutual

theorem stmt : (st : Stmt) → st.WellTyped w → Within w env st.parts (stmt st)
  | .label _ id, _, loop, nextCase, s, s', run => by
    obtain ⟨e, s1, read, placed⟩ := bind_ok.mp run
    cases read
    cases found : (env.around loop nextCase).labels.lookup id with
    | none =>
      rw [found] at placed
      cases placed
      exact .refl _
    | some target =>
      rw [found] at placed
      cases placed
      exact enter target
  | .declare _ _ _ _, typed, _, _, _, _, run => piece (.declaration typed) run
  | .assign _ _ _, typed, _, _, _, _, run => piece (.assignment typed) run
  | .eval _ _, typed, _, _, _, _, run => piece (.effect typed) run
  | .ifChain _ bs otherwise, typed, _, _, _, _, run => by
    obtain ⟨s1, s2, chained, elsewhere, rfl⟩ := ifChain_run run
    exact (createAll _).cons ((branches bs typed.1 _ _ _ _ _ _ _ _ chained).trans
      ((elseBranch otherwise typed.2 _ _ _ _ _ _ elsewhere).snoc (enter _)))
  | .select _ selector cs, typed, _, _, _, _, run => by
    obtain ⟨typedSelector, -, typedCases⟩ := typed
    obtain ⟨value, s1, evaluated, s2, s3, tested, inside, rfl⟩ := select_run run
    exact (piece (.value typedSelector) evaluated).cons ((createAll _).cons
      ((caseTests (typed_testedCases typedCases _) tested).cons
        ((caseBodies cs typedCases _ _ _ _ _ _ inside).snoc (enter _))))
  | .doLoop _ body, typed, _, _, _, _, run => doLoop (block body typed) run
  | .whileLoop _ _ body, typed, _, _, _, _, run => whileLoop typed.1.1 (block body typed.2) run
  | .repeatLoop _ body _, typed, _, _, _, _, run => repeatLoop typed.1.1 (block body typed.2) run
  | .forLoop _ _ _ _ _ _ body, typed, _, _, _, _, run => by
    obtain ⟨-, -, -, -, typedBody⟩ := id typed
    exact forLoop typed (block body typedBody) run
  | .goto _ _, _, _, _, _, _, run => by
    obtain ⟨target, -, rfl⟩ | ⟨-, rfl⟩ := gotoLabel_run run
    · exact (branch target).cons (detach _)
    · exact detach _
  | .ret span value, typed, _, _, _, _, run => by
    obtain ⟨_, s1, returned, run⟩ := bind_ok.mp run
    obtain rfl := detach_run run
    exact returns span value typed returned
  | .exitLoop _, _, _, _, _, _, run | .continueLoop _, _, _, _, _, _, run => by
    obtain ⟨targets, -, jumped⟩ := leaveLoop_run run
    exact leave jumped
  | .fallthrough _, _, _, _, _, _, run => by
    obtain ⟨next, depth, -, jumped⟩ := fallThrough_run run
    exact leave jumped
  | .stop _, _, loop, nextCase, s, _, run => by
    obtain rfl := stop_run run
    have called : callVoid "__rt_end" [] (env.around loop nextCase) s = .ok ((), _) := perform_ok.mpr rfl
    exact (piece .ending called).cons ((jump .unreachable (by simp)).cons (detach _))

theorem stmts : (sts : List Stmt) → Stmt.WellTypedAll w sts → Within w env (Stmt.partsAll sts) (stmts sts)
  | [], _, _, _, _, _, run => by
    cases run
    exact .refl _
  | st :: rest, typed, _, _, _, _, run => by
    obtain ⟨_, s1, first, run⟩ := bind_ok.mp run
    exact (stmt st typed.1 _ _ _ _ first).trans (stmts rest typed.2 _ _ _ _ run)

theorem block : (b : Block) → b.WellTyped w → Within w env b.parts (block b)
  | .mk _ body, typed, _, _, _, _, run => by
    obtain ⟨s1, acted, shut⟩ := withFrame_ok run
    exact framed (stmts body typed _ _ _ _ acted) shut

theorem branches : (bs : List Branch) → Branch.WellTypedAll w bs → ∀ merge otherwise tests bodies,
    Within w env (Branch.partsAll bs) (branches merge otherwise tests bodies bs)
  | [], _, _, _, _, _, _, _, _, _, run => by
    cases run
    exact .refl _
  | .mk cond body :: rest, typed, merge, otherwise, tests, bodies, _, _, _, s', run => by
    obtain ⟨holds, s1, s2, tested, inside, chained⟩ := branches_run run
    have others : Links w env (Branch.partsAll rest) (s2.finish (.br merge)) s' := by
      have later := branches rest typed.2.2 merge otherwise tests.tail bodies.tail _ _ _ _ chained
      cases tests with
      | nil => exact later
      | cons test tests => exact (enter test).cons later
    exact (framedPiece (.value typed.1.1) tested).cons ((fork ..).cons ((enter _).cons
      ((block body typed.2.1 _ _ _ _ inside).trans ((branch merge).cons others))))

theorem elseBranch : (otherwise : Option Block) → Block.WellTypedOf w otherwise →
    ∀ merge elseBlock, Within w env (Block.partsOf otherwise) (elseBranch merge elseBlock otherwise)
  | none, _, _, _, _, _, _, _, run => by
    cases run
    exact .refl _
  | some body, typed, _, _, _, _, _, _, run => by
    obtain ⟨s1, inside, rfl⟩ := elseBranch_run run
    exact (enter _).cons ((block body typed _ _ _ _ inside).snoc (branch _))

theorem caseBodies : (cs : List Case) → Case.WellTypedAll w ty cs → ∀ last bodies,
    Within w env (Case.partsAll cs) (caseBodies last bodies cs)
  | [], _, _, _, _, _, _, _, run => by
    cases run
    exact .refl _
  | .mk _ body :: rest, typed, _, _, _, _, _, _, run => by
    obtain ⟨s1, inside, run⟩ := caseBodies_run run
    exact (enter _).cons ((block body typed.2.1 _ _ _ _ inside).trans
      ((branch _).cons (caseBodies rest typed.2.2 _ _ _ _ _ _ run)))

end

end Links

end Lowering

end BasicCompiler
