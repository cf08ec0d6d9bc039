/-
# What a body refers to

The callees and the variables that occur in a body are all that it needs of its outlook: a body that is well typed
stays so if everything else is forgotten.
-/
import BasicCompiler.Proofs.Typed.WellTyped

namespace BasicCompiler.Typed

open List

/-- Something that a body refers to. -/
inductive Mention where
  | callee (callee : Callee)
  | variable (id : SymbolId)
deriving DecidableEq

/-! ## Mentions -/

mutual

def Expr.mentions : Expr → List Mention
  | .const _ _ | .target _ => []
  | .var _ id => [.variable id]
  | .member _ base _ | .swizzle _ base _ => base.mentions
  | .index _ base place => base.mentions ++ place.mentions
  | .call _ callee args => .callee callee :: Arg.mentionsAll args
  | .construct _ parts => Expr.mentionsAll parts
  | .unary _ _ operand | .convert _ _ operand => operand.mentions
  | .binary _ _ left right => left.mentions ++ right.mentions

def Expr.mentionsAll : List Expr → List Mention
  | [] => []
  | e :: rest => e.mentions ++ Expr.mentionsAll rest

def Arg.mentions : Arg → List Mention
  | .value e | .place e => e.mentions

def Arg.mentionsAll : List Arg → List Mention
  | [] => []
  | arg :: rest => arg.mentions ++ Arg.mentionsAll rest

end

def Expr.mentionsOf : Option Expr → List Mention
  | none => []
  | some e => e.mentions

mutual

def Stmt.mentions : Stmt → List Mention
  | .declare _ id dim init => .variable id :: (Expr.mentionsOf dim ++ Expr.mentionsOf init)
  | .assign _ target value => target.mentions ++ value.mentions
  | .eval _ e => e.mentions
  | .ifChain _ branches otherwise => Branch.mentionsAll branches ++ Block.mentionsOf otherwise
  | .select _ selector cases => selector.mentions ++ Case.mentionsAll cases
  | .doLoop _ body => body.mentions
  | .whileLoop _ cond body | .repeatLoop _ body cond => cond.mentions ++ body.mentions
  | .forLoop _ var start bound _ step body =>
      var.mentions ++ (start.mentions ++ (bound.mentions ++ (Expr.mentionsOf step ++ body.mentions)))
  | .ret _ value => Expr.mentionsOf value
  | .label _ _ | .goto _ _ | .exitLoop _ | .continueLoop _ | .fallthrough _ | .stop _ => []

def Stmt.mentionsAll : List Stmt → List Mention
  | [] => []
  | s :: rest => s.mentions ++ Stmt.mentionsAll rest

def Block.mentions : Block → List Mention
  | .mk _ body => Stmt.mentionsAll body

def Block.mentionsOf : Option Block → List Mention
  | none => []
  | some body => body.mentions

def Branch.mentionsAll : List Branch → List Mention
  | [] => []
  | .mk cond body :: rest => cond.mentions ++ (body.mentions ++ Branch.mentionsAll rest)

def Case.mentionsAll : List Case → List Mention
  | [] => []
  | .mk values body :: rest => Expr.mentionsAll values ++ (body.mentions ++ Case.mentionsAll rest)

end

def Function.mentions (f : Function) : List Mention := f.body.mentions ++ Expr.mentionsOf f.endValue

/-! ## What is not mentioned may be forgotten -/

def Outlook.only (w : Outlook) (ms : List Mention) : Outlook :=
  { w with
    sees? := fun id => if .variable id ∈ ms then w.sees? id else none
    params? := fun callee => if .callee callee ∈ ms then w.params? callee else none }

section Only

variable {w : Outlook}

theorem Outlook.sees?_only {id : SymbolId} :
    (w.only ms).sees? id = some v ↔ .variable id ∈ ms ∧ w.sees? id = some v := by
  simp [Outlook.only]

theorem Outlook.params?_only :
    (w.only ms).params? callee = some params ↔ .callee callee ∈ ms ∧ w.params? callee = some params := by
  simp [Outlook.only]

mutual

theorem Expr.WellTyped.only : (e : Expr) → e.WellTyped w → e.mentions ⊆ ms → e.WellTyped (w.only ms)
  | .const _ _, typed, _ | .target _, typed, _ => typed
  | .var _ id, ⟨v, seen, same⟩, inside => ⟨v, Outlook.sees?_only.mpr ⟨inside mem_cons_self, seen⟩, same⟩
  | .member _ base _, typed, inside | .swizzle _ base _, typed, inside => ⟨only base typed.1 inside, typed.2⟩
  | .index _ base place, typed, inside => by
    obtain ⟨inBase, inPlace⟩ := append_subset.mp inside
    exact ⟨only base typed.1 inBase, only place typed.2.1 inPlace, typed.2.2⟩
  | .call _ callee args, ⟨params, known, arity, typedArgs, result⟩, inside => by
    obtain ⟨isMentioned, inArgs⟩ := cons_subset.mp inside
    exact ⟨params, Outlook.params?_only.mpr ⟨isMentioned, known⟩, arity, onlyArgs params args typedArgs inArgs, result⟩
  | .construct _ parts, ⟨t, same, isSimd, count, typedParts⟩, inside =>
    ⟨t, same, isSimd, count, onlyAll _ parts typedParts inside⟩
  | .unary _ _ operand, typed, inside | .convert _ _ operand, typed, inside => ⟨only operand typed.1 inside, typed.2⟩
  | .binary _ _ left right, typed, inside => by
    obtain ⟨inLeft, inRight⟩ := append_subset.mp inside
    exact ⟨only left typed.1 inLeft, only right typed.2.1 inRight, typed.2.2⟩

theorem Expr.WellTyped.onlyAll (ty : Ty) : (es : List Expr) → Expr.WellTypedAll w ty es → Expr.mentionsAll es ⊆ ms →
    Expr.WellTypedAll (w.only ms) ty es
  | [], _, _ => trivial
  | e :: rest, typed, inside => by
    obtain ⟨inFirst, inRest⟩ := append_subset.mp inside
    exact ⟨only e typed.1 inFirst, typed.2.1, onlyAll ty rest typed.2.2 inRest⟩

theorem Expr.WellTyped.onlyArg (p : Param) : (arg : Arg) → arg.WellTyped w p → arg.mentions ⊆ ms →
    arg.WellTyped (w.only ms) p
  | .value e, typed, inside | .place e, typed, inside => ⟨typed.1, only e typed.2.1 inside, typed.2.2⟩

theorem Expr.WellTyped.onlyArgs : (params : List Param) → (args : List Arg) → Arg.WellTypedAll w params args →
    Arg.mentionsAll args ⊆ ms → Arg.WellTypedAll (w.only ms) params args
  | _, [], _, _ => by
    trivial
  | [], _ :: _, typed, _ => typed.elim
  | p :: _, arg :: rest, typed, inside => by
    obtain ⟨inFirst, inRest⟩ := append_subset.mp inside
    exact ⟨onlyArg p arg typed.1 inFirst, onlyArgs _ rest typed.2 inRest⟩

end

theorem Expr.WellTypedAs.only {e : Expr} {ty : Ty} (typed : e.WellTypedAs w ty) (inside : e.mentions ⊆ ms) :
    e.WellTypedAs (w.only ms) ty := ⟨typed.1.only e inside, typed.2⟩

theorem Expr.mentions_of_mem (mem : e ∈ o) (inside : Expr.mentionsOf o ⊆ ms) : e.mentions ⊆ ms := by
  obtain rfl := Option.mem_def.mp mem
  exact inside

mutual

theorem Stmt.WellTyped.only : (s : Stmt) → s.WellTyped w → s.mentions ⊆ ms → s.WellTyped (w.only ms)
  | .goto _ _, typed, _ => typed
  | .declare _ id _ _, ⟨v, seen, typedDim, typedInit⟩, inside => by
    obtain ⟨isMentioned, inParts⟩ := cons_subset.mp inside
    obtain ⟨inDim, inInit⟩ := append_subset.mp inParts
    exact ⟨v, Outlook.sees?_only.mpr ⟨isMentioned, seen⟩,
      fun e mem => (typedDim e mem).only (Expr.mentions_of_mem mem inDim),
      fun e mem => (typedInit e mem).only (Expr.mentions_of_mem mem inInit)⟩
  | .assign _ target value, typed, inside => by
    obtain ⟨inTarget, inValue⟩ := append_subset.mp inside
    exact ⟨typed.1.only target inTarget, typed.2.1, typed.2.2.only inValue⟩
  | .eval _ e, typed, inside => Expr.WellTyped.only e typed inside
  | .ifChain _ branches otherwise, typed, inside => by
    obtain ⟨inBranches, inElse⟩ := append_subset.mp inside
    exact ⟨onlyBranches branches typed.1 inBranches, onlyElse otherwise typed.2 inElse⟩
  | .select _ selector cases, typed, inside => by
    obtain ⟨inSelector, inCases⟩ := append_subset.mp inside
    exact ⟨typed.1.only selector inSelector, typed.2.1, onlyCases _ cases typed.2.2 inCases⟩
  | .doLoop _ body, typed, inside => onlyBlock body typed inside
  | .whileLoop _ _ body, typed, inside | .repeatLoop _ body _, typed, inside => by
    obtain ⟨inCond, inBody⟩ := append_subset.mp inside
    exact ⟨typed.1.only inCond, onlyBlock body typed.2 inBody⟩
  | .forLoop _ var _ _ _ _ body, ⟨⟨typedVar, counts⟩, typedStart, typedBound, typedStep, typedBody⟩, inside => by
    obtain ⟨inVar, inside⟩ := append_subset.mp inside
    obtain ⟨inStart, inside⟩ := append_subset.mp inside
    obtain ⟨inBound, inside⟩ := append_subset.mp inside
    obtain ⟨inStep, inBody⟩ := append_subset.mp inside
    exact ⟨⟨typedVar.only var inVar, counts⟩, typedStart.only inStart, typedBound.only inBound,
      fun e mem => (typedStep e mem).only (Expr.mentions_of_mem mem inStep), onlyBlock body typedBody inBody⟩
  | .ret _ _, typed, inside => fun e mem =>
    ⟨(typed e mem).1.only e (Expr.mentions_of_mem mem inside), (typed e mem).2⟩
  | .label _ _, _, _ | .exitLoop _, _, _ | .continueLoop _, _, _ | .fallthrough _, _, _ | .stop _, _, _ => trivial

theorem Stmt.WellTyped.onlyAll : (body : List Stmt) → Stmt.WellTypedAll w body → Stmt.mentionsAll body ⊆ ms →
    Stmt.WellTypedAll (w.only ms) body
  | [], _, _ => trivial
  | s :: rest, typed, inside => by
    obtain ⟨inFirst, inRest⟩ := append_subset.mp inside
    exact ⟨only s typed.1 inFirst, onlyAll rest typed.2 inRest⟩

theorem Stmt.WellTyped.onlyBlock : (body : Block) → body.WellTyped w → body.mentions ⊆ ms → body.WellTyped (w.only ms)
  | .mk _ body, typed, inside => onlyAll body typed inside

theorem Stmt.WellTyped.onlyElse : (otherwise : Option Block) → Block.WellTypedOf w otherwise →
    Block.mentionsOf otherwise ⊆ ms → Block.WellTypedOf (w.only ms) otherwise
  | none, _, _ => trivial
  | some body, typed, inside => onlyBlock body typed inside

theorem Stmt.WellTyped.onlyBranches : (bs : List Branch) → Branch.WellTypedAll w bs → Branch.mentionsAll bs ⊆ ms →
    Branch.WellTypedAll (w.only ms) bs
  | [], _, _ => trivial
  | .mk _ body :: rest, typed, inside => by
    obtain ⟨inCond, inside⟩ := append_subset.mp inside
    obtain ⟨inBody, inRest⟩ := append_subset.mp inside
    exact ⟨typed.1.only inCond, onlyBlock body typed.2.1 inBody, onlyBranches rest typed.2.2 inRest⟩

theorem Stmt.WellTyped.onlyCases (ty : Ty) : (cs : List Case) → Case.WellTypedAll w ty cs → Case.mentionsAll cs ⊆ ms →
    Case.WellTypedAll (w.only ms) ty cs
  | [], _, _ => trivial
  | .mk values body :: rest, typed, inside => by
    obtain ⟨inValues, inside⟩ := append_subset.mp inside
    obtain ⟨inBody, inRest⟩ := append_subset.mp inside
    exact ⟨Expr.WellTyped.onlyAll ty values typed.1 inValues, onlyBlock body typed.2.1 inBody,
      onlyCases ty rest typed.2.2 inRest⟩

end

end Only

def Program.narrow (p : Program) (f : Function) : Outlook := (p.outlook f).only f.mentions

theorem Function.WellTyped.narrow {f : Function} (typed : f.WellTyped p) :
    f.body.WellTyped (p.narrow f) ∧ ∀ e ∈ f.endValue, e.WellTyped (p.narrow f) := by
  refine ⟨Stmt.WellTyped.onlyBlock f.body typed.body (subset_append_left _ _), fun e mem => ?_⟩
  refine Expr.WellTyped.only e (typed.endValue e mem).1.1 (Expr.mentions_of_mem mem ?_)
  exact subset_append_right _ _

end BasicCompiler.Typed
