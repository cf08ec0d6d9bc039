/-
# Trees that are typed

A `Outlook` is what a body can refer to: the variables it sees, what it can call, its labels and the type of what it
returns.
-/
import BasicCompiler.Typed.Checker.Body

namespace BasicCompiler

/-- A variable of a function's signature as calls see it. -/
def Variable.toParam (v : Variable) : Param :=
  let pass :=
    match v.storage with
    | .param _ true => .inOutRef
    | _ => .value
  ⟨v.type, pass, .once⟩

def ScopeTree.asVariable? (t : ScopeTree SymbolKind) (id : SymbolId) : Option Variable :=
  (t.get? id).bind (·.kind.asVariable?)

def ScopeTree.paramList (t : ScopeTree SymbolKind) (ids : List SymbolId) : List Param :=
  ids.filterMap fun id => (t.asVariable? id).map Variable.toParam

namespace Typed

/-- What a body can refer to. -/
structure Outlook where
  types : TypeTable
  sees? : SymbolId → Option Variable
  params? : Callee → Option (List Param)
  /-- What a call gives, as far as it is known. -/
  result? : Callee → Option Ty
  labels : List SymbolId
  /-- The type of what is returned, as far as it is known. -/
  returns? : Option Ty
  /-- What the target of the assignment at work holds. -/
  target? : Option Ty

namespace Outlook

/-- The second outlook knows all that the first one knows. -/
structure Le (w w' : Outlook) : Prop where
  types : w'.types = w.types
  sees : ∀ id v, w.sees? id = some v → w'.sees? id = some v
  params : ∀ callee ps, w.params? callee = some ps → w'.params? callee = some ps
  result : ∀ callee ty, w.result? callee = some ty → w'.result? callee = some ty
  labels : ∀ id ∈ w.labels, id ∈ w'.labels
  returns : ∀ ty, w.returns? = some ty → w'.returns? = some ty
  target : ∀ ty, w.target? = some ty → w'.target? = some ty

instance : LE Outlook := ⟨Le⟩

variable {w : Outlook}

theorem le_rfl : w ≤ w :=
  ⟨rfl, fun _ _ h => h, fun _ _ h => h, fun _ _ h => h, fun _ h => h, fun _ h => h, fun _ h => h⟩

theorem le_trans (h : u ≤ w) (h' : w ≤ w') : u ≤ w' where
  types := h'.types.trans h.types
  sees id v found := h'.sees id v (h.sees id v found)
  params callee ps found := h'.params callee ps (h.params callee ps found)
  result callee ty found := h'.result callee ty (h.result callee ty found)
  labels id mem := h'.labels id (h.labels id mem)
  returns ty known := h'.returns ty (h.returns ty known)
  target ty known := h'.target ty (h.target ty known)

end Outlook

/-! ## Expressions -/

/-- The place that an assignment writes to: of components the whole vector. -/
def Expr.place : Expr → Expr
  | .swizzle _ base _ => base
  | e => e

def Outlook.assigning (w : Outlook) (target : Expr) : Outlook := { w with target? := some target.place.ty }

theorem Outlook.le_assigning {u w : Outlook} (h : u ≤ w) (free : u.target? = none) (target : Expr) :
    u ≤ w.assigning target :=
  ⟨h.types, h.sees, h.params, h.result, h.labels, h.returns, fun ty known => by simp [free] at known⟩

def Const.HasType : Const → Ty → Prop
  | .int _, ty => ty.isInteger = true ∧ ty ≠ .bool
  | .float _, ty => ∃ t, ty = .builtin t ∧ t.isFloat = true
  | .bool _, ty => ty = .bool
  | .str _, ty => ty = .string

/-- The operator may stand between two values of the type `operand`, and gives a value of
the type `result`. -/
def Between (op : BinaryOp) (operand result : Ty) : Prop :=
  if op.isLogical then operand = .bool ∧ result = .bool
  else
    (∃ t, operand = .builtin t ∧ operandsAllowed op t = true) ∧ result = if op.isComparison then .bool else operand

def Before (op : UnaryOp) (operand : Ty) : Prop := operandAllowed op operand = true ∧ (op = .not → operand = .bool)

def Picks (base result : Ty) (axes : List Nat) : Prop :=
  ∃ t r, vector? base = some t ∧ (∀ axis ∈ axes, axis < t.info.cols) ∧
    vectorOf? t.component axes.length = some r ∧ result = .builtin r

def Converts (conversion : Conversion) (source target : Ty) : Prop :=
  conversion ≠ .none ∧ conversion.isValid = true ∧ ∃ mode, conversion = source.conversion target mode

mutual

def Expr.WellTyped (w : Outlook) : Expr → Prop
  | .const info value => value.HasType info.ty
  | .var info id => ∃ v, w.sees? id = some v ∧ info.ty = v.type
  | .member info base index =>
      base.WellTyped w ∧ ∃ id m, base.ty = .user id ∧ (w.types.get id).members[index]? = some m ∧ info.ty = m.type
  | .swizzle info base axes => base.WellTyped w ∧ Picks base.ty info.ty axes
  | .index info base place => base.WellTyped w ∧ place.WellTyped w ∧ base.ty = .arrayOf info.ty ∧ place.ty = .int32
  | .call info callee args =>
      ∃ params, w.params? callee = some params ∧ acceptsArity params args.length = true ∧
        Arg.WellTypedAll w params args ∧ w.result? callee = some info.ty
  | .construct info parts =>
      ∃ t, info.ty = .builtin t ∧ t.isSimd = true ∧ parts.length = t.info.components ∧
        Expr.WellTypedAll w (.builtin t.component) parts
  | .unary info op operand => operand.WellTyped w ∧ Before op operand.ty ∧ info.ty = operand.ty
  | .binary info op left right =>
      left.WellTyped w ∧ right.WellTyped w ∧ left.ty = right.ty ∧ Between op left.ty info.ty
  | .convert info conversion operand => operand.WellTyped w ∧ Converts conversion operand.ty info.ty
  | .target info => w.target? = some info.ty

def Expr.WellTypedAll (w : Outlook) (ty : Ty) : List Expr → Prop
  | [] => True
  | e :: rest => e.WellTyped w ∧ e.ty = ty ∧ Expr.WellTypedAll w ty rest

/-- The argument is what the parameter takes. -/
def Arg.WellTyped (w : Outlook) (p : Param) : Arg → Prop
  | .value e => p.pass.needsLvalue = false ∧ e.WellTyped w ∧ e.ty = p.type
  | .place e => p.pass.needsLvalue = true ∧ e.WellTyped w ∧ e.isLvalue = true ∧ e.ty = p.type

/-- The arguments are what the parameters take, a repeated one all that are left. -/
def Arg.WellTypedAll (w : Outlook) : List Param → List Arg → Prop
  | _, [] => True
  | [], _ :: _ => False
  | p :: ps, arg :: rest => arg.WellTyped w p ∧ Arg.WellTypedAll w (if p.count.isRepeated then p :: ps else ps) rest

end

/-! ## Statements -/

def Expr.WellTypedAs (w : Outlook) (ty : Ty) (e : Expr) : Prop := e.WellTyped w ∧ e.ty = ty

def Counts (ty : Ty) (hasStep : Bool) : Prop := ty.isNumeric = true ∨ ty = .string ∧ hasStep = true

mutual

def Stmt.WellTyped (w : Outlook) : Stmt → Prop
  | .goto _ id => id ∈ w.labels
  | .declare _ id dim init =>
      ∃ v, w.sees? id = some v ∧ (∀ e ∈ dim, e.WellTypedAs w .int32) ∧ ∀ e ∈ init, e.WellTypedAs w v.type
  | .assign _ target value =>
      target.WellTyped w ∧ target.isLvalue = true ∧ value.WellTypedAs (w.assigning target) target.ty
  | .eval _ e => e.WellTyped w
  | .ifChain _ branches otherwise => Branch.WellTypedAll w branches ∧ Block.WellTypedOf w otherwise
  | .select _ selector cases =>
      selector.WellTyped w ∧ Check.isSelectable selector.ty = true ∧ Case.WellTypedAll w selector.ty cases
  | .doLoop _ body => body.WellTyped w
  | .whileLoop _ cond body | .repeatLoop _ body cond => cond.WellTypedAs w .bool ∧ body.WellTyped w
  | .forLoop _ var start bound _ step body =>
      (var.WellTyped w ∧ (∃ info id, var = .var info id) ∧ Counts var.ty step.isSome) ∧
        start.WellTypedAs w var.ty ∧ bound.WellTypedAs w var.ty ∧
          (∀ e ∈ step, e.WellTypedAs w var.ty) ∧ body.WellTyped w
  | .ret _ value => ∀ e ∈ value, e.WellTyped w ∧ w.returns? = some e.ty ∧ e.ty.isVoid = false
  | .label _ _ | .exitLoop _ | .continueLoop _ | .fallthrough _ | .stop _ => True

def Stmt.WellTypedAll (w : Outlook) : List Stmt → Prop
  | [] => True
  | s :: rest => s.WellTyped w ∧ Stmt.WellTypedAll w rest

def Block.WellTyped (w : Outlook) : Block → Prop
  | .mk _ body => Stmt.WellTypedAll w body

def Block.WellTypedOf (w : Outlook) : Option Block → Prop
  | none => True
  | some body => body.WellTyped w

def Branch.WellTypedAll (w : Outlook) : List Branch → Prop
  | [] => True
  | .mk cond body :: rest => cond.WellTypedAs w .bool ∧ body.WellTyped w ∧ Branch.WellTypedAll w rest

def Case.WellTypedAll (w : Outlook) (ty : Ty) : List Case → Prop
  | [] => True
  | .mk values body :: rest => Expr.WellTypedAll w ty values ∧ body.WellTyped w ∧ Case.WellTypedAll w ty rest

end

theorem forall_mem_of_step {A : List α → Prop} {P : α → Prop} (step : ∀ a as, A (a :: as) → P a ∧ A as)
    (all : A as) : ∀ a ∈ as, P a := by
  induction as with
  | nil => simp
  | cons a rest ih =>
    obtain ⟨first, others⟩ := step a rest all
    exact List.forall_mem_cons.mpr ⟨first, ih others⟩

theorem Expr.WellTypedAll.each {ty : Ty} (typed : WellTypedAll w ty es) : ∀ e ∈ es, e.WellTyped w :=
  forall_mem_of_step (fun _ _ h => ⟨h.1, h.2.2⟩) typed

theorem Arg.WellTypedAll.each (typed : WellTypedAll w params args) : ∀ arg ∈ args, ∃ p, arg.WellTyped w p := by
  refine forall_mem_of_step (A := fun args => ∃ params, WellTypedAll w params args) (fun arg rest h => ?_) ⟨params, typed⟩
  obtain ⟨_ | ⟨p, ps⟩, typed⟩ := h
  · cases typed
  · exact ⟨⟨p, typed.1⟩, _, typed.2⟩

theorem Case.WellTypedAll.each {ty : Ty} (typed : WellTypedAll w ty cs) :
    ∀ c ∈ cs, Expr.WellTypedAll w ty c.values ∧ c.body.WellTyped w :=
  forall_mem_of_step (fun c _ h => by cases c; exact ⟨⟨h.1, h.2.1⟩, h.2.2⟩) typed

/-! ## Programs -/

def Program.callParams? (p : Program) : Callee → Option (List Param)
  | .function id => p.functions[id]?.map fun f => p.scopes.paramList f.params
  | .command index => p.commands[index]?.map (·.params)

def Program.callResult? (p : Program) : Callee → Option Ty
  | .function id => p.functions[id]?.map (·.result)
  | .command index => p.commands[index]?.map (·.result)

/-- What the body of a function can refer to: its own parameters, variables and labels and
the globals of the program. -/
def Program.outlook (p : Program) (f : Function) : Outlook where
  types := p.types
  sees? id := if id ∈ f.params ++ f.locals ++ p.globals then p.asVariable? id else none
  params? := p.callParams?
  result? := p.callResult?
  labels := f.labels
  returns? := some f.result
  target? := none

/-- A function whose body and last value are well typed. -/
structure Function.WellTyped (p : Program) (f : Function) : Prop where
  body : f.body.WellTyped (p.outlook f)
  endValue : ∀ e ∈ f.endValue, e.WellTypedAs (p.outlook f) f.result ∧ f.result.isVoid = false

end Typed

end BasicCompiler
