/-
# The names of a checked program

A body names variables, jumps to labels and has labels of its own.
-/
import BasicCompiler.Proofs.Typed.Programs

namespace BasicCompiler.Typed

open List

/-! ## The names in a body -/

mutual

def Expr.vars : Expr → List SymbolId
  | .var _ id => [id]
  | .member _ base _ | .swizzle _ base _ => base.vars
  | .index _ base place => base.vars ++ place.vars
  | .call _ _ args => Arg.varsAll args
  | .construct _ parts => Expr.varsAll parts
  | .unary _ _ operand | .convert _ _ operand => operand.vars
  | .binary _ _ left right => left.vars ++ right.vars
  | .const _ _ | .target _ => []

def Expr.varsAll : List Expr → List SymbolId
  | [] => []
  | e :: rest => e.vars ++ Expr.varsAll rest

def Arg.vars : Arg → List SymbolId
  | .value e | .place e => e.vars

def Arg.varsAll : List Arg → List SymbolId
  | [] => []
  | arg :: rest => arg.vars ++ Arg.varsAll rest

end

def Expr.varsOf : Option Expr → List SymbolId
  | none => []
  | some e => e.vars

mutual

def Stmt.vars : Stmt → List SymbolId
  | .declare _ id dim init => id :: Expr.varsOf dim ++ Expr.varsOf init
  | .assign _ target value => target.vars ++ value.vars
  | .eval _ e => e.vars
  | .ifChain _ branches otherwise => Branch.varsAll branches ++ Block.varsOf otherwise
  | .select _ selector cases => selector.vars ++ Case.varsAll cases
  | .doLoop _ body => body.vars
  | .whileLoop _ cond body | .repeatLoop _ body cond => cond.vars ++ body.vars
  | .forLoop _ var start bound _ step body => var.vars ++ start.vars ++ bound.vars ++ Expr.varsOf step ++ body.vars
  | .ret _ value => Expr.varsOf value
  | .label _ _ | .goto _ _ | .exitLoop _ | .continueLoop _ | .fallthrough _ | .stop _ => []

def Stmt.varsAll : List Stmt → List SymbolId
  | [] => []
  | s :: rest => s.vars ++ Stmt.varsAll rest

def Block.vars : Block → List SymbolId
  | .mk _ body => Stmt.varsAll body

def Block.varsOf : Option Block → List SymbolId
  | none => []
  | some body => body.vars

def Branch.varsAll : List Branch → List SymbolId
  | [] => []
  | .mk cond body :: rest => cond.vars ++ body.vars ++ Branch.varsAll rest

def Case.varsAll : List Case → List SymbolId
  | [] => []
  | .mk values body :: rest => Expr.varsAll values ++ body.vars ++ Case.varsAll rest

end

mutual

def Stmt.jumps : Stmt → List SymbolId
  | .goto _ id => [id]
  | .ifChain _ branches otherwise => Branch.jumpsAll branches ++ Block.jumpsOf otherwise
  | .select _ _ cases => Case.jumpsAll cases
  | .doLoop _ body | .whileLoop _ _ body | .repeatLoop _ body _ | .forLoop _ _ _ _ _ _ body => body.jumps
  | .label _ _ | .declare _ _ _ _ | .assign _ _ _ | .eval _ _ | .ret _ _ | .exitLoop _
  | .continueLoop _ | .fallthrough _ | .stop _ => []

def Stmt.jumpsAll : List Stmt → List SymbolId
  | [] => []
  | s :: rest => s.jumps ++ Stmt.jumpsAll rest

def Block.jumps : Block → List SymbolId
  | .mk _ body => Stmt.jumpsAll body

def Block.jumpsOf : Option Block → List SymbolId
  | none => []
  | some body => body.jumps

def Branch.jumpsAll : List Branch → List SymbolId
  | [] => []
  | .mk _ body :: rest => body.jumps ++ Branch.jumpsAll rest

def Case.jumpsAll : List Case → List SymbolId
  | [] => []
  | .mk _ body :: rest => body.jumps ++ Case.jumpsAll rest

end

/-! ## Well-typed trees name what can be seen -/

variable {w : Outlook}

def Outlook.SeesAll (w : Outlook) (ids : List SymbolId) : Prop := ∀ id ∈ ids, ∃ v, w.sees? id = some v

namespace Outlook.SeesAll

theorem nil : w.SeesAll [] := forall_mem_nil _

theorem cons {id : SymbolId} (seen : w.sees? id = some v) (rest : w.SeesAll ids) : w.SeesAll (id :: ids) :=
  forall_mem_cons.mpr ⟨⟨v, seen⟩, rest⟩

theorem append (h : w.SeesAll ids) (h' : w.SeesAll ids') : w.SeesAll (ids ++ ids') := forall_mem_append.mpr ⟨h, h'⟩

end Outlook.SeesAll

open Outlook (SeesAll)

mutual

theorem Expr.WellTyped.seesAll : (e : Expr) → e.WellTyped w → w.SeesAll e.vars
  | .var _ _, ⟨_, seen, _⟩ => .cons seen .nil
  | .member _ base _, h | .swizzle _ base _, h => h.1.seesAll base
  | .index _ base place, h => (h.1.seesAll base).append (h.2.1.seesAll place)
  | .call _ _ args, ⟨_, _, _, each, _⟩ => each.seesAll args
  | .construct _ parts, ⟨_, _, _, _, each⟩ => each.seesAll parts
  | .unary _ _ operand, h | .convert _ _ operand, h => h.1.seesAll operand
  | .binary _ _ left right, h => (h.1.seesAll left).append (h.2.1.seesAll right)
  | .const _ _, _ | .target _, _ => .nil

theorem Expr.WellTypedAll.seesAll : (es : List Expr) → Expr.WellTypedAll w ty es → w.SeesAll (Expr.varsAll es)
  | [], _ => .nil
  | e :: rest, h => (h.1.seesAll e).append (h.2.2.seesAll rest)

theorem Arg.WellTyped.seesAll : (arg : Arg) → arg.WellTyped w p → w.SeesAll arg.vars
  | .value e, h | .place e, h => h.2.1.seesAll e

theorem Arg.WellTypedAll.seesAll : (args : List Arg) → Arg.WellTypedAll w params args → w.SeesAll (Arg.varsAll args)
  | [], _ => .nil
  | arg :: rest, h => by
    cases params with
    | nil => exact h.elim
    | cons p ps =>
      exact (h.1.seesAll arg).append (h.2.seesAll rest)

end

theorem Expr.seesAll_of (h : ∀ x ∈ e, x.WellTyped w) : w.SeesAll (Expr.varsOf e) := by
  cases e with
  | none => exact .nil
  | some e => exact Expr.WellTyped.seesAll e (h e rfl)

mutual

theorem Stmt.WellTyped.seesAll : (st : Stmt) → st.WellTyped w → w.SeesAll st.vars
  | .declare _ _ _ _, ⟨_, seen, dim, init⟩ => (SeesAll.cons seen (Expr.seesAll_of fun e mem => (dim e mem).1)).append
      (Expr.seesAll_of fun e mem => (init e mem).1)
  | .assign _ target value, h => by
    have assigned := h.2.2.1.seesAll value
    exact (h.1.seesAll target).append assigned
  | .eval _ e, h => Expr.WellTyped.seesAll e h
  | .ifChain _ branches otherwise, h => (h.1.seesAll branches).append (h.2.seesAll otherwise)
  | .select _ selector cases, h => (h.1.seesAll selector).append (h.2.2.seesAll cases)
  | .doLoop _ body, h => Block.WellTyped.seesAll body h
  | .whileLoop _ cond body, h | .repeatLoop _ body cond, h => (h.1.1.seesAll cond).append (h.2.seesAll body)
  | .forLoop _ var start bound _ step body, ⟨⟨isVar, _⟩, isStart, isBound, isStep, inBody⟩ =>
    ((((isVar.seesAll var).append (isStart.1.seesAll start)).append
      (isBound.1.seesAll bound)).append
        (Expr.seesAll_of fun e mem => (isStep e mem).1)).append (inBody.seesAll body)
  | .ret _ _, h => Expr.seesAll_of fun e mem => (h e mem).1
  | .label _ _, _ | .goto _ _, _ | .exitLoop _, _ | .continueLoop _, _ | .fallthrough _, _
  | .stop _, _ => .nil

theorem Stmt.WellTypedAll.seesAll : (sts : List Stmt) → Stmt.WellTypedAll w sts → w.SeesAll (Stmt.varsAll sts)
  | [], _ => .nil
  | st :: rest, h => (h.1.seesAll st).append (h.2.seesAll rest)

theorem Block.WellTyped.seesAll : (b : Block) → b.WellTyped w → w.SeesAll b.vars
  | .mk _ body, h => Stmt.WellTypedAll.seesAll body h

theorem Block.WellTypedOf.seesAll : (b : Option Block) → Block.WellTypedOf w b → w.SeesAll (Block.varsOf b)
  | none, _ => .nil
  | some body, h => Block.WellTyped.seesAll body h

theorem Branch.WellTypedAll.seesAll : (bs : List Branch) → Branch.WellTypedAll w bs → w.SeesAll (Branch.varsAll bs)
  | [], _ => .nil
  | .mk cond body :: rest, h =>
    ((h.1.1.seesAll cond).append (h.2.1.seesAll body)).append
      (h.2.2.seesAll rest)

theorem Case.WellTypedAll.seesAll : (cs : List Case) → Case.WellTypedAll w ty cs → w.SeesAll (Case.varsAll cs)
  | [], _ => .nil
  | .mk values body :: rest, h =>
    ((h.1.seesAll values).append (h.2.1.seesAll body)).append
      (h.2.2.seesAll rest)

end

mutual

theorem Stmt.WellTyped.jumps : (st : Stmt) → st.WellTyped w → st.jumps ⊆ w.labels
  | .goto _ _, h => cons_subset.mpr ⟨h, nil_subset _⟩
  | .ifChain _ branches otherwise, h => append_subset.mpr ⟨h.1.jumps branches, h.2.jumps otherwise⟩
  | .select _ _ cases, h => h.2.2.jumps cases
  | .doLoop _ body, h => Block.WellTyped.jumps body h
  | .whileLoop _ _ body, h | .repeatLoop _ body _, h => h.2.jumps body
  | .forLoop _ _ _ _ _ _ body, h => h.2.2.2.2.jumps body
  | .label _ _, _ | .declare _ _ _ _, _ | .assign _ _ _, _ | .eval _ _, _ | .ret _ _, _
  | .exitLoop _, _ | .continueLoop _, _ | .fallthrough _, _ | .stop _, _ => nil_subset _

theorem Stmt.WellTypedAll.jumps : (sts : List Stmt) → Stmt.WellTypedAll w sts → Stmt.jumpsAll sts ⊆ w.labels
  | [], _ => nil_subset _
  | st :: rest, h => append_subset.mpr ⟨h.1.jumps st, h.2.jumps rest⟩

theorem Block.WellTyped.jumps : (b : Block) → b.WellTyped w → b.jumps ⊆ w.labels
  | .mk _ body, h => Stmt.WellTypedAll.jumps body h

theorem Block.WellTypedOf.jumps : (b : Option Block) → Block.WellTypedOf w b → Block.jumpsOf b ⊆ w.labels
  | none, _ => nil_subset _
  | some body, h => Block.WellTyped.jumps body h

theorem Branch.WellTypedAll.jumps : (bs : List Branch) → Branch.WellTypedAll w bs → Branch.jumpsAll bs ⊆ w.labels
  | [], _ => nil_subset _
  | .mk _ body :: rest, h => append_subset.mpr ⟨h.2.1.jumps body, h.2.2.jumps rest⟩

theorem Case.WellTypedAll.jumps : (cs : List Case) → Case.WellTypedAll w ty cs → Case.jumpsAll cs ⊆ w.labels
  | [], _ => nil_subset _
  | .mk _ body :: rest, h => append_subset.mpr ⟨h.2.1.jumps body, h.2.2.jumps rest⟩

end

/-! ## Well-scoped programs -/

/-- A function owns its names, and its body names nothing but those and the globals. -/
structure Function.WellScoped (p : Program) (f : Function) : Prop where
  owned : (f.params ++ f.locals ++ f.labels).Nodup
  vars : ∀ id ∈ f.body.vars ++ Expr.varsOf f.endValue,
    (∃ v, p.asVariable? id = some v) ∧ (id ∈ f.params ∨ id ∈ f.locals ∨ id ∈ p.globals)
  jumps : ∀ id ∈ f.body.jumps, id ∈ f.labels
  /-- Every label of the function stands once in its body, and no other does. -/
  labels : ∀ id, f.body.labels.count id = if id ∈ f.labels then 1 else 0

structure Program.WellScoped (fs : List Source.Function) (p : Program) : Prop where
  functions : List.Forall₂ (Function.IsOf p) p.functions fs
  each : ∀ f ∈ p.functions ++ [p.main], f.WellScoped p
  /-- No variable or label belongs to two functions. -/
  apart : (p.functions ++ [p.main]).Pairwise fun f g => (f.locals ++ f.labels).Disjoint (g.locals ++ g.labels)

variable {p : Program} {f : Function}

theorem Function.Resolved.owned (h : f.Resolved p) (labels : f.labels.Nodup) :
    (f.params ++ f.locals ++ f.labels).Nodup := by
  refine nodup_append.mpr ⟨nodup_append.mpr ⟨h.paramsNodup, h.localsNodup, ?_⟩, labels, ?_⟩
  · rintro id isParam _ isLocal rfl
    obtain ⟨-, k, ⟨ty, n, byRef, rfl⟩, ⟨ty', impossible⟩⟩ := (h.params id isParam).unique (h.locals id isLocal)
    cases impossible
  · rintro id isVariable _ isLabel rfl
    rcases mem_append.mp isVariable with isParam | isLocal
    · obtain ⟨-, k, ⟨ty, n, byRef, rfl⟩, ⟨n', impossible⟩⟩ := (h.params id isParam).unique (h.labels id isLabel)
      cases impossible
    · obtain ⟨-, k, ⟨ty, rfl⟩, ⟨n', impossible⟩⟩ := (h.locals id isLocal).unique (h.labels id isLabel)
      cases impossible

theorem Program.outlook_sees {id : SymbolId} (seen : (p.outlook f).sees? id = some v) :
    p.asVariable? id = some v ∧ (id ∈ f.params ∨ id ∈ f.locals ∨ id ∈ p.globals) := by
  unfold Program.outlook at seen
  dsimp only at seen
  split at seen
  · next mem =>
    rw [mem_append, mem_append, or_assoc] at mem
    exact ⟨seen, mem⟩
  · cases seen

theorem Function.Resolved.wellScoped (h : f.Resolved p) : f.WellScoped p where
  owned := h.owned h.labelled.nodup
  vars id mem := by
    have sees := (Block.WellTyped.seesAll _ h.typed.body).append
      (Expr.seesAll_of fun e mem => (h.typed.endValue e mem).1.1)
    obtain ⟨v, seen⟩ := sees id mem
    obtain ⟨isVariable, inReach⟩ := Program.outlook_sees seen
    exact ⟨⟨v, isVariable⟩, inReach⟩
  jumps id mem := Block.WellTyped.jumps _ h.typed.body mem
  labels id := by
    rw [h.labelled.labels]
    split
    · next mem => exact count_eq_one_of_mem h.labelled.nodup mem
    · next absent => exact count_eq_zero.mpr absent

theorem Function.Resolved.disjoint {g : Function} (h : f.Resolved p) (h' : g.Resolved p)
    (ne : f.scope ≠ g.scope) : (f.locals ++ f.labels).Disjoint (g.locals ++ g.labels) := by
  have inScope {k : Function} (resolved : k.Resolved p) {id : SymbolId} (mem : id ∈ k.locals ++ k.labels) :
      p.scopes.Declares k.scope (fun _ => True) id := by
    rcases mem_append.mp mem with isLocal | isLabel
    · obtain ⟨sym, found, here, -⟩ := resolved.locals id isLocal
      exact ⟨sym, found, here, trivial⟩
    · obtain ⟨sym, found, here, -⟩ := resolved.labels id isLabel
      exact ⟨sym, found, here, trivial⟩
  intro id mem mem'
  exact ne ((inScope h mem).unique (inScope h' mem')).1

/-- The names of a checked program are well scoped. -/
theorem check_wellScoped {ctx : Context} {p : Source.Program} {typed : Program}
    (run : check ctx p = .ok typed) : typed.WellScoped p.functions := by
  have resolved := check_resolved run
  refine ⟨resolved.functions, fun f mem => ?_, ?_⟩
  · exact (resolved.each f mem).wellScoped
  · refine (List.pairwise_map.mp resolved.apart).imp_of_mem fun memF memG ne => ?_
    exact (resolved.each _ memF).disjoint (resolved.each _ memG) ne

theorem interrupted_wellScoped : ∃ p typed, (Source.parseProgram interrupted).result = some p ∧
    check (.bare .bits64) p = .ok typed ∧ typed.WellScoped p.functions := by
  obtain ⟨p, typed, parsed, run⟩ := interrupted_accepted
  exact ⟨p, typed, parsed, run, check_wellScoped run⟩

end BasicCompiler.Typed
