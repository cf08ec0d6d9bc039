/-
# Statements that are checked

A typed statement has the form of the one it comes from. So it is well typed, its labels are the symbols of the labels
that were written, and it stands where the other one stood.
-/
import BasicCompiler.Proofs.Typed.Soundness

namespace BasicCompiler.Typed

variable {s : CheckState}

/-- What is known, in a state, of a part of a body: what it has in labels, in declarations
and in places to stand is that of the part it comes from. -/
structure Agrees (s : CheckState) (ids : List Ident) (decls : List Source.VarDecl)
    (stood : Bool → Bool → Prop) (labels : List SymbolId) (typed : Outlook → Prop)
    (stands : Outlook → Bool → Bool → Prop) : Prop where
  typed : s.Forces typed
  labels : s.Labels ids labels
  placed : s.Sizes decls → ∀ inLoop hasNext, stood inLoop hasNext → s.Forces (stands · inLoop hasNext)

abbrev Stmt.Agrees (s : CheckState) (st : Source.Stmt) (t : Stmt) : Prop :=
  Typed.Agrees s (Check.stmtLabels st) st.decls (st.Placed · ·) t.labels (t.WellTyped ·) (t.Placed · · ·)

abbrev Stmt.AgreesAll (s : CheckState) (sts : List Source.Stmt) (ts : List Stmt) : Prop :=
  Typed.Agrees s (Check.stmtsLabels sts) (Source.stmtsDecls sts) (Source.stmtsPlaced · · sts)
    (Stmt.labelsAll ts) (Stmt.WellTypedAll · ts) (Stmt.PlacedAll · · · ts)

abbrev Block.Agrees (s : CheckState) (b : Source.Block) (t : Block) : Prop :=
  Typed.Agrees s (Check.blockLabels b) b.decls (b.Placed · ·) t.labels (t.WellTyped ·) (t.Placed · · ·)

abbrev Branch.AgreesAll (s : CheckState) (bs : List Source.Branch) (ts : List Branch) : Prop :=
  Typed.Agrees s (Check.branchLabels bs) (Source.branchesDecls bs) (Source.branchesPlaced · · bs)
    (Branch.labelsAll ts) (Branch.WellTypedAll · ts) (Branch.PlacedAll · · · ts)

/-- Whether a case may be fallen through depends on whether there is another behind it. -/
abbrev Case.AgreesAll (s : CheckState) (ty : Ty) (cs : List Source.Case) (ts : List Case) : Prop :=
  ts.isEmpty = cs.isEmpty ∧
    Typed.Agrees s (Check.caseLabels cs) (Source.casesDecls cs) (fun inLoop _ => Source.casesPlaced inLoop cs)
      (Case.labelsAll ts) (Case.WellTypedAll · ty ts) (fun w inLoop _ => Case.PlacedAll w inLoop ts)

theorem CheckState.Sizes.append (h : s.Sizes (front ++ rest)) : s.Sizes front ∧ s.Sizes rest :=
  ⟨h.mono fun _ => List.mem_append_left _, h.mono fun _ => List.mem_append_right _⟩

namespace Agrees

variable {labels : List SymbolId} {typed : Outlook → Prop}

theorem later (h : Agrees s ids decls stood labels typed stands) (ready : Ready fs s)
    (later : Later s s') : Agrees s' ids decls stood labels typed stands where
  typed := later.forces ready.declared h.typed
  labels := later.labelsOf h.labels
  placed sizes inLoop hasNext isPlaced :=
    later.forces ready.declared
      (h.placed (later.sizes ready.declared.toScoped sizes) inLoop hasNext isPlaced)

theorem append (h : Agrees s ids decls stood labels typed stands)
    (h' : Agrees s ids' decls' stood' labels' typed' stands') :
    Agrees s (ids ++ ids') (decls ++ decls') (fun l n => stood l n ∧ stood' l n) (labels ++ labels')
      (fun w => typed w ∧ typed' w) fun w l n => stands w l n ∧ stands' w l n where
  typed w le := ⟨h.typed w le, h'.typed w le⟩
  labels := List.rel_append h.labels h'.labels
  placed sizes l n isPlaced w le :=
    ⟨h.placed sizes.append.1 l n isPlaced.1 w le, h'.placed sizes.append.2 l n isPlaced.2 w le⟩

theorem plain (h : s.Forces typed) (stays : ∀ w l n, stood l n → stands w l n) :
    Agrees s [] decls stood [] typed stands :=
  ⟨h, .nil, fun _ l n isPlaced w _ => stays w l n isPlaced⟩

end Agrees

namespace Keeps

variable (analyses : Analyses fs analyse)
include analyses
set_option linter.unusedSectionVars false

theorem declaration (decl : Source.VarDecl) (span : Span) :
    Keeps fs s (Check.declaration analyse decl span) fun s' t => t.Agrees s' (.declare span decl) := by
  refine bind (declaredVariable decl) fun id s1 ready1 _ declared => ?_
  refine look (Looks.symbolKind id) fun kind isKind => ?_
  split
  · exact fail _ _
  · next v isVariable =>
    have seen : s1.outlook.sees? id = some v := by
      refine declared.1.outlook ?_
      rw [isKind] at isVariable
      obtain ⟨kind, isKind, isVariable⟩ := Option.bind_eq_some_iff.mp isVariable
      obtain ⟨sym, found, rfl⟩ := Option.map_eq_some_iff.mp isKind
      exact Option.bind_eq_some_iff.mpr ⟨sym, found, isVariable⟩
    refine bind (optional (Q := fun s' e => s'.Forces (e.WellTypedAs · .int32)) (fun size => ?_) decl.dim) ?_
    · exact bind (expr analyses size s1) fun size s2 _ _ typed =>
        rule fun e coerced _ w le => coerceIndex_wellTyped (typed w le) coerced
    · intro dim s2 ready2 later2 typedDim
      refine bind (optional (fun init => exprAs analyses v.type init s2) decl.init)
        fun init s3 _ later3 typedInit => pure fun _ => ?_
      have later := later2.trans later3
      have le1 := later.outlook_le ready1.declared
      refine ⟨fun w le => ⟨v, ?_, fun e mem => ?_, fun e mem => ?_⟩, .nil, fun sizes _ _ _ w le sized => ?_⟩
      · exact le.sees id v (le1.sees id v seen)
      · exact later3.forces ready2.declared (typedDim.2 e mem) w le
      · exact typedInit.2 e mem w le
      · have isArray := declared.2 (later.sizes ready1.declared.toScoped sizes)
        exact (isArray (typedDim.1.symm.trans sized)).mono (Outlook.le_trans le1 le)

theorem assignment (target : Source.Expr)
    (op : Option (Spanned BinaryOp)) (value : Source.Expr) (span : Span) :
    Keeps fs s (Check.assignment analyse target op value span) fun s' t =>
      t.Agrees s' (.assign span target op value) := by
  refine bind (assignTarget analyses target _) fun target s1 ready1 _ place => ?_
  refine bind (expr analyses value s1) fun value s2 _ later typedValue => ?_
  have typedTarget := later.forces ready1.declared place.1
  -- the value that is written stands where the target can be read
  have beside {w : Outlook} (le : s2.outlook ≤ w) : value.WellTyped (w.assigning target) :=
    typedValue _ (Outlook.le_assigning le rfl target)
  have finish {written value' : Expr} (typed : ∀ w, s2.outlook ≤ w → written.WellTyped (w.assigning target))
      (coerced : coerce s2.types written target.ty .implicit = .ok value') :
      Agrees s2 [] [] (fun _ _ => True) [] (Stmt.assign span target value').WellTyped fun _ _ _ => True :=
    .plain (fun w le => ⟨typedTarget w le, place.2, coerce_wellTyped (typed w le) coerced⟩) fun _ _ _ _ => trivial
  cases op with
  | none =>
    refine look (Looks.pure (Q := (· = value)) rfl) ?_
    rintro _ rfl
    exact look (Looks.rule _) fun value' coerced => pure fun _ => finish (fun w le => beside le) coerced
  | some op =>
    refine look (Looks.rule _) fun written made => look (Looks.rule _) fun value' coerced => pure fun _ => ?_
    refine finish (fun w le => ?_) coerced
    exact typeBinary_wellTyped (reread_wellTyped (typedTarget w le)).1 (beside le) made

mutual

theorem stmt : (st : Source.Stmt) → (s : CheckState) →
    Keeps fs s (Check.stmt analyse st) fun s' t => t.Agrees s' st
  | .label span id, s => by
    refine look (Looks.of_look _) fun found isFound => ?_
    cases found with
    | some symbol =>
      refine pure fun _ => ⟨fun _ _ => trivial, .cons ?_ .nil, fun _ _ _ _ _ _ => trivial⟩
      exact ScopeTree.findHere_get? isFound.symm
    | none => exact fail _ _
  | .declare span decl, s => declaration analyses decl span
  | .assign span target op value, s => assignment analyses target op value span
  | .call span callee args, s => by
    refine bind (calleeKind callee) fun kind s1 ready1 _ callable => ?_
    refine bind (exprs analyses args.exprs s1) fun args s2 _ later typed => ?_
    refine bind (call analyses (callable.grow ready1.declared later) callee typed span)
      fun e s3 _ _ typed => pure fun _ => .plain typed fun _ _ _ _ => trivial
  | .ifChain span bs none, s => by
    refine bind (branches bs s) fun bs s1 _ _ agree => ?_
    refine look (Looks.pure (Q := (· = none)) rfl) ?_
    rintro _ rfl
    have nothing : Agrees s1 [] [] (fun _ _ => True) [] (fun _ => True) fun _ _ _ => True :=
      .plain (fun _ _ => trivial) fun _ _ _ _ => trivial
    have both := agree.append nothing
    rw [List.append_nil] at both
    exact pure fun _ => both
  | .ifChain span bs (some body), s => by
    refine bind (branches bs s) fun bs s1 ready1 _ agree => ?_
    refine bind (Q := fun s' otherwise => ∃ t, otherwise = some t ∧ t.Agrees s' body) ?_ ?_
    · exact bind (block body s1) fun body s2 _ _ agree => pure fun _ => ⟨body, rfl, agree⟩
    · rintro _ s2 _ later ⟨t, rfl, last⟩
      exact pure fun _ => (agree.later ready1 later).append last
  | .select span value cs, s =>
    bind (selector analyses value) fun value s1 ready1 _ typed =>
      bind (cases value.ty cs s1) fun cs s2 _ later agree => pure fun _ =>
        { agree.2 with
          typed := fun w le => ⟨later.forces ready1.declared typed.1 w le, typed.2, agree.2.typed w le⟩ }
  | .doLoop span body, s =>
    bind (block body s) fun body s1 _ _ agree => pure fun _ =>
      { agree with placed := fun sizes _ hasNext => agree.placed sizes true hasNext }
  | .whileLoop span cond body, s =>
    bind (exprAs analyses .bool cond s) fun cond s1 ready1 _ typed =>
      bind (block body s1) fun body s2 _ later agree => pure fun _ =>
        ⟨fun w le => ⟨later.forces ready1.declared typed w le, agree.typed w le⟩, agree.labels,
          fun sizes _ hasNext => agree.placed sizes true hasNext⟩
  | .repeatLoop span body cond, s =>
    bind (block body s) fun body s1 ready1 _ agree =>
      bind (exprAs analyses .bool cond s1) fun cond s2 _ later typed => pure fun _ =>
        have agree := agree.later ready1 later
        ⟨fun w le => ⟨typed w le, agree.typed w le⟩, agree.labels,
          fun sizes _ hasNext => agree.placed sizes true hasNext⟩
  | .forLoop span id start bound inclusive step body, s => by
    refine bind (loopVariable id step.isSome) fun var s1 ready1 _ counter => ?_
    refine bind (exprAs analyses var.ty start s1) fun start s2 ready2 later2 typedStart => ?_
    refine bind (exprAs analyses var.ty bound s2) fun bound s3 ready3 later3 typedBound => ?_
    refine bind (optional (fun step => exprAs analyses var.ty step s3) step)
      fun step' s4 ready4 later4 typedStep => ?_
    refine bind (block body s4) fun body s5 _ later5 agree => pure fun _ =>
      ⟨fun w le => ?_, agree.labels, fun sizes _ hasNext => agree.placed sizes true hasNext⟩
    have later3 := later3.trans (later4.trans later5)
    have typedVar := (later2.trans later3).forces ready1.declared counter.1 w le
    refine ⟨⟨typedVar, counter.2.1, typedStep.1 ▸ counter.2.2⟩, ?_, ?_, fun e mem => ?_, agree.typed w le⟩
    · exact later3.forces ready2.declared typedStart w le
    · exact (later4.trans later5).forces ready3.declared typedBound w le
    · exact later5.forces ready4.declared (typedStep.2 e mem) w le
  | .goto span id, s =>
    bind (gotoLabel id) fun symbol s1 _ _ mem => pure fun _ =>
      .plain (fun w le => le.labels symbol mem) fun _ _ _ _ => trivial
  | .ret span none, s =>
    bind (noteBareReturn span) fun _ s1 _ _ _ => pure fun _ =>
      .plain (fun w le e impossible => by cases impossible) fun _ _ _ _ => trivial
  | .ret span (some value), s =>
    bind (returnValue analyses value) fun value s1 _ _ typed => pure fun _ =>
      .plain (fun w le e isValue => by cases isValue; exact typed w le) fun _ _ _ _ => trivial
  | .exitLoop span, s | .continueLoop span, s => pure fun _ => .plain (fun _ _ => trivial) fun _ _ _ inLoop => inLoop
  | .fallthrough span, s => pure fun _ => .plain (fun _ _ => trivial) fun _ _ _ hasNext => hasNext
  | .stop span, s => pure fun _ => .plain (fun _ _ => trivial) fun _ _ _ _ => trivial

theorem stmts : (sts : List Source.Stmt) → (s : CheckState) →
    Keeps fs s (Check.stmts analyse sts) fun s' ts => Stmt.AgreesAll s' sts ts
  | [], _ => pure fun _ => .plain (fun _ _ => trivial) fun _ _ _ _ => trivial
  | st :: rest, s =>
    bind (stmt st s) fun _ s1 ready1 _ first =>
      bind (stmts rest s1) fun _ _ _ later others => pure fun _ => (first.later ready1 later).append others

theorem block : (b : Source.Block) → (s : CheckState) →
    Keeps fs s (Check.block analyse b) fun s' t => t.Agrees s' b
  | .mk _ body, s => bind (stmts body s) fun _ _ _ _ agree => pure fun _ => agree

theorem branches : (bs : List Source.Branch) → (s : CheckState) →
    Keeps fs s (Check.branches analyse bs) fun s' ts => Branch.AgreesAll s' bs ts
  | [], _ => pure fun _ => .plain (fun _ _ => trivial) fun _ _ _ _ => trivial
  | .mk cond body :: rest, s =>
    bind (exprAs analyses .bool cond s) fun _ s1 ready1 _ typed =>
      bind (block body s1) fun _ s2 ready2 later2 first =>
        bind (branches rest s2) fun _ _ _ later3 others => pure fun _ =>
          have both := (first.later ready2 later3).append others
          { both with
            typed := fun w le => ⟨(later2.trans later3).forces ready1.declared typed w le, both.typed w le⟩ }

theorem cases (ty : Ty) : (cs : List Source.Case) →
    (s : CheckState) → Keeps fs s (Check.cases analyse ty cs) fun s' ts => Case.AgreesAll s' ty cs ts
  | [], _ => pure fun _ => ⟨rfl, .plain (fun _ _ => trivial) fun _ _ _ _ => trivial⟩
  | .mk _ _ body :: rest, s =>
    bind (exprsAs analyses ty _ s) fun _ s1 ready1 _ typed =>
      bind (block body s1) fun _ s2 ready2 later2 first =>
        bind (cases ty rest s2) fun _ _ _ later3 others => pure fun _ =>
          have first := first.later ready2 later3
          ⟨rfl, fun w le => ⟨(later2.trans later3).forces ready1.declared typed w le, first.typed w le,
              others.2.typed w le⟩,
            (first.append others.2).labels, fun sizes l n isPlaced w le =>
              ⟨others.1 ▸ first.placed sizes.append.1 l _ isPlaced.1 w le,
                others.2.placed sizes.append.2 l n isPlaced.2 w le⟩⟩

end

end Keeps

end BasicCompiler.Typed
