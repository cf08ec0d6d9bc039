/-
# Each declared name has a place of its own

The names of a text begin at different offsets, since its tokens lie one behind the other and a name is not empty.
-/
import BasicCompiler.Proofs.Source.Placement
import BasicCompiler.Proofs.Token.Slices
import BasicCompiler.Typed.Checker.Declarations

namespace BasicCompiler

open Source List Parse

/-! ## The names of a text -/

/-- A text whose tokens are as they should be. -/
structure TokenStream.Named (s : TokenStream) : Prop where
  places : ((namesOf (s.lexemes.map (·.token))).map (·.span)).Nodup
  spelled : ∀ id ∈ namesOf (s.lexemes.map (·.token)), IsName id.node
  ends : s.eof.token.kind = .eof

theorem TokenStream.ofText_named (text : String) : (ofText text).Named := by
  obtain ⟨lies, last⟩ := ofText_lies text
  refine ⟨?_, ?_, by rw [last]; rfl⟩
  · rw [namesOf, map_map]
    refine pairwise_map.mpr ((lies.ordered.sublist filter_sublist).imp_of_mem ?_)
    -- a name is not empty, so what stands behind it begins later
    intro t t' inside inside' behind same
    obtain ⟨inside, isName⟩ := mem_filter.mp inside
    have wide := ((lies.stand t inside).name (of_decide_eq_true isName)).1
    rw [show t.span = t'.span from same] at wide behind
    exact Nat.not_le_of_lt wide behind
  · intro id mem
    obtain ⟨t, inside, rfl⟩ := mem_map.mp mem
    obtain ⟨inside, isName⟩ := mem_filter.mp inside
    exact ((lies.stand t inside).name (of_decide_eq_true isName)).2

namespace Source

/-! ## Programs -/

/-- Every declaration of a program. -/
def Program.decls (p : Program) : List VarDecl := stmtsDecls p.stmts ++ p.functions.flatMap fun f => f.body.decls

/-- In every body the statements that leave their surroundings stand where they can. -/
structure Program.Placed (p : Program) : Prop where
  main : stmtsPlaced false false p.stmts
  functions : ∀ f ∈ p.functions, f.body.Placed false false

/-- Values are returned from functions, and every selection is as it should be. -/
structure Program.Formed (p : Program) : Prop where
  main : stmtsFormed false p.stmts
  functions : ∀ f ∈ p.functions, f.body.Formed true

def declSpans (decls : List VarDecl) : List Span := decls.map (·.name.span)

/-- The names that a program gives to functions and variables. -/
def Program.names (p : Program) : List Ident := p.functions.map (·.name) ++ declNames p.decls

/-- A program as it is read, with these names in the order of the text. -/
def Program.Fits (names : List Ident) (p : Program) : Prop := names.Perm p.names ∧ p.Placed ∧ p.Formed

namespace Reads

theorem param : Reads param := bind (eat _) fun _ => bind (ident _) fun _ => bind optionalType fun _ => pure _

theorem paramList (n : Nat) : Reads (paramList n) := by
  induction n with
  | zero => exact exhausted
  | succ n ih =>
    refine bind param fun p => bind (eat _) fun more => ?_
    cases more with
    | true => exact bind ih fun _ => pure _
    | false => exact pure _

theorem params : Reads params := by
  refine bind (eat _) fun none => ?_
  cases none with
  | true => exact pure _
  | false => exact bind steps fun n => bind (paramList n) fun _ => bind (consume _ _) fun _ => pure _

theorem fields (n : Nat) : Reads (fields n) := by
  induction n with
  | zero => exact exhausted
  | succ n ih =>
    refine bind peek fun t => ?_
    split
    · exact pure _
    · split
      · exact failNext fun _ => rfl
      · exact bind (ident _) fun _ => bind (consume _ _) fun _ => bind typeName fun _ =>
          bind endOfStatement fun _ => bind ih fun _ => pure _

theorem typeDecl : Reads typeDecl :=
  bind advance fun _ => bind (ident _) fun _ => bind endOfStatement fun _ => bind steps fun n =>
    bind (fields n) fun _ => bind advance fun _ => bind endOfStatement fun _ => pure _

end Reads

/-- A function as it is read. -/
def Function.Fits (names : List Ident) (f : Function) : Prop :=
  ∃ inside, names = f.name :: inside ∧ f.body.Fits .functionBody inside

/-- A part of a program as it is read. -/
def Item.Fits (names : List Ident) : Item → Prop
  | .function f => f.Fits names
  | .typeDecl _ => names = []
  | .stmt s => s.Fits .topLevel names

theorem Program.Fits.prepend {names more : List Ident} {p : Program} {i : Item} (h : p.Fits more)
    (item : i.Fits names) : (p.prepend i).Fits (names ++ more) := by
  cases i with
  | function f =>
    obtain ⟨inside, rfl, rfl, placed, formed⟩ := item
    refine ⟨?_, ⟨h.2.1.main, ?_⟩, h.2.2.main, ?_⟩
    · have apart : (p.prepend (.function f)).names = f.name :: (p.functions.map (·.name) ++
          (declNames (stmtsDecls p.stmts) ++
            (declNames f.body.decls ++ declNames (p.functions.flatMap fun f => f.body.decls)))) := by
        simp only [Program.names, Program.decls, Program.prepend, flatMap_cons, declNames_append, map_cons, cons_append]
      rw [apart]
      refine Perm.cons _ ((h.1.append_left _).trans ?_)
      rw [Program.names, Program.decls, declNames_append]
      refine (perm_append_comm_assoc _ _ _).trans (Perm.append_left _ ?_)
      exact perm_append_comm_assoc _ _ _
    · exact forall_mem_cons.mpr ⟨placed, h.2.1.functions⟩
    · exact forall_mem_cons.mpr ⟨formed, h.2.2.functions⟩
  | typeDecl t =>
    subst item
    exact ⟨h.1, ⟨h.2.1.main, h.2.1.functions⟩, h.2.2.main, h.2.2.functions⟩
  | stmt s =>
    refine ⟨?_, ⟨⟨item.2.1, h.2.1.main⟩, h.2.1.functions⟩, ⟨item.2.2, h.2.2.main⟩, h.2.2.functions⟩
    have apart : (p.prepend (.stmt s)).names =
        p.functions.map (·.name) ++ (declNames s.decls ++ declNames p.decls) := by
      simp only [Program.names, Program.decls, Program.prepend, stmtsDecls, append_assoc, declNames_append]
    rw [apart, item.1]
    exact (h.1.append_left _).trans (perm_append_comm_assoc _ _ _)

namespace Takes

variable {text : String}

theorem function (there : Arrives text r .topLevel) (begins : r.peek.kind = .keyword .kwFunction) :
    Takes text r function Function.Fits := by
  refine after .advance fun word r1 h1 => bindRun (ident _) fun names id r2 h2 isName => ?_
  subst isName
  refine after (.consume _ _) fun _ r3 h3 => after .params fun params r4 h4 => ?_
  refine after .optionalType fun result r5 h5 => after .steps fun n r6 h6 => ?_
  cases h6
  have header : functionHeader r = .ok ((), r5) :=
    bind_ok.mpr ⟨_, _, h1, bind_ok.mpr ⟨_, _, h2, bind_ok.mpr ⟨_, _, h3,
      bind_ok.mpr ⟨_, _, h4, bind_ok.mpr ⟨_, _, h5, rfl⟩⟩⟩⟩⟩
  refine bind ((readsStmts text _).block .functionBody _ r5 (.function there begins header))
    fun inside body r7 fits => silent .advance fun close r8 => silent .atStatementEnd fun ended r9 => ?_
  have last : ∀ endValue r', Takes text r' (do
      endOfStatement
      return (⟨id, params, result, body, endValue, word.span.join close.span⟩ : Function))
      fun more f => f.Fits ([id] ++ (inside ++ more)) := by
    intro endValue r'
    refine silent .endOfStatement fun _ r'' => pure ⟨inside, ?_, fits⟩
    rw [append_nil]
    rfl
  cases ended with
  | true => exact silent (.pure _) fun endValue r' => last endValue r'
  | false => exact silent .expression fun e r' => silent (.pure _) fun endValue r'' => last endValue r''

theorem item (there : Arrives text r .topLevel) : Takes text r item fun names i => i.Fits names := by
  refine peek ?_
  split
  next begins =>
    refine bind (function there begins) fun names f r2 fits => pure ?_
    rw [append_nil]
    exact fits
  · exact silent .typeDecl fun t r2 => pure rfl
  · refine after .steps fun n r2 looked => ?_
    cases looked
    refine bind ((readsStmts text _).statement .topLevel r there) fun names s r3 fits => pure ?_
    rw [append_nil]
    exact fits

theorem items (n : Nat) (there : Arrives text r .topLevel) : Takes text r (items n) Program.Fits := by
  induction n generalizing r with
  | zero => exact exhausted
  | succ n ih =>
    refine after (.nextIs _) fun ended r1 looked => ?_
    cases looked
    split
    · exact pure ⟨.refl _, ⟨trivial, forall_mem_nil _⟩, trivial, forall_mem_nil _⟩
    · refine bindRun (item there) fun names i r2 read fits => bind (ih (.item there read)) fun more p r3 rest => pure ?_
      rw [append_nil]
      exact rest.prepend fits

theorem program (text : String) : Takes text (.ofStream (.ofText text)) program Program.Fits := by
  refine after .steps fun n r1 looked => ?_
  cases looked
  exact items _ .start

end Takes

theorem parseProgram_fits (read : (parseProgram text).result = some p) :
    ∃ names, names.Sublist (namesOf ((TokenStream.ofText text).lexemes.map (·.token))) ∧ p.Fits names := by
  have named := TokenStream.ofText_named text
  unfold parseProgram runParse at read
  split at read
  next a r run =>
    cases read
    obtain ⟨-, front, names, tokens, inside, fits⟩ := (Takes.program text named.ends).1 p r run
    refine ⟨names, inside.trans ?_, fits⟩
    have front_names : (namesOf front).Sublist (namesOf (front ++ r.rest)) := by
      rw [namesOf_append]
      exact sublist_append_left _ _
    rwa [← tokens] at front_names
  next => cases read

/-- A program that was read from a text has its statements where they belong, and no two
of its declarations have their names at the same place. -/
theorem parseProgram_placed (read : (parseProgram text).result = some p) : p.Placed ∧ (declSpans p.decls).Nodup := by
  have named := TokenStream.ofText_named text
  obtain ⟨names, inside, fits, placed, -⟩ := parseProgram_fits read
  have apart : (p.names.map (·.span)).Nodup := ((fits.map _).nodup_iff).mp ((inside.map _).nodup named.places)
  refine ⟨placed, ?_⟩
  rw [Program.names, map_append, declNames, map_map (f := VarDecl.name)] at apart
  exact (nodup_append.mp apart).2.1

/-- A program that is read has its statements where they belong: `exit` and `continue` in
loops, `fallthrough` in a case with another behind it, returned values in functions, and
selections with one default at most and a value for each other case. If the reading stops
with a fault of placement instead, then at the span of the fault there is a statement that
its surroundings do not allow. -/
theorem parseProgram_belongs (text : String) :
    (∀ p, (parseProgram text).result = some p → p.Placed ∧ p.Formed) ∧
      ∀ es, Parse.program (.ofStream (.ofText text)) = .error es → ∀ e ∈ es, e.fault.ofPlacement = true →
        Misplaced text e.fault e.span := by
  constructor
  · intro p read
    obtain ⟨names, -, -, placed, formed⟩ := parseProgram_fits read
    exact ⟨placed, formed⟩
  · intro es stopped e inside
    have told := (Takes.program text (TokenStream.ofText_named text).ends).2
    rw [stopped] at told
    obtain ⟨e', rfl, reason⟩ := told
    exact mem_singleton.mp inside ▸ reason

/-- A selection with a case to fall into in a loop that is left, and a `fallthrough` that
stands in no case. -/
theorem strayFallthrough_belongs :
    (∃ p, (parseProgram "do\nselect 1\ncase 1\nfallthrough\ncase default\nexit\nendselect\nloop\n").result = some p ∧
        p.Placed ∧ p.Formed) ∧
      ∃ e, Parse.program (.ofStream (.ofText "do\nfallthrough\nloop\n")) = .error [e] ∧
        Misplaced "do\nfallthrough\nloop\n" e.fault e.span := by
  constructor
  · have read : (parseProgram "do\nselect 1\ncase 1\nfallthrough\ncase default\nexit\nendselect\nloop\n").result.isSome =
        true := by decide +kernel
    obtain ⟨p, read⟩ := Option.isSome_iff_exists.mp read
    exact ⟨p, read, (parseProgram_belongs _).1 p read⟩
  · have stopped : (tryCatch ((Parse.program (.ofStream (.ofText "do\nfallthrough\nloop\n"))).map fun _ => false)
        fun es => .ok (es.length = 1 ∧ ∀ e ∈ es, e.fault.ofPlacement = true)).toOption = some true := by decide +kernel
    cases run : Parse.program (.ofStream (.ofText "do\nfallthrough\nloop\n")) with
    | ok p =>
      rw [run] at stopped
      cases stopped
    | error es =>
      rw [run] at stopped
      obtain ⟨single, placement⟩ := of_decide_eq_true (Option.some.inj stopped)
      obtain ⟨e, rfl⟩ := length_eq_one_iff.mp single
      exact ⟨e, rfl, (parseProgram_belongs _).2 _ run e (by simp) (placement e (by simp))⟩

theorem parseProgram_names (read : (parseProgram text).result = some p) : ∀ id ∈ p.names, IsName id.node := by
  have named := TokenStream.ofText_named text
  obtain ⟨names, inside, fits, -⟩ := parseProgram_fits read
  intro id mem
  exact named.spelled id (inside.subset (fits.mem_iff.mpr mem))

end Source

/-! ## Globals -/

namespace Typed.Check

open Source

section

variable (topLevel : Bool)

mutual

theorem stmtGlobals_sublist (s : Source.Stmt) : (stmtGlobals topLevel s).Sublist s.decls := by
  cases s with
  | declare span decl =>
    unfold stmtGlobals Source.Stmt.decls
    split
    · exact .refl _
    · exact nil_sublist _
  | ifChain span bs otherwise =>
    cases otherwise with
    | none =>
      unfold stmtGlobals Source.Stmt.decls otherwiseDecls
      rw [append_nil]
      exact branchGlobals_sublist bs
    | some body => exact (branchGlobals_sublist bs).append (blockGlobals_sublist body)
  | select span selector cs => exact caseGlobals_sublist cs
  | doLoop _ body | whileLoop _ _ body | repeatLoop _ body _ | forLoop _ _ _ _ _ _ body =>
    exact blockGlobals_sublist body
  | _ => exact nil_sublist _

theorem stmtsGlobals_sublist (body : List Source.Stmt) : (stmtsGlobals topLevel body).Sublist (stmtsDecls body) := by
  cases body with
  | nil => exact .refl _
  | cons s rest => exact (stmtGlobals_sublist s).append (stmtsGlobals_sublist rest)

theorem blockGlobals_sublist (body : Source.Block) : (blockGlobals topLevel body).Sublist body.decls := by
  cases body with
  | mk span body => exact stmtsGlobals_sublist body

theorem branchGlobals_sublist (bs : List Source.Branch) : (branchGlobals topLevel bs).Sublist (branchesDecls bs) := by
  cases bs with
  | nil => exact .refl _
  | cons b rest =>
    cases b with
    | mk cond body => exact (blockGlobals_sublist body).append (branchGlobals_sublist rest)

theorem caseGlobals_sublist (cs : List Source.Case) : (caseGlobals topLevel cs).Sublist (casesDecls cs) := by
  cases cs with
  | nil => exact .refl _
  | cons c rest =>
    cases c with
    | mk span values body => exact (blockGlobals_sublist body).append (caseGlobals_sublist rest)

end

end

theorem programGlobals_sublist (p : Source.Program) : (programGlobals p).Sublist p.decls := by
  refine (stmtsGlobals_sublist true p.stmts).append ?_
  induction p.functions with
  | nil => exact .refl _
  | cons f rest ih =>
    exact (blockGlobals_sublist false f.body).append ih

end Typed.Check

end BasicCompiler
