/-
# Typed statements stand where they belong

What is true of the placement of statements as they are written is true of the typed ones: `exit` and `continue` stand
inside a loop, `fallthrough` inside a case with another one behind it.
-/
import BasicCompiler.Proofs.Source.Placement
import BasicCompiler.Proofs.Typed.WellTyped

namespace BasicCompiler.Typed

def Outlook.SeesArray (w : Outlook) (id : SymbolId) : Prop := ∃ v elem, w.sees? id = some v ∧ v.type = .arrayOf elem

theorem Outlook.SeesArray.mono {w w' : Outlook} {id : SymbolId} (h : w.SeesArray id) (le : w ≤ w') :
    w'.SeesArray id := by
  obtain ⟨v, elem, seen, isArray⟩ := h
  exact ⟨v, elem, le.sees id v seen, isArray⟩

mutual

/-- `inLoop` says that there is a loop around, `hasNext` that there is a case to fall
through to. -/
def Stmt.Placed (w : Outlook) (inLoop hasNext : Bool) : Stmt → Prop
  | .declare _ id dim _ => dim.isSome = true → w.SeesArray id
  | .ifChain _ bs otherwise => Branch.PlacedAll w inLoop hasNext bs ∧ Block.PlacedOf w inLoop hasNext otherwise
  | .select _ _ cs => Case.PlacedAll w inLoop cs
  | .doLoop _ body | .whileLoop _ _ body | .repeatLoop _ body _ | .forLoop _ _ _ _ _ _ body =>
      body.Placed w true hasNext
  | .exitLoop _ | .continueLoop _ => inLoop = true
  | .fallthrough _ => hasNext = true
  | .label _ _ | .assign _ _ _ | .eval _ _ | .goto _ _ | .ret _ _ | .stop _ => True

def Stmt.PlacedAll (w : Outlook) (inLoop hasNext : Bool) : List Stmt → Prop
  | [] => True
  | s :: rest => s.Placed w inLoop hasNext ∧ Stmt.PlacedAll w inLoop hasNext rest

def Block.Placed (w : Outlook) (inLoop hasNext : Bool) : Block → Prop
  | .mk _ body => Stmt.PlacedAll w inLoop hasNext body

def Block.PlacedOf (w : Outlook) (inLoop hasNext : Bool) : Option Block → Prop
  | none => True
  | some body => body.Placed w inLoop hasNext

def Branch.PlacedAll (w : Outlook) (inLoop hasNext : Bool) : List Branch → Prop
  | [] => True
  | .mk _ body :: rest => body.Placed w inLoop hasNext ∧ Branch.PlacedAll w inLoop hasNext rest

def Case.PlacedAll (w : Outlook) (inLoop : Bool) : List Case → Prop
  | [] => True
  | .mk _ body :: rest => body.Placed w inLoop (!rest.isEmpty) ∧ Case.PlacedAll w inLoop rest

end

/-- Where a declaration gives a size, the global that is known by its place is an
array. -/
def CheckState.Sizes (s : CheckState) (decls : List Source.VarDecl) : Prop :=
  ∀ decl ∈ decls, decl.dim.isSome = true → ∀ id, s.predeclared.lookup decl.name.span = some id →
    ∃ v elem, s.scopes.asVariable? id = some v ∧ v.type = .arrayOf elem

theorem CheckState.Sizes.mono {s : CheckState} (h : s.Sizes decls) (some_of : ∀ decl ∈ fewer, decl ∈ decls) :
    s.Sizes fewer :=
  fun decl mem => h decl (some_of decl mem)

end BasicCompiler.Typed
