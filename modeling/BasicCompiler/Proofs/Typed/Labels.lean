/-
# The labels of a body

The labels that statements contain, in the order they stand in.
-/
import BasicCompiler.Typed.Tree

namespace BasicCompiler.Typed

mutual

def Stmt.labels : Stmt → List SymbolId
  | .label _ id => [id]
  | .ifChain _ branches otherwise => Branch.labelsAll branches ++ Block.labelsOf otherwise
  | .select _ _ cases => Case.labelsAll cases
  | .doLoop _ body | .whileLoop _ _ body | .repeatLoop _ body _ | .forLoop _ _ _ _ _ _ body => body.labels
  | .declare _ _ _ _ | .assign _ _ _ | .eval _ _ | .goto _ _ | .ret _ _ | .exitLoop _
  | .continueLoop _ | .fallthrough _ | .stop _ => []

def Stmt.labelsAll : List Stmt → List SymbolId
  | [] => []
  | s :: rest => s.labels ++ Stmt.labelsAll rest

def Block.labels : Block → List SymbolId
  | .mk _ body => Stmt.labelsAll body

def Block.labelsOf : Option Block → List SymbolId
  | none => []
  | some body => body.labels

def Branch.labelsAll : List Branch → List SymbolId
  | [] => []
  | .mk _ body :: rest => body.labels ++ Branch.labelsAll rest

def Case.labelsAll : List Case → List SymbolId
  | [] => []
  | .mk _ body :: rest => body.labels ++ Case.labelsAll rest

end

/-- The labels of a function are those of its body, and none stands there twice. -/
structure Function.Labelled (f : Function) : Prop where
  labels : f.body.labels = f.labels
  nodup : f.labels.Nodup

end BasicCompiler.Typed
