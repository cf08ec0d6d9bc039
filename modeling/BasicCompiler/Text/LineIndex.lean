/-
# Lines and columns of byte offsets

A text is cut after every newline. Lines and columns count from one, and columns count bytes. An offset past the end
belongs to the last line.
-/
import BasicCompiler.Text.Span

namespace BasicCompiler

/-- Offsets right after each newline of `chars`, where `chars` starts at `pos`. -/
def offsetsAfterNewlines (pos : Nat) : List Char → List Nat
  | [] => []
  | c :: rest =>
      let next := pos + c.utf8Size
      if c = '\n' then next :: offsetsAfterNewlines next rest
      else offsetsAfterNewlines next rest

/-- The offset at which each line of a text starts, in increasing order. -/
structure LineIndex where
  starts : List Nat

/-- A line and a column, both counted from one. -/
structure Location where
  line : Nat
  column : Nat
deriving DecidableEq

namespace LineIndex

def ofText (text : String) : LineIndex :=
  ⟨0 :: offsetsAfterNewlines 0 text.toList⟩

/-- The index of `offset` in an increasing list, or else the one at which it is to be inserted. -/
def search (starts : List Nat) (offset : Nat) : Except Nat Nat :=
  let below := (starts.takeWhile (· < offset)).length
  if starts[below]? = some offset then .ok below else .error below

/-- The index of the line that holds `offset`. -/
def lineOf (index : LineIndex) (offset : Nat) : Nat :=
  match search index.starts offset with
  | .ok line => line
  | .error line => line - 1

def location (index : LineIndex) (offset : Nat) : Location :=
  let line := index.lineOf offset
  ⟨line + 1, offset - index.starts.getD line 0 + 1⟩

def lineStart (index : LineIndex) (line : Nat) : Nat :=
  index.starts.getD (line - 1) 0

end LineIndex

end BasicCompiler
