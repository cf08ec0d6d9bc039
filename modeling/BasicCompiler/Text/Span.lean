/-
# Byte positions in a source text

Every position is an offset into the UTF-8 encoding of the source. A `Span` is a half-open interval of such offsets;
`Spanned` attaches one to a value.
-/
namespace BasicCompiler

def byteLength : List Char → Nat
  | [] => 0
  | c :: rest => c.utf8Size + byteLength rest

/-- The bytes from `lo` up to, not including, `hi`. -/
structure Span where
  lo : Nat
  hi : Nat
deriving DecidableEq, Inhabited

namespace Span

/-- The empty span at the start of the text, carried by what has no place in it. -/
def none : Span := ⟨0, 0⟩

def join (a b : Span) : Span := ⟨min a.lo b.lo, max a.hi b.hi⟩

def length (s : Span) : Nat := s.hi - s.lo

def isEmpty (s : Span) : Bool := s.lo == s.hi

end Span

/-- A value together with the place it was written at. -/
structure Spanned (α : Type) where
  node : α
  span : Span

end BasicCompiler
