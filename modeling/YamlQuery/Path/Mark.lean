/-!
Positions in a path text. A mark is a byte offset with its line and column; a span is a range between two
marks.
-/
namespace YamlQuery.Path

/-- A position: the byte offset, and line and column counted in characters from zero. -/
structure Mark where
  pos : Nat := 0
  line : Nat := 0
  column : Nat := 0
  deriving DecidableEq, Inhabited

namespace Mark

def advance (m : Mark) (c : Char) : Mark :=
  if c = '\n' then ⟨m.pos + c.utf8Size, m.line + 1, 0⟩ else ⟨m.pos + c.utf8Size, m.line, m.column + 1⟩

def advanceAll (m : Mark) (cs : List Char) : Mark := cs.foldl advance m

def display (m : Mark) : String := s!"line {m.line + 1}, column {m.column + 1}"

end Mark

structure Span where
  start : Mark := {}
  stop : Mark := {}
  deriving DecidableEq, Inhabited

/-- The smallest span that covers both; where two ends have the same offset the first span's is kept. -/
def Span.merge (a b : Span) : Span where
  start := if b.start.pos < a.start.pos then b.start else a.start
  stop := if b.stop.pos > a.stop.pos then b.stop else a.stop

end YamlQuery.Path
