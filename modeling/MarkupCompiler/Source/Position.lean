import MarkupCompiler.Text.Basic

/-!
Places in a source text. Offsets count bytes and columns count characters; only a line feed ends
a line.
-/

namespace MarkupCompiler

structure Position where
  offset : Nat := 0
  line : Nat := 1
  column : Nat := 1
  deriving DecidableEq, Repr, Inhabited

/-- The position after one more character. -/
def Position.next (p : Position) (c : Char) : Position :=
  if c = '\n' then
    { offset := p.offset + c.utf8Size, line := p.line + 1, column := 1 }
  else
    { offset := p.offset + c.utf8Size, line := p.line, column := p.column + 1 }

/-- The position after a text. -/
def Position.advance (p : Position) (cs : Text) : Position :=
  cs.foldl Position.next p

/-- A stretch of a source text. -/
structure Location where
  start : Position := {}
  stop : Position := {}
  deriving DecidableEq, Repr, Inhabited

/-- The bytes a location covers, as an offset pair. -/
def Location.range (l : Location) : Nat × Nat :=
  (l.start.offset, l.stop.offset)

@[simp]
theorem Position.advance_nil (p : Position) : p.advance [] = p := rfl

@[simp]
theorem Position.advance_append (p : Position) (front back : Text) :
    p.advance (front ++ back) = (p.advance front).advance back := by
  simp [Position.advance]

end MarkupCompiler
