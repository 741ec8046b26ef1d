/-!
# Positions and ranges in a source text

Offsets count characters from zero. A position is a row and a column, both counted from one; the rows of a text are
given by the offsets at which its lines start. A range runs from its start up to, but not including, its stop.
-/

namespace ElmLint

/-- A point in a source text; row and column count from one, and `0:0` stands for no position. -/
structure Position where
  row : Nat
  column : Nat
deriving Repr, DecidableEq, Inhabited

/-- A stretch of source text, its stop excluded. -/
structure SourceRange where
  start : Position
  stop : Position
deriving Repr, DecidableEq, Inhabited

namespace Position

/-- The position as `row:column`. -/
def render (p : Position) : String := toString p.row ++ ":" ++ toString p.column

/-- The next column of the same row. -/
def next (p : Position) : Position := ⟨p.row, p.column + 1⟩

end Position

/-- The range as `row:column-row:column`. -/
def SourceRange.render (r : SourceRange) : String := r.start.render ++ "-" ++ r.stop.render

/-- The range of a diagnostic that has no place in the source. -/
def SourceRange.none : SourceRange := ⟨⟨0, 0⟩, ⟨0, 0⟩⟩

/-- The offsets just past the line feeds of a text whose first character has the offset `offset`. -/
def lineStartsFrom : Nat → List Char → List Nat
  | _, [] => []
  | offset, c :: cs =>
    if c == '\n' then (offset + 1) :: lineStartsFrom (offset + 1) cs else lineStartsFrom (offset + 1) cs

/-- The offsets at which the lines of a text start. -/
def lineStarts (text : List Char) : List Nat := 0 :: lineStartsFrom 0 text

/-- The row of an offset: the number of lines that start at or before it. -/
def rowOf (starts : List Nat) (offset : Nat) : Nat := starts.countP (· ≤ offset)

/-- The position of an offset in a text whose lines start at `starts`. -/
def Position.ofOffset (starts : List Nat) (offset : Nat) : Position :=
  let row := rowOf starts offset
  ⟨row, offset - starts.getD (row - 1) 0 + 1⟩

end ElmLint
