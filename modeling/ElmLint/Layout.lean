import ElmLint.Token

/-!
# Layout: blocks by indentation

The arms of a `case … of` and the bindings of a `let` are grouped by the columns they start at. `Layout.place` walks over
the tokens and tells which markers stand before each of them: one where a block opens, one between two items of a
block, one where a block closes. The top-level declarations form a block at column one that is never opened or closed.

`LaidOut.ofSource` writes the markers into the scanned text. A laid-out text remembers where it has markers, so an offset
in it leads back to a position in the source (`LaidOut.position`, `LaidOut.range`).
-/

namespace ElmLint

namespace Layout

/-- What opened a block. -/
inductive BlockKind where
  | ofBlock
  | letBlock
deriving Repr, DecidableEq, Inhabited

/-- An open block: what opened it, the column of its first token, and how many brackets were open there. -/
structure Block where
  kind : BlockKind
  column : Nat
  depth : Nat
deriving Repr, DecidableEq, Inhabited

/-- What layout remembers between two tokens: the open blocks, innermost first; how many `let` blocks were closed by
indentation and still wait for their `in`; how many brackets are open; whether a block opens at the next token; and the
row of the last character seen. -/
structure State where
  blocks : List Block
  awaitingIn : Nat
  depth : Nat
  pending : Option BlockKind
  previousLine : Option Nat
deriving Repr, DecidableEq, Inhabited

/-- The state before the first token. -/
def State.start : State := ⟨[], 0, 0, none, none⟩

/-- Close the blocks that lie to the right of a column. Gives the markers written, the blocks left and how many `let`
blocks were among the closed ones. -/
def closeDeeper (column : Nat) : List Block → List Marker × List Block × Nat
  | [] => ([], [], 0)
  | b :: bs =>
    if column < b.column then
      let (markers, left, lets) := closeDeeper column bs
      (.closing :: markers, left, if b.kind = .letBlock then lets + 1 else lets)
    else ([], b :: bs, 0)

/-- Close the blocks that were opened inside at least `depth` brackets. -/
def closeBracketed (depth : Nat) : List Block → List Marker × List Block
  | [] => ([], [])
  | b :: bs =>
    if depth ≤ b.depth then
      let (markers, left) := closeBracketed depth bs
      (.closing :: markers, left)
    else ([], b :: bs)

/-- Close the innermost `let` block and all blocks inside it, when they were all opened at bracket depth `depth`. Nothing
is closed when there is no such block. -/
def closeLet (depth : Nat) : List Block → Option (List Marker × List Block)
  | [] => none
  | b :: bs =>
    if b.depth ≠ depth then none
    else if b.kind = .letBlock then some ([.closing], bs)
    else (closeLet depth bs).map fun (markers, left) => (.closing :: markers, left)

/-- Whether an item of the innermost block can start at a column inside `depth` brackets. The top level is a block at
column one outside all brackets. -/
def atItemStart (blocks : List Block) (column depth : Nat) : Bool :=
  match blocks with
  | [] => column == 1 && depth == 0
  | b :: _ => column == b.column && depth == b.depth

/-- The first part of a step: what the place of a token does. It opens the pending block, or, at the start of a line,
closes the blocks to its right and separates two items. -/
def indent (s : State) (t : Token) : List Marker × State :=
  let s' := { s with previousLine := some t.endLine }
  match s.pending with
  | some kind => ([.opening], { s' with blocks := ⟨kind, t.column, s.depth⟩ :: s.blocks, pending := none })
  | none =>
    if s.previousLine.any (· ≠ t.line) then
      let (markers, left, lets) := closeDeeper t.column s.blocks
      let s'' := { s' with blocks := left, awaitingIn := s.awaitingIn + lets }
      if atItemStart left t.column s.depth && t.text != "in" then (markers ++ [.separating], s'') else (markers, s'')
    else ([], s')

/-- The second part of a step: what the token itself does. Brackets and commas close the blocks opened inside them, `of`
and `let` open a block at the next token, and `in` closes its `let` block unless indentation has done so. -/
def delimit (s : State) (t : Token) : List Marker × State :=
  match t.kind with
  | .bracket =>
    if t.text == "(" || t.text == "[" || t.text == "\x7b" then ([], { s with depth := s.depth + 1 })
    else
      let (markers, left) := closeBracketed s.depth s.blocks
      (markers, { s with blocks := left, depth := s.depth - 1 })
  | .comma =>
    if s.depth == 0 then ([], s)
    else
      let (markers, left) := closeBracketed s.depth s.blocks
      (markers, { s with blocks := left })
  | .name =>
    if t.text == "of" then ([], { s with pending := some .ofBlock })
    else if t.text == "let" then ([], { s with pending := some .letBlock })
    else if t.text == "in" then
      if s.awaitingIn != 0 then ([], { s with awaitingIn := s.awaitingIn - 1 })
      else match closeLet s.depth s.blocks with
        | some (markers, left) => (markers, { s with blocks := left })
        | none => ([], s)
    else ([], s)
  | _ => ([], s)

/-- The markers that stand before a token, and the state after it. -/
def step (s : State) (t : Token) : List Marker × State :=
  let (indented, s') := indent s t
  let (delimited, s'') := delimit s' t
  (indented ++ delimited, s'')

/-- The markers before each of the tokens, and the blocks that are open after the last one. -/
def placeFrom : State → List Token → List (List Marker) × List Block
  | s, [] => ([], s.blocks)
  | s, t :: ts =>
    let (markers, s') := step s t
    let (rest, left) := placeFrom s' ts
    (markers :: rest, left)

/-- All markers with the source offsets they stand before, in order. Markers belong before the first character of a
token, and the blocks open at the end are closed right after the last token. -/
def insertions (tokens : List Token) : List (Nat × Marker) :=
  let (before, left) := placeFrom .start tokens
  (tokens.zip before).flatMap (fun (t, markers) => markers.map (t.start, ·)) ++
    match tokens.getLast? with
    | some last => left.map fun _ => (last.stop, .closing)
    | none => []

/-- Write markers into a text whose first character has the offset `offset`. -/
def insertFrom : Nat → List (Nat × Marker) → List Char → List Char
  | _, [], cs => cs
  | _, is, [] => is.map (·.2.char)
  | offset, is, c :: cs =>
    (is.takeWhile (·.1 ≤ offset)).map (·.2.char) ++ c :: insertFrom (offset + 1) (is.dropWhile (·.1 ≤ offset)) cs

/-- The offsets that markers have in the text they are written into: each marker moves the later ones by one. -/
def markerOffsets (is : List (Nat × Marker)) : List Nat := is.zipIdx.map fun ((offset, _), count) => offset + count

end Layout

/-- A source with its layout: the text with markers, the source itself, the offsets of the markers in the text, the
offsets at which the lines of the source start, and the comments. -/
structure LaidOut where
  text : List Char
  source : List Char
  markers : List Nat
  starts : List Nat
  comments : List Comment
deriving Repr, DecidableEq, Inhabited

namespace LaidOut

/-- The layout of a scanned source. -/
def ofScanned (source : List Char) (scanned : Scanned) : LaidOut :=
  let is := Layout.insertions scanned.tokens
  ⟨Layout.insertFrom 0 is scanned.text, source, Layout.markerOffsets is, lineStarts source, scanned.comments⟩

/-- Lay out a source. An error is the offset of a block comment that is never closed. -/
def ofSource (source : List Char) : Except Nat LaidOut := (Scanned.ofSource source).map (ofScanned source)

/-- A text taken as it is: none of its characters counts as an inserted marker. -/
def plain (text : List Char) : LaidOut := ⟨text, text, [], lineStarts text, []⟩

/-- The source offset of an offset in the laid-out text: each marker before it takes one away. -/
def sourceOffset (l : LaidOut) (offset : Nat) : Nat := offset - l.markers.countP (· < offset)

/-- The source position of an offset in the laid-out text; past the end it is that of the last character. -/
def position (l : LaidOut) (offset : Nat) : Position :=
  Position.ofOffset l.starts (min (l.sourceOffset offset) (l.source.length - 1))

/-- What may surround the text of a range without belonging to it: blanks and markers. -/
def isFiller (c : Char) : Bool := isBlank c || isMarker c

/-- The source range of the laid-out text from `start` to `stop`, without blanks and markers at its ends. A range that runs
backwards is left as it is. -/
def range (l : LaidOut) (start stop : Nat) : SourceRange :=
  let slice := (l.text.drop start).take (stop - start)
  let trimmed := slice.dropWhile isFiller
  let first := start + (slice.length - trimmed.length)
  let size := (trimmed.reverse.dropWhile isFiller).length
  if stop < start then ⟨l.position start, (l.position (stop - 1)).next⟩
  else if size == 0 then
    let point := l.position stop
    ⟨point, point⟩
  else ⟨l.position first, (l.position (first + size - 1)).next⟩

/-- The text with its markers made visible as braces and semicolons. -/
def render (l : LaidOut) : List Char :=
  l.text.map fun c =>
    if c == Marker.opening.char then '{'
    else if c == Marker.separating.char then ';'
    else if c == Marker.closing.char then '}'
    else c

end LaidOut

end ElmLint
