import ElmLint.Lexeme
import ElmLint.Position

/-!
# Tokens and comments of a source text

`pieces` cuts a source text, from left to right and without a gap, into tokens, comments and runs of blanks. The only
text that cannot be cut is one with a block comment that is never closed. `Scanned.ofSource` keeps of the pieces what
layout needs: the tokens with their places, the comments, and the text with every comment blanked out, in which every
offset and every line of the source keeps its place.
-/

namespace ElmLint

/-- What a token is. Layout tells brackets, commas and names apart from the rest. -/
inductive Token.Kind where
  | string
  | char
  | number
  | name
  | bracket
  | comma
  | operator
  | other
deriving Repr, DecidableEq, Inhabited

/-- A token with its place: offsets of its first character and just past its last, the position of its first character
and the row of its last. -/
structure Token where
  kind : Token.Kind
  text : String
  start : Nat
  stop : Nat
  line : Nat
  column : Nat
  endLine : Nat
deriving Repr, DecidableEq, Inhabited

/-- A line comment or a block comment with its delimiters. -/
structure Comment where
  text : String
  range : SourceRange
deriving Repr, DecidableEq, Inhabited

/-! ## Pieces -/

/-- What a piece of the source is. -/
inductive Piece.Kind where
  | token (kind : Token.Kind)
  | comment
  | blank
deriving Repr, DecidableEq, Inhabited

/-- A piece of the source: its kind, the offset of its first character and its characters. -/
structure Piece where
  kind : Piece.Kind
  start : Nat
  text : List Char
deriving Repr, DecidableEq, Inhabited

/-- Characters that operators are made of. -/
def isOperatorChar (c : Char) : Bool := "+-*/<>=!&|^%.:?\\~#@$".toList.contains c

/-- An opening or closing bracket. -/
def isBracket (c : Char) : Bool := "()[]\x7b\x7d".toList.contains c

/-- How many characters there are up to the end of a block comment, when `depth` comments are open inside it. Openers
and closers are read two characters at a time from left to right. -/
def blockCommentEnd? : Nat → List Char → Option Nat
  | _, [] => none
  | depth, '{' :: '-' :: cs => (blockCommentEnd? (depth + 1) cs).map (· + 2)
  | 0, '-' :: '}' :: _ => some 2
  | depth + 1, '-' :: '}' :: cs => (blockCommentEnd? depth cs).map (· + 2)
  | depth, _ :: cs => (blockCommentEnd? depth cs).map (· + 1)

/-- The kinds of pieces other than comments, each with the length of a piece of that kind at the start of a text. No
text starts with pieces of two kinds. -/
def pieceClasses : List (Piece.Kind × (List Char → Option Nat)) :=
  [(.token .string, stringLength? true),
   (.token .char, charLength? true),
   (.token .number, numberLength? isDigit),
   (.token .name, nameLength? fun c => isLetter c || c == '_'),
   (.token .bracket, fun cs => if cs.head?.any isBracket then some 1 else none),
   (.token .comma, exactLength? [',']),
   (.token .operator, someRun? isOperatorChar),
   (.blank, someRun? isBlank)]

/-- The kind and length of the piece that a non-empty text starts with, or nothing when that is a block comment without
an end. A character that starts no other piece is a token by itself. -/
def firstPiece? : List Char → Option (Piece.Kind × Nat)
  | '{' :: '-' :: cs => (blockCommentEnd? 0 cs).map fun n => (.comment, n + 2)
  | '-' :: '-' :: cs => some (.comment, runLength (· != '\n') cs + 2)
  | cs => some <| (pieceClasses.findSome? fun (kind, length?) => (length? cs).map (kind, ·)).getD (.token .other, 1)

/-- Cut a text into pieces. The first character has the offset `offset`, and `skip` characters still belong to the piece
that was cut last. An error is the offset of a block comment that is never closed. -/
def piecesFrom : (offset skip : Nat) → List Char → Except Nat (List Piece)
  | _, _, [] => .ok []
  | offset, skip + 1, _ :: cs => piecesFrom (offset + 1) skip cs
  | offset, 0, c :: cs =>
    match firstPiece? (c :: cs) with
    | none => .error offset
    | some (kind, n) =>
      match piecesFrom (offset + 1) (n - 1) cs with
      | .error e => .error e
      | .ok rest => .ok (⟨kind, offset, (c :: cs).take n⟩ :: rest)

/-- The pieces of a source text, from left to right. -/
def pieces (source : List Char) : Except Nat (List Piece) := piecesFrom 0 0 source

namespace Piece

/-- The offset just past a piece. -/
def stop (p : Piece) : Nat := p.start + p.text.length

/-- The characters of a piece as layout sees them: in a comment, all but the line feeds are blanked out. -/
def visible (p : Piece) : List Char :=
  if p.kind = .comment then p.text.map fun c => if c == '\n' then c else ' ' else p.text

/-- The token that a piece is. -/
def token? (starts : List Nat) (p : Piece) : Option Token :=
  match p.kind with
  | .token kind =>
    let place := Position.ofOffset starts p.start
    some ⟨kind, String.ofList p.text, p.start, p.stop, place.row, place.column, rowOf starts (p.stop - 1)⟩
  | _ => none

/-- The comment that a piece is. -/
def comment? (starts : List Nat) (p : Piece) : Option Comment :=
  if p.kind = .comment then
    some ⟨String.ofList p.text, Position.ofOffset starts p.start, (Position.ofOffset starts (p.stop - 1)).next⟩
  else none

end Piece

/-! ## Scanned sources -/

/-- A source that was cut into pieces: its text with the comments blanked out, its tokens and its comments. -/
structure Scanned where
  text : List Char
  tokens : List Token
  comments : List Comment
deriving Repr, DecidableEq, Inhabited

/-- Scan a source. An error is the offset of a block comment that is never closed. -/
def Scanned.ofSource (source : List Char) : Except Nat Scanned :=
  (pieces source).map fun ps =>
    let starts := lineStarts source
    ⟨ps.flatMap Piece.visible, ps.filterMap (Piece.token? starts), ps.filterMap (Piece.comment? starts)⟩

end ElmLint
