import ElmLint.Text.Quoted
import ElmLint.Text.Utf8

/-!
# Files

A file tree is a directory with all that is in it, as a value: files are their bytes. What lies above the directory can be in
the tree as well, under the name `..`, and what lies below the root under the name `/`. Reading a file out of a tree can go
wrong as it can on a disk; `ReadError.message` says how in the words of the system.

The system knows files by the bytes of their names, and of those it takes only so many: `maxNameBytes` for a component of a path
and `maxPathBytes` for the whole.
-/

namespace ElmLint

/-- A file with its bytes, or a directory with its entries by their names. -/
inductive FileTree where
  | file (bytes : List UInt8)
  | directory (entries : List (String × FileTree))
deriving Inhabited

/-! ## Paths -/

/-- A path: its root, which is empty when the path is relative, and its components. Empty components and single dots are left
out. -/
structure TreePath where
  root : String
  components : List String
deriving Repr, DecidableEq, Inhabited

namespace TreePath

/-- The root that a path with so many slashes in front has: two slashes are a root of their own. -/
def rootOf : (slashes : Nat) → String
  | 0 => ""
  | 2 => "//"
  | _ => "/"

/-- The path that a string spells. -/
def ofString (text : String) : TreePath where
  root := rootOf (text.toList.takeWhile (· == '/')).length
  components := ((text.toList.splitOn '/').map String.ofList).filter fun c => c != "" && c != "."

/-- The path as a text; that of the directory one is in is a dot. -/
def render (p : TreePath) : String :=
  if p.root.isEmpty && p.components.isEmpty then "." else p.root ++ "/".intercalate p.components

/-- A path further down. -/
def append (p : TreePath) (components : List String) : TreePath := { p with components := p.components ++ components }

/-- Whether a path holds a null character, which no name can hold. -/
def hasNull (p : TreePath) : Bool := p.components.any (·.toList.contains '\x00')

/-- The names to follow in a tree: what lies below the root is found under the name `/`. -/
def steps (p : TreePath) : List String := if p.root.isEmpty then p.components else "/" :: p.components

end TreePath

/-- Why something is no path that could be handed to the system. -/
inductive PathError where
  /-- It holds a null character. -/
  | null
  /-- It holds a surrogate that stands for no byte. -/
  | surrogate
deriving Repr, DecidableEq, Inhabited

/-- The error in words. -/
def PathError.message : PathError → String
  | null => "a path holds a null character"
  | surrogate => "a path holds a surrogate"

/-- The bytes of a code point in a name: those of its encoding, or the one byte that a surrogate from U+DC80 to U+DCFF stands
for. -/
def CodePoint.nameBytes? : CodePoint → Option (List UInt8)
  | .char c => some c.toString.toUTF8.toList
  | .surrogate index => if 0x480 ≤ index.val && index.val < 0x500 then some [(index.val - 0x400).toUInt8] else none

/-- The path that a text spells. Bytes that are no encoding are shown, like surrogates, by the replacement character. -/
def TreePath.ofText (text : Text) : Except PathError TreePath :=
  match text.codePoints.mapM CodePoint.nameBytes? with
  | none => .error .surrogate
  | some bytes =>
    match Utf8.decode bytes.flatten with
    | .ok cs => .ok (.ofString (String.ofList cs))
    | .error _ => .ok (.ofString text.shown)

/-! ## Reading -/

/-- The greatest number of bytes that a component of a path may have. -/
def maxNameBytes : Nat := 255

/-- The greatest number of bytes that a path may have. -/
def maxPathBytes : Nat := 4095

/-- Why the bytes of a file cannot be read. -/
inductive AccessError where
  | notFound
  | notDirectory
  | isDirectory
  | nameTooLong
deriving Repr, DecidableEq, Inhabited

/-- The error in the words of the system. -/
def AccessError.message (path : String) : AccessError → String
  | notFound => "[Errno 2] No such file or directory: " ++ quoted path
  | notDirectory => "[Errno 20] Not a directory: " ++ quoted path
  | isDirectory => "[Errno 21] Is a directory: " ++ quoted path
  | nameTooLong => "[Errno 36] File name too long: " ++ quoted path

/-- Why the text of a file cannot be read. -/
inductive ReadError where
  | path (error : PathError)
  | access (error : AccessError)
  | encoding (error : Utf8.Error)
deriving Repr, DecidableEq, Inhabited

/-- The error in words. -/
def ReadError.message (path : String) : ReadError → String
  | .path error => error.message
  | access error => error.message path
  | encoding error => error.message

namespace FileTree

/-- What stands at the end of some components, going down from a place; `above` are the directories the place is in,
innermost first. Two dots lead to the directory that a place is in, unless the tree has an entry of that name. A name that is
too long is refused when it is its turn. -/
def walk : (above : List FileTree) → FileTree → List String → Except AccessError FileTree
  | _, here, [] => .ok here
  | _, .file _, _ :: _ => .error .notDirectory
  | above, .directory entries, c :: cs =>
    if maxNameBytes < c.utf8ByteSize then .error .nameTooLong
    else
      match entries.lookup c, above with
      | some next, above => walk (.directory entries :: above) next cs
      | none, up :: above => if c == ".." then walk above up cs else .error .notFound
      | none, [] => .error .notFound

/-- What stands at a path, seen from the directory that the tree is. -/
def find (tree : FileTree) (path : TreePath) : Except AccessError FileTree :=
  if maxPathBytes < path.render.utf8ByteSize then .error .nameTooLong else walk [] tree path.steps

/-- Whether what stands at a path is of some kind. Nothing stands at a path that holds a null character, or below a file; of a
name that is too long it is not known. -/
def testAt (kind : FileTree → Bool) (tree : FileTree) (path : TreePath) : Except AccessError Bool :=
  if path.hasNull then .ok false
  else
    match tree.find path with
    | .ok found => .ok (kind found)
    | .error .nameTooLong => .error .nameTooLong
    | .error _ => .ok false

/-- Whether a directory stands at a path. -/
def isDirectory : FileTree → TreePath → Except AccessError Bool := testAt fun
  | directory _ => true
  | file _ => false

/-- Whether a file stands at a path. -/
def isFile : FileTree → TreePath → Except AccessError Bool := testAt fun
  | file _ => true
  | directory _ => false

/-- The text of the file at a path, with line feeds at the ends of its lines. -/
def readText (tree : FileTree) (path : TreePath) : Except ReadError (List Char) :=
  if path.hasNull then .error (.path .null)
  else
    match tree.find path with
    | .error e => .error (.access e)
    | .ok (.directory _) => .error (.access .isDirectory)
    | .ok (.file bytes) =>
      match Utf8.decode bytes with
      | .ok text => .ok (normalizeNewlines text)
      | .error e => .error (.encoding e)

mutual

/-- The paths, as components from a place down, of all that is below a tree. -/
def descendants : FileTree → List (List String)
  | file _ => []
  | directory entries => descendantsOf entries

/-- The paths of entries and of all that is below them. -/
def descendantsOf : List (String × FileTree) → List (List String)
  | [] => []
  | (name, tree) :: rest => [name] :: (descendants tree).map (name :: ·) ++ descendantsOf rest

end

/-- A node at the end of some components, with nothing around it. -/
def freshAt (node : FileTree) : List String → FileTree
  | [] => node
  | c :: cs => .directory [(c, freshAt node cs)]

mutual

/-- The tree with a node at the end of some components, where directories are made on the way. -/
def insertAt (node : FileTree) : FileTree → List String → FileTree
  | _, [] => node
  | .file _, c :: cs => freshAt node (c :: cs)
  | .directory entries, c :: cs => .directory (insertEntry node entries c cs)

/-- The entries with a node below one of them. -/
def insertEntry (node : FileTree) : List (String × FileTree) → String → List String → List (String × FileTree)
  | [], c, cs => [(c, freshAt node cs)]
  | (name, tree) :: rest, c, cs =>
    if name = c then (name, insertAt node tree cs) :: rest else (name, tree) :: insertEntry node rest c cs

end

/-- The directory with nothing in it. -/
def empty : FileTree := .directory []

end FileTree

end ElmLint
