import ElmLint.Breakdown
import ElmLint.Log
import ElmLint.Parse
import ElmLint.Text.Order

/-!
# Source files

How the sources below a directory are found, and how a source is read out of a file tree.
-/

namespace ElmLint

namespace SourceFile

/-- The ending of the names of source files. -/
def suffix : List Char := ".elm".toList

/-- The directory that holds what other tools made; no source is taken from it. -/
def generatedDirectory : String := "elm-stuff"

/-- The order of paths: component by component, each by its code points. -/
def before (p q : TreePath) : Bool := dictionaryBefore textLess p.components q.components

/-- Whether a path is that of a source, wherever it lies. -/
def isSource (path : TreePath) : Bool :=
  (path.components.getLast?.any fun name => suffix.isSuffixOf name.toList) && !path.components.contains generatedDirectory

/-- The sources below a directory, sorted. -/
def under (tree : FileTree) (directory : TreePath) : List TreePath :=
  match tree.find directory with
  | .error _ => []
  | .ok found => ((found.descendants.map directory.append).filter isSource).mergeSort before

end SourceFile

/-- Why a file is not read as a module. -/
inductive SourceError where
  | unreadable (error : ReadError)
  | source (error : ParseError)
deriving Repr, DecidableEq, Inhabited

/-- The failure that reports the error, unless the program breaks off because of it. -/
def SourceError.report (path : String) : SourceError → Except Breakdown Failure
  | unreadable (.path error) => .error (.path error)
  | unreadable error => .ok {
      kind := .general
      message := "cannot read " ++ path ++ ": " ++ error.message path
      code := .unreadableSource
      span := { file := path } }
  | source error => (error.report path).mapError .literal

/-- Read the file at a path as a module. -/
def Module.load (tree : FileTree) (path : TreePath) : Except SourceError Module :=
  match tree.readText path with
  | .error e => .error (.unreadable e)
  | .ok text => (Module.parse (String.ofList text) path.render).mapError .source

/-- What is logged about laying out a source. -/
def layoutLog (source : String) (file : String) : List LogRecord :=
  match Scanned.ofSource source.toList, LaidOut.parse source with
  | .ok scanned, .ok laidOut =>
    [⟨.debug, .layout, "scanned " ++ file ++ ": " ++ toString scanned.tokens.length ++ " tokens, " ++
        toString scanned.comments.length ++ " comments"⟩,
     ⟨.debug, .layout, "layout of " ++ file ++ ": " ++ toString laidOut.markers.length ++ " markers"⟩]
  | _, _ => []

/-- What is logged about parsing a source. -/
def parseLog (source : String) (file : String) : List LogRecord :=
  layoutLog source file ++
    match Module.parse source file with
    | .ok m =>
      [⟨.debug, .parser, "parsed " ++ file ++ ": module " ++ ModuleName.dotted m.name ++ ", " ++
        toString m.imports.length ++ " imports, " ++ toString m.declarations.length ++ " declarations"⟩]
    | .error _ => []

/-- What is logged about reading the file at a path as a module. -/
def loadLog (tree : FileTree) (path : TreePath) : List LogRecord :=
  match tree.readText path with
  | .error _ => []
  | .ok text => parseLog (String.ofList text) path.render

end ElmLint
