import ElmLint.Session

/-!
# The program

Everything that is done with the world: the files that a command line names are read into a file tree, and what the session in
that tree writes is written.
-/

namespace ElmLint

namespace Program

/-- What stands at a path of the disk, if it can be read. Of directories only the sources are taken. -/
partial def capture (path : String) : IO (Option FileTree) := do
  try
    let place ← IO.FS.realPath path
    if ← place.isDir then
      let mut entries : List (String × FileTree) := []
      for entry in ← place.readDir do
        let below := path ++ "/" ++ entry.fileName
        if SourceFile.suffix.isSuffixOf entry.fileName.toList || (← entry.path.isDir) then
          if let some tree ← capture below then
            entries := (entry.fileName, tree) :: entries
      return some (.directory entries)
    else
      return some (.file (← IO.FS.readBinFile path).toList)
  catch _ => return none

/-- A file tree with what stands at some paths of the disk. Short paths come first, so that no directory replaces what was put
into it. -/
def captureAll (paths : List TreePath) : IO FileTree :=
  (paths.mergeSort fun p q => p.steps.length ≤ q.steps.length).foldlM (fun tree path => do
    match ← capture path.render with
    | some node => return .insertAt node tree path.steps
    | none => return tree) .empty

/-- A time in nanoseconds as milliseconds with one place. -/
def milliseconds (nanoseconds : Nat) : String :=
  let tenths := (nanoseconds + 50000) / 100000
  toString (tenths / 10) ++ "." ++ toString (tenths % 10) ++ "ms"

/-- Write what a session writes, and give the status it ends with. -/
def conclude (session : Session) (elapsed : String) : IO UInt32 := do
  let stdout ← IO.getStdout
  let stderr ← IO.getStderr
  for o in session.output do
    stdout.putStr o.stdout
    stdout.flush
    stderr.putStr (o.stderr fun _ => elapsed)
  match session.ending with
  | .exit status => return status.toUInt32
  | .broken cause =>
    stderr.putStrLn cause.message
    return 1

end Program

end ElmLint

open ElmLint in
/-- The program. -/
def main (words : List String) : IO UInt32 := do
  match CommandLine.Invocation.parse words with
  | .error halt => Program.conclude (.ofHalt halt) ""
  | .ok invocation =>
    let configPaths := Session.configPaths invocation
    let configured ← Program.captureAll configPaths
    let tree ← Program.captureAll (configPaths ++ Session.readPaths configured invocation)
    let start ← IO.monoNanosNow
    let session ← IO.lazyPure fun _ => Session.run tree invocation
    let stop ← IO.monoNanosNow
    Program.conclude session (Program.milliseconds (stop - start))
