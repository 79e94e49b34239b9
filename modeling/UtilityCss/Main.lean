import Std.Data.HashMap
import UtilityCss.Command.Run

/-! The program: it takes a picture of the files, runs the command on the picture, and then writes
what the command changed. -/
namespace UtilityCss.Outer

/-- A file or directory that was seen; of a file also when it last changed. -/
structure Sight where
  location : Location
  changed : Option (Int × Nat)
  deriving DecidableEq

/-- Everything below a directory; links are left out. -/
partial def survey (dir : IO.FS.DirEntry) (l : Location) : IO (List Sight) := do
  let entries ← (dir.path.readDir).toBaseIO
  let mut sights := []
  for e in (entries.toOption.getD #[]) do
    let l := l ++ [e.fileName]
    if let .ok m ← e.path.symlinkMetadata.toBaseIO then
      match m.type with
      | .dir => sights := { location := l, changed := none } :: (← survey e l) ++ sights
      | .file =>
        let changed := some (m.modified.sec, m.modified.nsec.toNat)
        sights := { location := l, changed } :: sights
      | _ => pure ()
  return sights

/-- What a path leads to; a directory is known by not being readable as a file. -/
def look (path : String) : IO (Option Node) := do
  match ← (IO.FS.readBinFile path).toBaseIO with
  | .ok bytes => return some (.file bytes)
  | .error (.inappropriateType ..) => return some .dir
  | .error _ => return none

/-- Takes a path into the picture, with everything on the way to it. -/
def bring (t : FileTree) (p : Path) : IO FileTree := do
  let mut t := t
  let mut way := ""
  for c in p.components do
    way := match c with
      | .name s => way ++ "/" ++ s
      | .up => way ++ "/.."
      | _ => way
    if let some node ← look way then
      let l := Path.location ⟨way⟩
      if l ≠ [] then t := t.put l node
  return t

/-- A picture of the files that matter to a command: all names below `root`, and the contents of
what the command reads. -/
def picture (root : Path) (i : Invocation) (sights : List Sight) : IO FileTree := do
  let node (s : Sight) : Location × Node := (s.location, s.changed.elim .dir fun _ => .file .empty)
  let ignores := ((sights.filter fun s => s.location.getLast? = some Ignore.fileName).map
    (·.location.path)) ++ (FileTree.above root.location).map fun d => d.path.join ⟨Ignore.fileName⟩
  let mut t : FileTree := { entries := sights.map node }
  for p in root :: root.join ⟨i.config⟩ :: ignores do
    t ← bring t p
  for p in Run.sources t root i do
    t ← bring t p
  return t

/-- Writes what `after` has and `before` has not. -/
def writeNew (before after : FileTree) : IO Unit := do
  for (l, n) in after.newSince before do
    match n with
    | .dir => IO.FS.createDirAll l.path.text
    | .file bytes => IO.FS.writeBinFile l.path.text bytes

def printLog (log : Log) : IO Unit := do
  for l in log do
    IO.eprintln (LogFilter.line l)

def changesBetween (old new : List Sight) : List Watch.Change :=
  let changed (sights : List Sight) : Std.HashMap Location (Option (Int × Nat)) :=
    .ofList (sights.map fun s => (s.location, s.changed))
  let before := changed old
  let after := changed new
  let gone := (old.map (·.location)).filter fun l => !after.contains l
  let written := new.filter fun s => before[s.location]? ≠ some s.changed
  gone.map (.remove ·.path) ++ written.map (.write ·.location.path)

/-- Looks for changes again and again until the watch ends. -/
partial def follow (dir : IO.FS.DirEntry) (filter : Option String) (i : Invocation) (j : Watch.Job)
    (l : Watch.Loop) (old : List Sight) : IO UInt32 := do
  IO.sleep 200
  let new ← survey dir j.root.location
  let changes := changesBetween old new
  if changes.isEmpty then follow dir filter i j l old
  else
    let t ← picture j.root i new
    let l' := { l with log := [] }.change j changes t
    let e := Execution.ofRun filter (Run.ofLoop j l')
    writeNew t e.tree
    printLog e.log
    match e.watching with
    | some (j, l) => follow dir filter i j l new
    | none => return e.code.toUInt32

end UtilityCss.Outer

open UtilityCss Outer in
def main (args : List String) : IO UInt32 := do
  let filter ← IO.getEnv "RUST_LOG"
  let i := (Arguments.read args).toOption.getD {}
  match ← IO.currentDir.toBaseIO with
  | .error _ =>
    let e := Execution.execute {} (.error .notFound) args filter Font.unsupported
    IO.print e.output
    printLog e.log
    return e.code.toUInt32
  | .ok cwd =>
    let root : Path := ⟨cwd.toString⟩
    let dir : IO.FS.DirEntry := { root := cwd, fileName := "" }
    let sights ← survey dir root.location
    let t ← picture root i sights
    let e := Execution.execute t (.ok root) args filter Font.unsupported
    writeNew t e.tree
    IO.print e.output
    if let some complaint := e.complaint then IO.eprintln complaint
    printLog e.log
    match e.watching with
    | some (j, l) => follow dir filter i j l sights
    | none => return e.code.toUInt32
