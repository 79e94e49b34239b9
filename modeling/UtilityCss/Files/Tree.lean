import UtilityCss.Path

/-! A tree of directories and files, and what can be done with it. Paths count from its top, and
every step of a path but the last has to be a directory. There are no links. -/
namespace UtilityCss

inductive Node where
  | dir
  | file (bytes : ByteArray)

theorem Node.file_eq_iff {a b : ByteArray} : Node.file a = .file b ↔ a.data = b.data := by
  rw [Node.file.injEq, ByteArray.ext_iff]

instance : DecidableEq Node
  | .dir, .dir => isTrue rfl
  | .dir, .file _ => isFalse nofun
  | .file _, .dir => isFalse nofun
  | .file _, .file _ => decidable_of_iff' _ Node.file_eq_iff

/-- Why an operation on files fails. -/
inductive FileError where
  | notFound
  | notDirectory
  | isDirectory
  | alreadyExists
  | nameTooLong
  | nulInName
  | notText
  deriving DecidableEq, Repr

def FileError.message : FileError → String
  | notFound => "No such file or directory (os error 2)"
  | notDirectory => "Not a directory (os error 20)"
  | isDirectory => "Is a directory (os error 21)"
  | alreadyExists => "File exists (os error 17)"
  | nameTooLong => "File name too long (os error 36)"
  | nulInName => "file name contained an unexpected NUL byte"
  | notText => "stream did not contain valid UTF-8"

/-- The names that lead from the top to a node. -/
abbrev Location := List String

def Location.path (l : Location) : Path := ⟨String.join (l.map ("/" ++ ·))⟩

/-- The location of an absolute path whose directories are all there. -/
def Path.location (p : Path) : Location :=
  p.components.foldl (fun l c =>
    match c with
    | .name s => l ++ [s]
    | .up => l.dropLast
    | _ => l) []

structure FileTree where
  /-- The nodes below the top. -/
  entries : List (Location × Node) := []

namespace FileTree

/-- The node at a location. The top is a directory. -/
def get? (t : FileTree) (l : Location) : Option Node :=
  if l = [] then some .dir else t.entries.lookup l

def put (t : FileTree) (l : Location) (n : Node) : FileTree :=
  { entries := (l, n) :: t.entries.filter (·.1 ≠ l) }

/-- A node is where it was put, and all others stay. -/
theorem get?_put (t : FileTree) {l l' : Location} {n : Node} (h : l ≠ []) :
    (t.put l n).get? l' = if l' = l then some n else t.get? l' := by
  unfold get? put
  by_cases hl : l' = []
  · subst hl
    simp [Ne.symm h]
  · rw [if_neg hl, if_neg hl, lookup_put]

/-- Takes away the node at `l` and all below it. -/
def removeAll (t : FileTree) (l : Location) : FileTree :=
  { entries := t.entries.filter fun e => !l.isPrefixOf e.1 }

/-- The directories above a location, from the top down, itself not among them. -/
def above (l : Location) : List Location := (List.range l.length).map (l.take ·)

/-- Puts a file, and the directories above it that are missing. -/
def putFile (t : FileTree) (l : Location) (bytes : ByteArray) : FileTree :=
  ((above l).foldl (fun t d => if (t.get? d).isSome then t else t.put d .dir) t).put l (.file bytes)

/-- One step from a node: filler stays, `..` goes up, a name goes down. The node has to be a
directory; what the name leads to need not exist. -/
def step (t : FileTree) (l : Location) (piece : List Char) : Except FileError Location :=
  match t.get? l with
  | none => .error .notFound
  | some (.file _) => .error .notDirectory
  | some .dir =>
    match Component.ofPiece? piece with
    | some (.name s) => if 255 < s.utf8ByteSize then .error .nameTooLong else .ok (l ++ [s])
    | some .up => .ok l.dropLast
    | _ => .ok l

/-- Why the text of a path is refused before anything is looked up. -/
def refusal? (p : Path) : Option FileError :=
  if p.text.toList.contains '\x00' then some .nulInName
  else if p.isTooLong then some .nameTooLong
  else none

def steps (t : FileTree) (pieces : List (List Char)) : Except FileError Location :=
  pieces.foldlM t.step []

/-- The location that a path leads to. -/
def locate (t : FileTree) (p : Path) : Except FileError Location :=
  match refusal? p with
  | some e => .error e
  | none => t.steps (Text.pieces '/' p.text.toList)

/-- The node that a path leads to. -/
def node (t : FileTree) (p : Path) : Except FileError (Location × Node) :=
  match t.locate p with
  | .error e => .error e
  | .ok l =>
    match t.get? l with
    | none => .error .notFound
    | some n => .ok (l, n)

def exists? (t : FileTree) (p : Path) : Bool := (t.node p).toOption.isSome

def isDir (t : FileTree) (p : Path) : Bool :=
  match t.node p with
  | .ok (_, .dir) => true
  | _ => false

def read (t : FileTree) (p : Path) : Except FileError ByteArray :=
  match t.node p with
  | .error e => .error e
  | .ok (_, .dir) => .error .isDirectory
  | .ok (_, .file bytes) => .ok bytes

def readText (t : FileTree) (p : Path) : Except FileError String :=
  match t.read p with
  | .error e => .error e
  | .ok bytes => (String.fromUTF8? bytes).elim (.error .notText) .ok

/-- Writes a file, a new one or in the place of an old one. Its directory has to be there. -/
def write (t : FileTree) (p : Path) (bytes : ByteArray) : Except FileError FileTree :=
  match t.locate p with
  | .error e => .error e
  | .ok l =>
    if p.text.toList.getLast? = some '/' || t.get? l = some .dir then .error .isDirectory
    else .ok (t.put l (.file bytes))

/-- Makes one directory; slashes at the end of the path do not matter. -/
def mkdir (t : FileTree) (pieces : List (List Char)) : Except FileError (FileTree) :=
  match pieces.reverse.dropWhile (·.isEmpty) with
  | [] => .error .alreadyExists
  | last :: before =>
    match t.steps before.reverse with
    | .error e => .error e
    | .ok parent =>
      match t.step parent last with
      | .error e => .error e
      | .ok l =>
        if l.length ≤ parent.length || (t.get? l).isSome then .error .alreadyExists
        else .ok (t.put l .dir)

/-- Accepts a failure if the directory is there all the same. -/
def orDir (t : FileTree) (pieces : List (List Char)) (e : FileError) : Except FileError FileTree :=
  match t.steps pieces with
  | .ok l => if t.get? l = some .dir then .ok t else .error e
  | .error _ => .error e

/-- Makes a directory and, if it cannot be made for want of them, first those above it. `above` has
the components of the path, the last one first. -/
def mkdirs (t : FileTree) (pieces : List (List Char)) : (above : List Component) →
    Except FileError FileTree
  | [] => (t.mkdir pieces).tryCatch (t.orDir pieces)
  | _ :: above =>
    match t.mkdir pieces with
    | .error .notFound =>
      match t.mkdirs (above.reverse.map Component.piece) above with
      | .error e => .error e
      | .ok t => (t.mkdir pieces).tryCatch (t.orDir pieces)
    | .error e => t.orDir pieces e
    | .ok t => .ok t

/-- Makes the directory that a path leads to, and those above it. -/
def makeDirs (t : FileTree) (p : Path) : Except FileError FileTree :=
  match refusal? p with
  | some e => .error e
  | none => t.mkdirs (Text.pieces '/' p.text.toList) p.components.reverse

/-- What `mkdirs` leaves if it fails: the directories above may have been made. -/
def mkdirsLeft (t : FileTree) (pieces : List (List Char)) : (above : List Component) → FileTree
  | [] => t
  | _ :: above =>
    match t.mkdir pieces with
    | .error .notFound =>
      match t.mkdirs (above.reverse.map Component.piece) above with
      | .error _ => t.mkdirsLeft (above.reverse.map Component.piece) above
      | .ok t => t
    | _ => t

/-- What `makeDirs` leaves if it fails. -/
def makeDirsLeft (t : FileTree) (p : Path) : FileTree :=
  match refusal? p with
  | some _ => t
  | none => t.mkdirsLeft (Text.pieces '/' p.text.toList) p.components.reverse

/-- The locations of all nodes at a location and below it. -/
def below (t : FileTree) (l : Location) : List Location :=
  (t.entries.map (·.1)).filter l.isPrefixOf

/-- The files at a location and below it, by the names that lead to them from there. -/
def filesBelow (t : FileTree) (l : Location) : List Location :=
  t.entries.filterMap fun (l', n) =>
    match n with
    | .file _ => Text.rest? l l'
    | .dir => none

/-- The nodes that `t` has and `before` has not, the directories before what they hold. -/
def newSince (t before : FileTree) : List (Location × Node) :=
  t.entries.reverse.filter fun (l, n) => before.get? l ≠ some n

end FileTree
end UtilityCss
