import UtilityCss.Text.Search

/-! Paths. A path keeps its text as written; what it denotes are its components. -/
namespace UtilityCss

/-- One step of a path. A leading `.` is a step; all others, and empty pieces, are filler. -/
inductive Component where
  | root
  | here
  | up
  | name (s : String)
  deriving DecidableEq, Repr

namespace Component

/-- The step that a piece between two slashes stands for; filler stands for none. -/
def ofPiece? (piece : List Char) : Option Component :=
  if piece = [] ∨ piece = ['.'] then none
  else if piece = ['.', '.'] then some .up
  else some (.name (String.ofList piece))

def isFiller (piece : List Char) : Bool := (ofPiece? piece).isNone

/-- The piece that is written for a step behind the first one. -/
def piece : Component → List Char
  | root => []
  | here => ['.']
  | up => ['.', '.']
  | name s => s.toList

/-- The root comes first, then `.`, `..`, and the names in the order of their characters. -/
def compare : Component → Component → Ordering
  | root, root | here, here | up, up => .eq
  | root, _ => .lt
  | _, root => .gt
  | here, _ => .lt
  | _, here => .gt
  | up, _ => .lt
  | _, up => .gt
  | name a, name b => if a < b then .lt else if a = b then .eq else .gt

end Component

structure Path where
  text : String
  deriving DecidableEq, Repr

namespace Path

def isAbsolute (p : Path) : Bool := p.text.toList.head? == some '/'

/-- Whether a path has more bytes than a system call takes; the last of 4096 ends the text. -/
def isTooLong (p : Path) : Bool := 4096 ≤ p.text.utf8ByteSize

/-- The leading step that is no piece of the body, and the pieces of the body. -/
def parts (p : Path) : Option Component × List (List Char) :=
  match p.text.toList with
  | '/' :: rest => (some .root, Text.pieces '/' rest)
  | s =>
    match Text.pieces '/' s with
    | ['.'] :: body => (some .here, body)
    | body => (none, body)

def components (p : Path) : List Component :=
  let (head, body) := p.parts
  head.toList ++ body.filterMap Component.ofPiece?

/-- Whether two paths have the same components, however they are written. -/
def same (p q : Path) : Bool := p.components == q.components

/-- Keeps the first of the paths with the same components. -/
def distinct : List Path → List Path
  | [] => []
  | p :: ps => p :: (distinct ps).filter (!p.same ·)

/-- Whether `base` is `p` or one of the directories above it. -/
def isWithin (p base : Path) : Bool := base.components.isPrefixOf p.components

def dropTrailingFiller (body : List (List Char)) : List (List Char) :=
  (body.reverse.dropWhile Component.isFiller).reverse

/-- Follows steps through the pieces of a body; returns the text that is left, without filler at its
ends. -/
def follow? : List Component → List (List Char) → Option (List Char)
  | [], body => some (Text.joinPieces '/' (dropTrailingFiller (body.dropWhile Component.isFiller)))
  | c :: cs, body =>
    match body.dropWhile Component.isFiller with
    | [] => none
    | piece :: rest => if Component.ofPiece? piece = some c then follow? cs rest else none

/-- The path with filler at its end taken off. -/
def trimmed (p : Path) : List Char :=
  match p.parts with
  | (some .root, body) => '/' :: Text.joinPieces '/' (dropTrailingFiller body)
  | (some _, body) => Text.joinPieces '/' (['.'] :: dropTrailingFiller body)
  | (none, body) => Text.joinPieces '/' (dropTrailingFiller body)

/-- What leads from `base` to `p`, if `p` is within `base`. -/
def relativeTo? (p base : Path) : Option Path :=
  let left :=
    match base.components, p.parts with
    | [], _ => some p.trimmed
    | b :: bs, (some h, body) => if b = h then follow? bs body else none
    | bs, (none, body) => follow? bs body
  left.map fun text => ⟨String.ofList text⟩

/-- `q` as seen from `p`; an absolute path is the same from everywhere. -/
def join (p q : Path) : Path :=
  if q.isAbsolute then q
  else if p.text.isEmpty || p.text.toList.getLast? == some '/' then ⟨p.text ++ q.text⟩
  else ⟨p.text ++ "/" ++ q.text⟩

/-- The last component, if it is a name. -/
def name? (p : Path) : Option String :=
  match p.components.getLast? with
  | some (.name s) => some s
  | _ => none

/-- What follows the last dot of the name; a dot in front of a name starts no extension. -/
def extension? (p : Path) : Option String := do
  let name ← p.name?
  let after := name.toList.reverse.takeWhile (· ≠ '.')
  match name.toList.reverse.dropWhile (· ≠ '.') with
  | _ :: _ :: _ => some (String.ofList after.reverse)
  | _ => none

/-- Whether a component of `p` is the name `n`. -/
def hasName (n : String) (p : Path) : Bool := p.components.contains (.name n)

/-- The order of paths: component by component, a directory before what it holds. -/
def compareComponents : List Component → List Component → Ordering
  | [], [] => .eq
  | [], _ => .lt
  | _, [] => .gt
  | c :: cs, d :: ds => (c.compare d).then (compareComponents cs ds)

def le (p q : Path) : Bool := compareComponents p.components q.components != .gt

end Path
end UtilityCss
