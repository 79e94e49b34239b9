import UtilityCss.Files.Tree
import UtilityCss.Glob.Depth
import UtilityCss.Glob.Parse
import UtilityCss.Text.Blank

/-! Files named `.ignore`: which files below their directory a walk passes over. -/
namespace UtilityCss.Ignore

/-- One line of an ignore file. -/
structure Rule where
  /-- Whether the line takes files back in. -/
  negated : Bool
  dirOnly : Bool
  glob : List Glob.Token

def fileName : String := ".ignore"

/-- Stars and question marks stop at slashes. -/
def options : Glob.Options := { separate := true }

/-- The text of a line without blanks at its end, unless a backslash keeps them. -/
def trimLine (s : List Char) : List Char :=
  if [' ', '\\'].isPrefixOf s.reverse then s else Text.trimEnd s

/-- Takes a slash off the end, and the backslash before it. -/
def dropSlash (s : List Char) : Bool × List Char :=
  match s.reverse with
  | '/' :: '\\' :: r => (true, r.reverse)
  | '/' :: r => (true, r.reverse)
  | _ => (false, s)

/-- The pattern of a line, seen from the directory of the file: without a slash it fits at any
depth, and two stars at its end stand for what is below, not for the directory itself. -/
def patternOf (anchored : Bool) (s : List Char) : List Char :=
  let deep := "**/".toList
  let s := if anchored || s.contains '/' || s = "**".toList then s else deep ++ s
  if "**/".toList.isPrefixOf s.reverse then s ++ "/*".toList else s

/-- The rule of a line; comments, blank lines and bad patterns have none. -/
def ruleOf? (line : List Char) : Option Rule := do
  guard (line.head? ≠ some '#')
  let s := trimLine line
  guard (!s.isEmpty)
  let (negated, anchored, s) :=
    match s with
    | '\\' :: '!' :: r => (false, false, '!' :: r)
    | '\\' :: '#' :: r => (false, false, '#' :: r)
    | '!' :: '/' :: r => (true, true, r)
    | '!' :: r => (true, false, r)
    | '/' :: r => (false, true, r)
    | s => (false, false, s)
  let (dirOnly, s) := dropSlash s
  let glob ← (Glob.Parser.run { lenient := true } (patternOf anchored s)).toOption
  some { negated, dirOnly, glob }

/-- The lines of a file up to the first one that is no text. A byte order mark in front counts for
nothing. -/
def lines (bytes : ByteArray) : List (List Char) :=
  let raw := Text.pieces 0x0A bytes.toList
  let texts := (raw.map fun l => String.fromUTF8? ⟨l.toArray⟩).takeWhile Option.isSome
  match texts.filterMap (·.map fun s => dropReturn s.toList) with
  | [] => []
  | first :: rest => first.dropWhile (· = '\uFEFF') :: rest
where
  dropReturn (s : List Char) : List Char :=
    if s.getLast? = some '\r' then s.dropLast else s

/-- The rules of a file; a single pattern that nests too deeply undoes all of them. -/
def rulesOf (bytes : ByteArray) : List Rule :=
  let rules := (lines bytes).filterMap ruleOf?
  if rules.any fun r => Glob.isTooDeep options r.glob then [] else rules

/-- What rules say of a path as seen from their directory: the last one that fits counts. -/
def verdict? (rules : List Rule) (path : String) (isDir : Bool) : Option Bool :=
  (rules.reverse.find? fun r => (!r.dirOnly || isDir) && Glob.accepts options r.glob path).map
    (!·.negated)

/-- The rules of every ignore file, by the directory that it is in. -/
def all (t : FileTree) : List (Location × List Rule) :=
  t.entries.filterMap fun (l, n) =>
    match n with
    | .file bytes => if l.getLast? = some fileName then some (l.dropLast, rulesOf bytes) else none
    | .dir => none

/-- Whether a node is ignored: of the directories above it, the nearest whose rules have a verdict
counts. -/
def isIgnored (rules : List (Location × List Rule)) (l : Location) (isDir : Bool) : Bool :=
  ((FileTree.above l).reverse.findSome? fun d =>
    (rules.lookup d).bind fun rs =>
      verdict? rs ("/".intercalate (l.drop d.length)) isDir).getD false

/-- The files below `base` that are neither ignored themselves nor in an ignored directory below
`base`, by the names that lead to them from `base`. What `base` leads to is never ignored. -/
def visibleFiles (t : FileTree) (base : Location) : List Location :=
  let rules := all t
  (t.filesBelow base).filter fun l =>
    rules.isEmpty || l.isEmpty ||
      (!isIgnored rules (base ++ l) false &&
        ((FileTree.above l).drop 1).all fun d => !isIgnored rules (base ++ d) true)

end UtilityCss.Ignore
