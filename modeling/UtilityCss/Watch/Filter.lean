import UtilityCss.Project.Config

/-! The directories that have to be watched for the files of some patterns, and which changes in the file
system call for a rebuild. -/
namespace UtilityCss.Watch

def isMeta (c : Char) : Bool := c = '*' || c = '?' || c = '[' || c = '\x7b'

/-- What stands before the last slash or backslash, unless that is nothing. -/
def directory (s : List Char) : List Char :=
  match s.reverse.dropWhile fun c => !(c = '/' || c = '\\') with
  | [] => ['.']
  | [_] => ['.']
  | _ :: before => before.reverse

/-- The directory in front of the first character with a meaning of its own. A pattern without such
a character, and without an extension, is taken for a directory. -/
def globRoot (pattern : String) : Path :=
  let s := pattern.toList
  if s.any isMeta then ⟨String.ofList (directory (s.takeWhile (!isMeta ·)))⟩
  else if (Path.extension? ⟨pattern⟩).isNone && !pattern.isEmpty then ⟨pattern⟩
  else ⟨String.ofList (directory s)⟩

/-- The directories of all patterns, each once. -/
def watchRoots (patterns : List String) : List Path :=
  Path.distinct (patterns.map fun p => globRoot (Glob.normalize p))

inductive EventKind where
  | access | create | modify | remove | other | any
  deriving DecidableEq, Repr

/-- Something that happened to files. -/
structure Event where
  kind : EventKind
  paths : List Path
  deriving DecidableEq, Repr

structure Filter where
  root : Path
  configPath : Path
  outputDir : Path
  content : Glob.PatternSet
  /-- The directories to watch. -/
  roots : List Path

namespace Filter

/-- The filter of a configuration; `glob` comes from the command line. -/
def ofConfig (root configPath : Path) (c : Config) (glob : Option String) :
    Except Glob.PatternError Filter :=
  match Glob.PatternSet.ofPatterns (c.globsFor glob) with
  | .error e => .error e
  | .ok content =>
    .ok { root, configPath, outputDir := root.join c.outputDir, content
          roots := (watchRoots (c.globsFor glob)).map root.join }

/-- The configuration file, and every file that is scanned, outside of the output directory. -/
def wantsPath (f : Filter) (p : Path) : Bool :=
  if p.same f.configPath then true
  else if p.isWithin f.outputDir then false
  else
    let relative := (p.relativeTo? f.root).getD p
    !isPackagePath relative && f.content.isMatch relative.text

/-- Reading a file changes nothing; every other event counts if one of its paths does. -/
def wants (f : Filter) (e : Event) : Bool := e.kind ≠ .access && e.paths.any f.wantsPath

end Filter
end UtilityCss.Watch
