import UtilityCss.Files.Ignore
import UtilityCss.Project.Config

/-! Finding and reading the files that are scanned. -/
namespace UtilityCss

inductive ScanError where
  | noPattern
  | badPattern (e : Glob.PatternError)
  | unreadable (path : Path) (e : FileError)
  deriving DecidableEq, Repr

def ScanError.message : ScanError → String
  | noPattern => "scan_globs requires at least one pattern"
  | badPattern e => e.message
  | unreadable path e => "failed to read " ++ path.text ++ ": " ++ e.message

/-- What to scan. -/
structure Scan where
  base : Path
  patterns : List String
  /-- Patterns of files that are passed over. -/
  ignore : List String := []
  includePackages : Bool := false

namespace Scan

/-- Whether a file is scanned, by its path as seen from the base. -/
def keeps (s : Scan) (patterns ignore : Glob.PatternSet) (relative : Path) : Bool :=
  patterns.isMatch relative.text && !ignore.isMatch relative.text &&
    (s.includePackages || !isPackagePath relative)

/-- The files that are scanned among those that a walk came upon, each once and in order. -/
def select (s : Scan) (walked : List Path) : Except ScanError (List Path) :=
  if s.patterns.isEmpty then .error .noPattern
  else
    match Glob.PatternSet.ofPatterns s.patterns with
    | .error e => .error (.badPattern e)
    | .ok patterns =>
      match Glob.PatternSet.ofPatterns s.ignore with
      | .error e => .error (.badPattern e)
      | .ok ignore =>
        let kept := walked.filter fun p => s.keeps patterns ignore ((p.relativeTo? s.base).getD p)
        .ok ((Path.distinct kept).mergeSort Path.le)

/-- What a walk comes upon. -/
inductive Entry where
  | unreadable (cause : String)
  /-- A directory, or whatever else is no file. -/
  | other (p : Path)
  | file (p : Path)
  deriving DecidableEq, Repr

def Entry.file? : Entry → Option Path
  | .file p => some p
  | _ => none

/-- The files that are scanned among all that a walk came upon. -/
def collect (s : Scan) (walked : List Entry) : Except ScanError (List Path) :=
  s.select (walked.filterMap Entry.file?)

/-- What names lead to from the base. -/
def below (s : Scan) (names : Location) : Path := names.foldl (·.join ⟨·⟩) s.base

/-- The files below the base, as a walk comes upon them. A directory whose path is too long is not
looked into. -/
def walk (s : Scan) (t : FileTree) : List Path :=
  match t.node s.base with
  | .error _ => []
  | .ok (base, _) =>
    ((Ignore.visibleFiles t base).filter fun names => !(s.below names.dropLast).isTooLong).map s.below

def files (s : Scan) (t : FileTree) : Except ScanError (List Path) :=
  s.collect ((s.walk t).map .file)

theorem collect_file (s : Scan) (walked : List Path) : s.collect (walked.map .file) = s.select walked := by
  rw [collect, List.filterMap_map]
  exact congrArg s.select List.filterMap_some

theorem files_eq_select (s : Scan) (t : FileTree) : s.files t = s.select (s.walk t) := s.collect_file _

end Scan

/-- The texts of files, each with a line end behind it. -/
def readContent (t : FileTree) : List Path → Except ScanError String
  | [] => .ok ""
  | p :: ps =>
    match t.readText p with
    | .error e => .error (.unreadable p e)
    | .ok text => (readContent t ps).map fun rest => text ++ "\n" ++ rest

end UtilityCss
