import UtilityCss.Command.Arguments
import UtilityCss.Command.LogFilter
import UtilityCss.Watch.Loop

/-! Running a command. -/
namespace UtilityCss

inductive RunError where
  | noDirectory (e : FileError)
  | config (e : ConfigError)
  | build (e : BuildError)
  | watch (e : Watch.WatchError)
  deriving DecidableEq, Repr

def RunError.message : RunError → String
  | noDirectory e => "failed to resolve current directory: " ++ e.message
  | config e => e.message
  | build e => e.message
  | watch e => e.message

/-- How a command ended, and the files afterwards. -/
structure Run where
  result : Except RunError Unit
  tree : FileTree
  log : Log
  /-- The watch that goes on, if there is one. -/
  watching : Option (Watch.Job × Watch.Loop) := none

namespace Run

def runInit (t : FileTree) (path : Path) : Run :=
  match Config.writeDefault t path with
  | .error e => { result := .error (.config e), tree := t, log := [] }
  | .ok (t, true) => { result := .ok (), tree := t, log := [.info ("created " ++ path.text)] }
  | .ok (t, false) =>
    { result := .ok (), tree := t
      log := [.info (path.text ++ " already exists, leaving it untouched")] }

def runBuild (t : FileTree) (root path : Path) (glob : Option String) (s : Font.Subsetter) : Run :=
  match Config.loadOrDefault t path with
  | .error e => { result := .error (.config e), tree := t, log := [] }
  | .ok config =>
    let run := Build.run { root, config, globs := config.globsFor glob, subsetter := s } t
    { result := run.result.map (fun _ => ()) |>.mapError .build, tree := run.tree, log := run.log }

/-- A watch that ended, or one that goes on. -/
def ofLoop (j : Watch.Job) (l : Watch.Loop) : Run :=
  match l.phase with
  | .ended e => { result := .error (.watch e), tree := l.tree, log := l.log }
  | .closed => { result := .ok (), tree := l.tree, log := l.log }
  | _ => { result := .ok (), tree := l.tree, log := l.log, watching := some (j, l) }

def job (root : Path) (i : Invocation) (glob : Option String) (s : Font.Subsetter) : Watch.Job :=
  { root, configPath := root.join ⟨i.config⟩, glob, subsetter := s }

/-- Runs a command in the directory `root`; without a command, it builds. -/
def run (t : FileTree) (root : Except FileError Path) (i : Invocation) (s : Font.Subsetter) : Run :=
  match root with
  | .error e => { result := .error (.noDirectory e), tree := t, log := [] }
  | .ok root =>
    let path := root.join ⟨i.config⟩
    match i.command.getD (.build none) with
    | .init => runInit t path
    | .build glob => runBuild t root path glob s
    | .watch glob => ofLoop (job root i glob s) (Watch.start (job root i glob s) t)

/-- The paths that a command may read, once the configuration is in the tree. -/
def sources (t : FileTree) (root : Path) (i : Invocation) : List Path :=
  let (config, _) := Config.loadLeniently t (root.join ⟨i.config⟩)
  let build (glob : Option String) : List Path :=
    Build.sources { root, config, globs := config.globsFor glob, subsetter := Font.unsupported } t
  match i.command with
  | none => build none
  | some .init => []
  | some (.build glob) | some (.watch glob) => build glob

end Run

/-- What a whole execution of the program shows. -/
structure Execution where
  code : Nat
  output : String := ""
  /-- The lines of the log that are shown. -/
  log : Log := []
  /-- What is said about arguments that cannot be read. -/
  complaint : Option String := none
  tree : FileTree
  watching : Option (Watch.Job × Watch.Loop) := none

namespace Execution

def versionText : String := "iconforge 0.1.0\n"

def helpLines : List String := [
  "Generate the icon and utility CSS a project uses",
  "",
  "Usage: iconforge [OPTIONS] [COMMAND]",
  "",
  "Commands:",
  "  init   Write a default iconforge.toml",
  "  build  Generate iconforge.css and iconforge.woff2 once",
  "  watch  Build, then rebuild whenever scanned files change",
  "  help   Print this message or the help of the given subcommand(s)",
  "",
  "Options:",
  "  -c, --config <CONFIG>  Configuration file [default: iconforge.toml]",
  "  -h, --help             Print help",
  "  -V, --version          Print version"]

def helpText : String := String.join (helpLines.map (· ++ "\n"))

def complaintText : UsageError → String
  | .invalidSubcommand => "error: unrecognized subcommand"
  | .unknownArgument => "error: unexpected argument"
  | .invalidValue => "error: a value is required for '--config <CONFIG>' but none was supplied"
  | .tooManyValues => "error: unexpected value"
  | .argumentConflict => "error: the argument '--config <CONFIG>' cannot be used multiple times"
  | .displayHelp | .displayVersion => ""

/-- What arguments come to that ask for no command. -/
def ofUsage (t : FileTree) : UsageError → Execution
  | .displayHelp => { code := 0, output := helpText, tree := t }
  | .displayVersion => { code := 0, output := versionText, tree := t }
  | e => { code := 2, complaint := some (complaintText e), tree := t }

/-- A command that ran; a failure is the last line of the log. -/
def ofRun (filter : Option String) (r : Run) : Execution :=
  match r.result with
  | .ok () =>
    { code := 0, log := LogFilter.shown filter r.log, tree := r.tree, watching := r.watching }
  | .error e =>
    { code := 1, log := LogFilter.shown filter (r.log ++ [.error e.message]), tree := r.tree }

/-- Executes the program with some arguments and a filter for its log. -/
def execute (t : FileTree) (root : Except FileError Path) (args : List String)
    (filter : Option String) (s : Font.Subsetter) : Execution :=
  match Arguments.read args with
  | .error e => ofUsage t e
  | .ok i => ofRun filter (Run.run t root i s)

end Execution
end UtilityCss
