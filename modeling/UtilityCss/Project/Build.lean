import UtilityCss.Font.Subset
import UtilityCss.Markup
import UtilityCss.Project.Scan
import UtilityCss.Stylesheet.Aggregator
import UtilityCss.Text.FixedPoint

/-! Building a project: the stylesheet and the icon font. Nothing is written before everything that
a build cannot do without was read. -/
namespace UtilityCss

/-- Reads both metadata documents of a directory, the icons first. -/
def Metadata.load (t : FileTree) (dir : Path) : Except MetadataError Metadata :=
  let document (d : Document) : Except MetadataError String :=
    let path := dir.join ⟨d.fileName⟩
    match t.readText path with
    | .error e => .error (.unreadable d path.text e.message)
    | .ok text => .ok text
  match document .icons with
  | .error e => .error e
  | .ok icons =>
    match document .styles with
    | .error e => .error e
    | .ok styles => Metadata.ofJson icons styles

inductive BuildError where
  | scan (e : ScanError)
  | metadata (e : MetadataError)
  | cannotCreate (path : Path) (e : FileError)
  | cannotWrite (path : Path) (e : FileError)
  deriving DecidableEq, Repr

def BuildError.message : BuildError → String
  | scan e => e.message
  | metadata e => e.message
  | cannotCreate path e => "failed to create " ++ path.text ++ ": " ++ e.message
  | cannotWrite path e => "failed to write " ++ path.text ++ ": " ++ e.message

/-- What to build. -/
structure Build where
  root : Path
  config : Config
  /-- Patterns of the files that are scanned. -/
  globs : List String
  subsetter : Font.Subsetter

/-- What a build made. -/
structure BuildReport where
  filesScanned : Nat
  tokens : Nat
  rules : Nat
  cssPath : Path
  /-- The font that was written and where, if there is a font. -/
  font : Option (Path × Font.Subset)

/-- How a build ended, and the files afterwards. -/
structure BuildRun where
  result : Except BuildError BuildReport
  tree : FileTree
  log : Log

namespace Build

def scan (b : Build) : Scan :=
  { base := b.root, patterns := b.globs, ignore := Config.outputIgnores b.config.outputDir }

/-- What a build reads before it writes. -/
structure Input where
  files : List Path
  content : String
  metadata : Metadata

/-- The paths that a build may read; to find the scanned files, only their names matter. -/
def sources (b : Build) (t : FileTree) : List Path :=
  (b.scan.files t).toOption.getD [] ++
    ([.icons, .styles] : List Document).map (fun d => (b.root.join b.config.metaDir).join ⟨d.fileName⟩) ++
    b.config.customCss.map b.root.join ++ [b.root.join b.config.font]

/-- The files and their texts. -/
def readFiles (b : Build) (t : FileTree) : Except ScanError (List Path × String) :=
  match b.scan.files t with
  | .error e => .error e
  | .ok files => (readContent t files).map (files, ·)

def scanned (files : List Path) : LogLine :=
  .debug ("scanned " ++ toString files.length ++ " files")

def input (b : Build) (t : FileTree) : Except BuildError Input × Log :=
  match b.readFiles t with
  | .error e => (.error (.scan e), [])
  | .ok (files, content) =>
    match Metadata.load t (b.root.join b.config.metaDir) with
    | .error e => (.error (.metadata e), [scanned files])
    | .ok metadata => (.ok { files, content, metadata }, [scanned files])

/-- The tokens of a build: those that the configuration names, then those that files use. -/
def tokens (b : Build) (i : Input) : List String :=
  (b.config.safelist ++ Markup.classes i.content).eraseDups

/-- The stylesheets that are appended; one that cannot be read is left out with a warning. -/
def customCss (b : Build) (t : FileTree) : List Path → String × Log
  | [] => ("", [])
  | file :: files =>
    let path := b.root.join file
    let (css, log) := b.customCss t files
    match t.readText path with
    | .ok text => (text ++ "\n" ++ css, log)
    | .error e =>
      (css, .warn ("Custom CSS file not found: " ++ path.text ++ " (" ++ e.message ++ ")") :: log)

/-- Everything that the stylesheet is made of. -/
structure Output where
  tokens : List String
  aggregator : Aggregator
  css : String
  log : Log

def output (b : Build) (t : FileTree) (i : Input) : Output :=
  let tokens := b.tokens i
  let (aggregator, _) := Aggregator.absorb i.metadata tokens {}
  let (custom, log) := b.customCss t b.config.customCss
  { tokens, aggregator
    css := preamble b.config.fontFamily Config.fontName ++ aggregator.stylesheet ++ custom
    log := (Aggregator.unresolved i.metadata tokens {}).map
      (fun t => .debug ("no rule for " ++ t.display)) ++ log }

/-- The line about a font that was written. -/
def fontWritten (path : Path) (s : Font.Subset) : LogLine :=
  match s.outcome, s.outcome.reduction? with
  | .subsetted fullSize subsetSize, some percent =>
    .info ("Font subsetted: " ++ path.text ++ " (" ++ toString fullSize ++ " -> " ++
      toString subsetSize ++ " bytes, " ++ Text.oneDecimal percent ++ "% smaller)")
  | _, _ => .info ("Font written: " ++ path.text)

/-- Cuts down and writes the font; without a font that can be read there is nothing to write. -/
def writeFont (b : Build) (t : FileTree) (m : Metadata) (used : List String) :
    Except BuildError (FileTree × Option (Path × Font.Subset)) × Log :=
  let source := b.root.join b.config.font
  let target := b.root.join b.config.fontPath
  match t.read source with
  | .error e =>
    (.ok (t, none), [.warn ("icon font " ++ source.text ++
      " unavailable, skipping font output: " ++ e.message)])
  | .ok font =>
    let s := Font.subset font m used b.subsetter
    match t.write target s.bytes with
    | .error e => (.error (.cannotWrite target e), s.log)
    | .ok t => (.ok (t, some (target, s)), s.log ++ [fontWritten target s])

def cssWritten (path : Path) (rules : Nat) : LogLine :=
  .info ("CSS generated: " ++ path.text ++ " (" ++ toString rules ++ " rules)")

/-- Builds a project. -/
def run (b : Build) (t : FileTree) : BuildRun :=
  match b.input t with
  | (.error e, log) => { result := .error e, tree := t, log }
  | (.ok i, log) =>
    let o := b.output t i
    let log := log ++ o.log
    let outputDir := b.root.join b.config.outputDir
    match t.makeDirs outputDir with
    | .error e =>
      { result := .error (.cannotCreate outputDir e), tree := t.makeDirsLeft outputDir, log }
    | .ok t =>
      let cssPath := b.root.join b.config.cssPath
      match t.write cssPath o.css.toUTF8 with
      | .error e => { result := .error (.cannotWrite cssPath e), tree := t, log }
      | .ok t =>
        let rules := o.aggregator.buckets.ruleCount
        let log := log ++ [cssWritten cssPath rules]
        match b.writeFont t i.metadata o.aggregator.usedIcons.toList with
        | (.error e, fontLog) => { result := .error e, tree := t, log := log ++ fontLog }
        | (.ok (t, font), fontLog) =>
          { result := .ok { filesScanned := i.files.length, tokens := o.tokens.length, rules,
                            cssPath, font }
            tree := t
            log := log ++ fontLog }

end Build
end UtilityCss
