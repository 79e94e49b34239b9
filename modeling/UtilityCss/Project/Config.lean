import UtilityCss.Glob.PatternSet
import UtilityCss.Path

/-! The configuration of a project. Relative paths count from the project's directory. -/
namespace UtilityCss

/-- The pattern of the files that are scanned unless the configuration names others. -/
def defaultGlob : String := "**/*.\x7bhtml,js,ts,vue,jsx,tsx\x7d"

structure Config where
  /-- Patterns of the files that are scanned. -/
  content : List String := [defaultGlob]
  /-- Classes that get rules without being found in a file. -/
  safelist : List String := []
  /-- Stylesheets that are appended as they are. -/
  customCss : List Path := []
  outputDir : Path := ⟨"iconforge-output"⟩
  metaDir : Path := ⟨"dist/meta"⟩
  font : Path := ⟨"dist/iconforge.woff2"⟩
  fontFamily : String := "IconForge"
  deriving DecidableEq, Repr

namespace Config

def fileName : String := "iconforge.toml"
def cssName : String := "iconforge.css"
def fontName : String := "iconforge.woff2"

def cssPath (c : Config) : Path := c.outputDir.join ⟨cssName⟩

def fontPath (c : Config) : Path := c.outputDir.join ⟨fontName⟩

/-- An empty list of patterns counts as none at all. -/
def contentGlobs (c : Config) : List String := if c.content.isEmpty then [defaultGlob] else c.content

/-- A pattern from the command line takes the place of the configured ones. -/
def globsFor (c : Config) (glob : Option String) : List String := glob.elim c.contentGlobs ([·])

/-- Paths are compared by what they denote. -/
def same (c d : Config) : Bool :=
  c.content == d.content && c.safelist == d.safelist &&
    c.customCss.map Path.components == d.customCss.map Path.components &&
    c.outputDir.same d.outputDir && c.metaDir.same d.metaDir && c.font.same d.font &&
    c.fontFamily == d.fontFamily

def isDefault (c : Config) : Bool := c.same {}

/-- Patterns of the generated files, which must not be scanned. An absolute directory has none, and
neither has the project's own directory. -/
def outputIgnores (outputDir : Path) : List String :=
  if outputDir.isAbsolute then []
  else
    let trimmed := (outputDir.text.toList.reverse.dropWhile (· = '/')).reverse
    let dir := Glob.dropHere trimmed
    if dir = [] ∨ dir = ['.'] then [] else [String.ofList dir ++ "/**"]

end Config

/-- Whether a relative path lies in a package directory, which is never scanned. -/
def isPackagePath (p : Path) : Bool := p.hasName "node_modules"

end UtilityCss
