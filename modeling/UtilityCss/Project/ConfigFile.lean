import UtilityCss.Files.Tree
import UtilityCss.Log
import UtilityCss.Project.Config
import UtilityCss.Toml.Document

/-! The configuration file. -/
namespace UtilityCss

/-- Why a text is no configuration. -/
inductive ConfigFault where
  | malformed (fault : Toml.Fault)
  | wrongType (key : String)
  /-- One field under both of its names. -/
  | duplicateField (key : String)
  deriving DecidableEq, Repr

def ConfigFault.message : ConfigFault → String
  | malformed fault => fault.message
  | wrongType key => "wrong type for " ++ key
  | duplicateField key => "duplicate field " ++ key

namespace Config

def text? : Toml.Item → Option String
  | .value (.string s) => some s
  | _ => none

def texts? : Toml.Item → Option (List String)
  | .value (.array vs) => vs.mapM fun v => text? (.value v)
  | _ => none

/-- Sets a field from a key; a key that names no field is passed over. -/
def set? (c : Config) (key : String) (item : Toml.Item) : Option Config :=
  match key with
  | "content" => (texts? item).map ({ c with content := · })
  | "safelist" => (texts? item).map ({ c with safelist := · })
  | "custom_css" | "customCSS" => (texts? item).map ({ c with customCss := ·.map Path.mk })
  | "output_dir" => (text? item).map ({ c with outputDir := ⟨·⟩ })
  | "meta_dir" => (text? item).map ({ c with metaDir := ⟨·⟩ })
  | "font" => (text? item).map ({ c with font := ⟨·⟩ })
  | "font_family" => (text? item).map ({ c with fontFamily := · })
  | _ => some c

def setAll (c : Config) : List (String × Toml.Item) → Except ConfigFault Config
  | [] => .ok c
  | (key, item) :: items =>
    match c.set? key item with
    | none => .error (.wrongType key)
    | some c => c.setAll items

/-- Reads a configuration; fields that the text does not set keep their defaults. -/
def ofToml (text : String) : Except ConfigFault Config :=
  match Toml.read text with
  | .error fault => .error (.malformed fault)
  | .ok t =>
    if (t.get? "custom_css").isSome && (t.get? "customCSS").isSome then
      .error (.duplicateField "custom_css")
    else setAll {} t.items

/-- The lines of a new configuration file; they set nothing but defaults. -/
def defaultLines : List String := [
  "# iconforge configuration",
  "",
  "# Files scanned for class=\"...\" and className=\"...\" attributes.",
  "content = [\"**/*.\x7bhtml,js,ts,vue,jsx,tsx\x7d\"]",
  "",
  "# Classes generated dynamically and not found by the scanner.",
  "safelist = []",
  "",
  "# Stylesheets appended verbatim to the generated CSS.",
  "custom_css = []",
  "",
  "# output_dir = \"iconforge-output\"",
  "# meta_dir = \"dist/meta\"",
  "# font = \"dist/iconforge.woff2\"",
  "# font_family = \"IconForge\""]

def defaultText : String := String.join (defaultLines.map (· ++ "\n"))

end Config

inductive ConfigError where
  | unreadable (path : Path) (e : FileError)
  | malformed (path : Path) (fault : ConfigFault)
  | unwritable (path : Path) (e : FileError)
  deriving DecidableEq, Repr

def ConfigError.message : ConfigError → String
  | unreadable path e => "failed to read config " ++ path.text ++ ": " ++ e.message
  | malformed path fault => "failed to parse config " ++ path.text ++ ": " ++ fault.message
  | unwritable path e => "failed to write config " ++ path.text ++ ": " ++ e.message

namespace Config

def load (t : FileTree) (path : Path) : Except ConfigError Config :=
  match t.readText path with
  | .error e => .error (.unreadable path e)
  | .ok text =>
    match ofToml text with
    | .error fault => .error (.malformed path fault)
    | .ok c => .ok c

/-- Without a file, every field keeps its default. -/
def loadOrDefault (t : FileTree) (path : Path) : Except ConfigError Config :=
  if t.exists? path then load t path else .ok {}

/-- A configuration that cannot be read is replaced by the defaults, with a warning. -/
def loadLeniently (t : FileTree) (path : Path) : Config × Log :=
  match loadOrDefault t path with
  | .ok c => (c, [])
  | .error e => ({}, [.warn (e.message ++ "; using defaults until it is fixed")])

/-- Writes a new configuration file, unless there is one; also returns whether it is new. -/
def writeDefault (t : FileTree) (path : Path) : Except ConfigError (FileTree × Bool) :=
  if t.exists? path then .ok (t, false)
  else
    match t.write path defaultText.toUTF8 with
    | .error e => .error (.unwritable path e)
    | .ok t => .ok (t, true)

end Config
end UtilityCss
