import UtilityCss.Declarations
import UtilityCss.Json.Reader

/-! The metadata of icons and styles: two JSON documents that say what a base class stands for.

An entry is a rule text, or an object that holds one; all other entries are dropped. An icon is kept
without declarations, a style only if it has declarations or keyframes. -/
namespace UtilityCss

/-- The two documents. -/
inductive Document where
  | icons | styles
  deriving DecidableEq, Repr

namespace Document

/-- What the entries of the document describe. -/
def noun : Document → String
  | icons => "icon"
  | styles => "style"

def fileName : Document → String
  | icons => "iconforge-icons.json"
  | styles => "iconforge-styles.json"

end Document

inductive MetadataError where
  | unreadable (d : Document) (path cause : String)
  | malformed (d : Document) (fault : Json.Fault)
  deriving DecidableEq, Repr

def MetadataError.message : MetadataError → String
  | unreadable d path cause => "failed to read " ++ d.noun ++ " metadata " ++ path ++ ": " ++ cause
  | malformed d fault => "failed to parse " ++ d.noun ++ " metadata: " ++ fault.message

/-- What a base class stands for. -/
structure RuleSource where
  declarations : Option String := none
  keyframes : Option String := none
  deriving DecidableEq, Repr

/-- Rule sources by base class. -/
structure Metadata where
  icons : List (String × RuleSource) := []
  styles : List (String × RuleSource) := []
  deriving DecidableEq, Repr

namespace Metadata

/-- A field that may be missing, null or a text, but not written twice and nothing else. -/
def textField? (name : String) (members : List (String × Json)) : Option (Option String) :=
  match members.filter (·.1 == name) with
  | [] => some none
  | [(_, .null)] => some none
  | [(_, .string s)] => some (some s)
  | _ => none

/-- The rule text of an icon entry. -/
def iconRule? : Json → Option String
  | .string rule => some rule
  | .object members => (textField? "value" members).join
  | _ => none

/-- The rule text and the keyframes of a style entry. -/
def styleRule? : Json → Option (Option String × Option String)
  | .string rule => some (some rule, none)
  | .object members => do
    let rule ← textField? "class" members
    let keyframes ← textField? "keyframes" members
    some (rule, keyframes)
  | _ => none

def iconSource? (entry : Json) : Option RuleSource :=
  (iconRule? entry).map fun rule => { declarations := Declarations.ofRule? rule }

def styleSource? (entry : Json) : Option RuleSource := do
  let (rule, keyframes) ← styleRule? entry
  let source : RuleSource :=
    { declarations := rule.bind Declarations.ofRule?
      keyframes := keyframes.filter fun k => !(Text.trim k.toList).isEmpty }
  if source.declarations.isNone && source.keyframes.isNone then none else some source

/-- Keeps the last of the entries that share a key. -/
def lastOfEach {α : Type} : List (String × α) → List (String × α)
  | [] => []
  | e :: es => if es.any (·.1 == e.1) then lastOfEach es else e :: lastOfEach es

/-- The sources of a document; an entry that is no source hides earlier ones of its key. -/
def sources (source? : Json → Option RuleSource) (members : List (String × Json)) :
    List (String × RuleSource) :=
  (lastOfEach members).filterMap fun (key, entry) => (source? entry).map (key, ·)

/-- Reads both documents. A fault of the icon document is reported first. -/
def ofJson (icons styles : String) : Except MetadataError Metadata :=
  match Json.readObject icons with
  | .error e => .error (.malformed .icons e)
  | .ok is =>
    match Json.readObject styles with
    | .error e => .error (.malformed .styles e)
    | .ok ss => .ok { icons := sources iconSource? is, styles := sources styleSource? ss }

def icon? (m : Metadata) (base : String) : Option RuleSource := m.icons.lookup base

def style? (m : Metadata) (base : String) : Option RuleSource := m.styles.lookup base

def isEmpty (m : Metadata) : Bool := m.icons.isEmpty && m.styles.isEmpty

end Metadata
end UtilityCss
