import UtilityCss.Text.Search

/-! Classes with a value of their own, `is-<keyword>-[<value>]`, and the declarations they stand for. -/
namespace UtilityCss.Arbitrary

/-- One piece of a declaration text. -/
inductive Piece where
  | text (s : String)
  /-- The value as written. -/
  | value
  /-- The value with a backslash before each double quote. -/
  | quoted
  /-- The value with a space for each underscore. -/
  | spaced
  deriving DecidableEq, Repr

/-- The declarations of a keyword, with holes for the value. -/
abbrev Template := List Piece

/-- Puts a backslash before a double quote. -/
def quoteChar (c : Char) : List Char := if c = '"' then ['\\', '"'] else [c]

namespace Piece

def fill (value : String) : Piece → String
  | text s => s
  | .value => value
  | quoted => String.ofList (value.toList.flatMap quoteChar)
  | spaced => String.ofList (value.toList.map fun c => if c = '_' then ' ' else c)

end Piece

namespace Template

def fill (t : Template) (value : String) : String := String.join (t.map (Piece.fill value))

/-- Each property set to the value. -/
def properties (names : List String) : Template :=
  match names with
  | [] => []
  | [p] => [.text (p ++ ": "), .value, .text ";"]
  | p :: ps => [.text (p ++ ": "), .value, .text "; "] ++ properties ps

/-- A property set to a function of the value. -/
def function (property name : String) : Template :=
  [.text (property ++ ": " ++ name ++ "("), .value, .text ");"]

/-- The width of one side, drawn solid. -/
def border (property : String) : Template :=
  [.text (property ++ ": "), .value, .text "; border-style: solid;"]

/-- An outline of the given width and line. -/
def outline (line : String) : Template := [.text ("outline: " ++ line ++ " "), .value, .text ";"]

/-- Equal tracks, as many as the value says. -/
def tracks (property : String) : Template :=
  [.text (property ++ ": repeat("), .value, .text ", minmax(0, 1fr));"]

/-- A gradient that shows through the text. -/
def gradient (name : String) : Template :=
  [.text ("background-image: " ++ name ++ "("), .spaced,
    .text "); color: transparent; -webkit-background-clip: text; background-clip: text;"]

end Template

open Template in
/-- The keywords and their templates. -/
def templates : List (String × Template) := [
  ("color", properties ["color"]),
  ("bg", properties ["background-color"]),
  ("w", properties ["width"]),
  ("h", properties ["height"]),
  ("sq", properties ["width", "height"]),
  ("size", properties ["font-size"]),
  ("p", properties ["padding"]),
  ("pt", properties ["padding-top"]),
  ("pr", properties ["padding-right"]),
  ("pb", properties ["padding-bottom"]),
  ("pl", properties ["padding-left"]),
  ("px", properties ["padding-left", "padding-right"]),
  ("py", properties ["padding-top", "padding-bottom"]),
  ("m", properties ["margin"]),
  ("mt", properties ["margin-top"]),
  ("mr", properties ["margin-right"]),
  ("mb", properties ["margin-bottom"]),
  ("ml", properties ["margin-left"]),
  ("mx", properties ["margin-left", "margin-right"]),
  ("my", properties ["margin-top", "margin-bottom"]),
  ("z", properties ["z-index"]),
  ("scale", function "transform" "scale"),
  ("opacity", properties ["opacity"]),
  ("rot", function "transform" "rotate"),
  ("grid-cols", tracks "grid-template-columns"),
  ("grid-rows", tracks "grid-template-rows"),
  ("gap", properties ["gap"]),
  ("top", properties ["top"]),
  ("bottom", properties ["bottom"]),
  ("left", properties ["left"]),
  ("right", properties ["right"]),
  ("translate", [.text "transform: translate(", .value, .text ", ", .value, .text ");"]),
  ("translate-x", function "transform" "translateX"),
  ("translate-y", function "transform" "translateY"),
  ("border", [.text "border-width: ", .value, .text " ", .value, .text " ", .value, .text " ",
    .value, .text "; border-style: solid;"]),
  ("border-t", border "border-top-width"),
  ("border-b", border "border-bottom-width"),
  ("border-l", border "border-left-width"),
  ("border-r", border "border-right-width"),
  ("outline", outline "1px solid"),
  ("outline-dashed", outline "1px dashed"),
  ("outline-dotted", outline "1px dotted"),
  ("outline-double", outline "2px solid"),
  ("blur", function "filter" "blur"),
  ("backdrop-blur", function "backdrop-filter" "blur"),
  ("brightness", function "filter" "brightness"),
  ("contrast", function "filter" "contrast"),
  ("grayscale", function "filter" "grayscale"),
  ("saturate", function "filter" "saturate"),
  ("fixed-bg", [.text ("position: fixed; top: 0; left: 0; width: 100dvw; height: 100dvh; " ++
    "z-index: -1; background-repeat: no-repeat; background-size: cover; " ++
    "background-image: url(\""), .quoted, .text "\");"]),
  ("gradient-linear", gradient "linear-gradient"),
  ("gradient-radial", gradient "radial-gradient"),
  ("gradient-conic", gradient "conic-gradient")]

/-- The declarations of a keyword for a value, `none` if there is no such keyword. -/
def declarations? (keyword value : String) : Option String :=
  (templates.lookup keyword).map (·.fill value)

/-- Takes `last` off the end of `s`. -/
def dropLast? (last : Char) (s : List Char) : Option (List Char) :=
  if s.getLast? = some last then some s.dropLast else none

/-- The keyword and the value of `is-<keyword>-[<value>]`; the value begins at the first bracket. -/
def split? (base : String) : Option (String × String) := do
  let rest ← Text.rest? "is-".toList base.toList
  let (before, after) ← Text.cutAt? '[' rest
  let keyword ← dropLast? '-' before
  let value ← dropLast? ']' after
  if keyword.isEmpty || value.isEmpty then none
  else some (String.ofList keyword, String.ofList value)

/-- The declarations that `base` stands for, if it has the form and a known keyword. -/
def declarationsOf? (base : String) : Option String := do
  let (keyword, value) ← split? base
  declarations? keyword value

end UtilityCss.Arbitrary
