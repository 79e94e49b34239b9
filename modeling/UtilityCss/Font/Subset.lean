import UtilityCss.Log
import UtilityCss.Metadata

/-! The icon font, cut down to the glyphs in use. Whatever goes wrong, the full font is kept. -/
namespace UtilityCss.Font

/-! ## Code points, as declarations write them: `content: '\e900'` -/

/-- The digits of a code point whose declaration starts `s`. -/
def digits? (s : List Char) : Option (List Char) := do
  let rest ← Text.rest? "content:".toList s
  let rest ← Text.rest? "'\\".toList (Text.trimStart rest)
  let digits := rest.takeWhile Text.isHexDigit
  if digits.isEmpty || (rest.dropWhile Text.isHexDigit).head? ≠ some '\'' then none
  else some digits

/-- The digits of the leftmost code point in `s`. -/
def firstDigits? (s : List Char) : Option (List Char) :=
  match digits? s with
  | some digits => some digits
  | none =>
    match s with
    | [] => none
    | _ :: rest => firstDigits? rest

/-- The character of the leftmost code point, if there is one and it has a character. -/
def codePoint? (declarations : String) : Option Char :=
  (firstDigits? declarations.toList).bind fun digits => Text.scalar? (Text.hexValue digits)

/-! ## Subsets -/

/-- The container that a subset is written in. -/
inductive Format where
  | woff2
  deriving DecidableEq, Repr

/-- What a subsetter is asked for: the glyphs of every character of a text. -/
structure Request where
  text : String
  format : Format := .woff2
  deriving DecidableEq, Repr

/-- The distinct characters of the request, ascending. -/
def Request.chars (r : Request) : List Char :=
  r.text.toList.eraseDups.mergeSort fun a b => decide (a ≤ b)

/-- Makes a font with no more than the requested glyphs, or says why it cannot. -/
abbrev Subsetter := ByteArray → Request → Except String ByteArray

inductive Outcome where
  | subsetted (fullSize subsetSize : Nat)
  | noIcons
  | fallback (reason : String)
  deriving DecidableEq, Repr

/-- How much smaller the subset is, in percent; a font without bytes has no answer. -/
def Outcome.reduction? : Outcome → Option Float
  | subsetted fullSize subsetSize =>
    if fullSize = 0 then none
    else
      let full := Float.ofNat fullSize
      some ((full - Float.ofNat subsetSize) / full * 100)
  | _ => none

/-- The character of an icon class with a readable code point. -/
def glyph? (m : Metadata) (base : String) : Option Char := do
  guard (Text.startsWith "if-" base)
  let source ← m.icon? base
  codePoint? (← source.declarations)

/-- One character for each used icon class with a readable code point, in the order of `used`. -/
def iconText (m : Metadata) (used : List String) : String := String.ofList (used.filterMap (glyph? m))

/-- The font to write, and what led to it. -/
structure Subset where
  bytes : ByteArray
  outcome : Outcome
  /-- What the subsetter was asked for, if it was. -/
  request : Option Request := none
  log : Log := []

/-- Keeps the full font. -/
def fallback (font : ByteArray) (request : Request) (reason : String) : Subset where
  bytes := font
  outcome := .fallback reason
  request := some request
  log := [.warn ("Error during font subsetting: " ++ reason)]

/-- What comes of the answer to a request. A subset without bytes is no font. -/
def ofAnswer (font : ByteArray) (request : Request) : Except String ByteArray → Subset
  | .error reason => fallback font request reason
  | .ok bytes =>
    if bytes.isEmpty then fallback font request "subsetter returned an empty font"
    else { bytes, outcome := .subsetted font.size bytes.size, request := some request }

/-- A subsetter whose answers may depend on all that it was asked before. -/
abbrev Service (σ : Type) := ByteArray → Request → σ → Except String ByteArray × σ

/-- Cuts `font` down to the glyphs of the used icons. The service is asked once, and only if there is
a glyph to keep. -/
def subsetWith {σ : Type} (service : Service σ) (font : ByteArray) (m : Metadata) (used : List String)
    (s : σ) : Subset × σ :=
  let text := iconText m used
  if text.isEmpty then
    ({ bytes := font, outcome := .noIcons,
       log := [.info "No icons to subset, copying full font..."] }, s)
  else
    let request : Request := { text }
    let (answer, s) := service font request s
    (ofAnswer font request answer, s)

/-- Cuts `font` down with a subsetter that answers the same request in the same way. -/
def subset (font : ByteArray) (m : Metadata) (used : List String) (subsetter : Subsetter) : Subset :=
  (subsetWith (fun font request s => (subsetter font request, s)) font m used ()).1

/-- The first bytes of a compressed font. -/
def isCompressed (font : ByteArray) : Bool :=
  (font.extract 0 4).data == "wOFF".toUTF8.data || (font.extract 0 4).data == "wOF2".toUTF8.data

/-- A subsetter without support for any container: it asks for the full font to be kept. -/
def unsupported : Subsetter := fun font _ =>
  if isCompressed font then .error "failed to decompress font: unsupported container"
  else .error "failed to subset font: unsupported container"

end UtilityCss.Font
