/-! Control characters and control sequences, and the text that is left without them.

A sequence starts with an escape character; what follows it tells the kind of the sequence and thus
where it ends. -/
namespace UtilityCss.Text

/-- Where in a control sequence a text stands. -/
inductive ControlState where
  | ground
  | escape
  /-- An escape sequence of more than two characters. -/
  | intermediate
  /-- `ESC [`: parameters and a final letter. -/
  | parameters
  /-- `ESC ]`: a command up to a bell. -/
  | command
  /-- `ESC P`: parameters and a letter, then a string. -/
  | device
  | string
  deriving DecidableEq, Repr

namespace ControlState

/-- The state behind a character that is not shown. -/
def next (s : ControlState) (c : Char) : ControlState :=
  let within (first last : Nat) : Bool := first ≤ c.toNat && c.toNat ≤ last
  if c = '\x18' || c = '\x1a' then .ground
  else if c = '\x1b' then .escape
  else
    match s with
    | .ground => .ground
    | .escape =>
      if c = '[' then .parameters
      else if c = ']' then .command
      else if c = 'P' then .device
      else if ['X', '^', '_'].contains c then .string
      else if within 0x20 0x2F then .intermediate
      else if within 0x30 0x7E then .ground
      else .escape
    | .intermediate => if within 0x30 0x7E then .ground else .intermediate
    | .parameters => if within 0x40 0x7E then .ground else .parameters
    | .command => if c = '\x07' then .ground else .command
    | .device => if within 0x40 0x7E then .string else .device
    | .string => if (String.utf8EncodeChar c).contains 0x9C then .ground else .string

end ControlState

/-- Blanks that move on in a line or to another one. -/
def isLayout (c : Char) : Bool := ['\t', '\n', '\x0c', '\r'].contains c

/-- Whether a character has a place in plain text. -/
def isPlain (c : Char) : Bool := isLayout c || (0x20 ≤ c.toNat && c.toNat ≠ 0x7F)

/-- Whether a character is shown. Once one is, `showing` holds and all plain ones behind it are shown
too; a sequence that a blank interrupted goes on at the next character that is not plain. -/
def ControlState.shows (s : ControlState) (showing : Bool) (c : Char) : Bool :=
  isPlain c && (showing || s = .ground ||
    (isLayout c && [.escape, .intermediate, .parameters].contains s))

/-- The part of a text that is shown. -/
def plain (s : ControlState) (showing : Bool) : List Char → List Char
  | [] => []
  | c :: cs =>
    if s.shows showing c then c :: plain (if c.toNat < 0x80 then s else .ground) true cs
    else plain (s.next c) false cs

/-- A text without its control characters and control sequences. -/
def withoutControls (text : String) : String := String.ofList (plain .ground false text.toList)

end UtilityCss.Text
