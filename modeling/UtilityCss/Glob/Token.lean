/-! Glob patterns, taken apart. -/
namespace UtilityCss.Glob

/-- One part of a pattern. -/
inductive Token where
  | literal (c : Char)
  /-- A question mark. -/
  | any
  /-- A star. -/
  | many
  /-- Two stars before the first slash: any directories, or none. -/
  | deepStart
  /-- Two stars behind the last slash: everything below. -/
  | deepEnd
  /-- Two stars between two slashes: any directories, or none. -/
  | deepMiddle
  /-- Brackets: one byte in, or not in, one of the ranges. -/
  | set (negated : Bool) (ranges : List (Char × Char))
  /-- Braces: one of the branches. -/
  | alternates (branches : List (List Token))

/-- Why a text is no pattern. -/
inductive Fault where
  | unclosedSet
  | invalidRange (first last : Char)
  | unopenedGroup
  | unclosedGroup
  | danglingEscape
  deriving DecidableEq, Repr

def Fault.message : Fault → String
  | unclosedSet => "unclosed character class; missing ']'"
  | invalidRange first last =>
    "invalid range; '" ++ first.toString ++ "' > '" ++ last.toString ++ "'"
  | unopenedGroup => "unopened alternate group; missing '\x7b' (maybe escape '\x7d' with '[\x7d]'?)"
  | unclosedGroup => "unclosed alternate group; missing '\x7d' (maybe escape '\x7b' with '[\x7b]'?)"
  | danglingEscape => "dangling '\\'"

/-- How patterns are matched. -/
structure Options where
  /-- Whether `?` and `*` stop at a slash. -/
  separate : Bool := false

end UtilityCss.Glob
