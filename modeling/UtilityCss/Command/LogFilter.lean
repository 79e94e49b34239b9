import UtilityCss.Log
import UtilityCss.Text.Blank
import UtilityCss.Text.ControlSequence
import UtilityCss.Text.Search

/-! Which lines of the log are shown. A filter is a list of directives, `level` or `part=level`. -/
namespace UtilityCss.LogFilter

/-- The part of the program that writes the log. -/
def ownPart : String := "iconforge"

/-- The rank of a named level; rank 0 shows nothing. -/
def rank? (name : String) : Option Nat :=
  match String.ofList (name.toList.map Char.toLower) with
  | "off" => some 0
  | "error" => some 1
  | "warn" => some 2
  | "info" => some 3
  | "debug" => some 4
  | "trace" => some 5
  | _ => none

/-- A directive: the start of the names of the parts that it concerns, and the rank up to which
their lines are shown. -/
def directive? (s : List Char) : Option (String × Nat) :=
  match Text.cutAt? '=' s with
  | none =>
    let name := String.ofList (Text.trim s)
    if name.isEmpty then none
    else some ((rank? name).elim (name, 5) fun r => ("", r))
  | some (part, level) =>
    let name := String.ofList (Text.trim part)
    (rank? (String.ofList (Text.trim level))).map (name, ·)

/-- The rank up to which a filter shows lines: the directive with the longest fitting name counts,
and of two with the same name the last. Without a directive only errors are shown. -/
def shownRank (filter : String) : Nat :=
  let directives := (Text.pieces ',' filter.toList).filterMap directive?
  if directives.isEmpty then 1
  else
    let fitting := directives.filter fun (part, _) => Text.startsWith part ownPart
    (fitting.foldl (fun (best : String × Nat) d => if best.1.length ≤ d.1.length then d else best)
      ("", 0)).2

/-- A message as it is shown: plain, and indented behind its first line. -/
def shownMessage (message : String) : String :=
  Text.withoutControls
    (String.ofList (message.toList.flatMap fun c => if c = '\n' then "\n    ".toList else [c]))

/-- The lines that are shown; without a filter, those up to `info`. -/
def shown (filter : Option String) (log : Log) : Log :=
  let rank := filter.elim LogLevel.info.rank shownRank
  (log.filter fun l => l.level.rank ≤ rank).map fun l => { l with message := shownMessage l.message }

/-- How a line is shown: its level, filled up to five characters, and the part that wrote it. -/
def line (l : LogLine) : String :=
  "[" ++ String.ofList (l.level.name.toList.rightpad 5 ' ') ++ " " ++ ownPart ++ "] " ++ l.message

end UtilityCss.LogFilter
