import UtilityCss.Text.Blank
import UtilityCss.Text.Search

/-! The declarations of a rule: its first brace pair that holds something. -/
namespace UtilityCss.Declarations

/-- The trimmed text, unless nothing is left. -/
def nonBlank? (s : List Char) : Option (List Char) :=
  let t := Text.trim s
  if t.isEmpty then none else some t

/-- The body of the first brace pair with at least one character in it. Pairs do not nest: a body
ends at the next closing brace. -/
def body? : List Char → Option (List Char)
  | [] => none
  | c :: rest =>
    if c = '\x7b' then
      match Text.cutAt? '\x7d' rest with
      | none => none
      | some ([], _) => body? rest
      | some (body, _) => some body
    else body? rest

/-- The declarations of `rule`; a rule without an opening brace is a bare declaration list. -/
def ofRule? (rule : String) : Option String :=
  let s := rule.toList
  let text? := if s.contains '\x7b' then body? s else some s
  (text?.bind nonBlank?).map String.ofList

end UtilityCss.Declarations
