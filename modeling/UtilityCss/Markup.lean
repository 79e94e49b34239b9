import UtilityCss.Text.Blank
import UtilityCss.Variant

/-! Class attributes in a source text: `class` or `className`, an equals sign, and a quoted value.

The scan goes from left to right; it takes the leftmost attribute and goes on behind its closing
quote. Any of the three quotes opens a value, and any of them closes it. -/
namespace UtilityCss.Markup

def isQuote (c : Char) : Bool := c = '"' || c = '\'' || c = '\x60'

/-- What follows the opening quote of an attribute whose keyword, already read, ends before `s`. -/
def opened? (s : List Char) : Option (List Char) :=
  match Text.trimStart s with
  | '=' :: rest =>
    match Text.trimStart rest with
    | q :: body => if isQuote q then some body else none
    | [] => none
  | _ => none

/-- The value of the attribute that starts `s`, and what follows its closing quote. -/
def attribute? (s : List Char) : Option (List Char × List Char) := do
  let rest ← Text.rest? "class".toList s
  let body ← opened? rest <|> (Text.rest? "Name".toList rest).bind opened?
  match body.dropWhile (!isQuote ·) with
  | [] => none
  | _ :: after => some (body.takeWhile (!isQuote ·), after)

theorem opened?_length {s body : List Char} (h : opened? s = some body) :
    body.length < s.length := by
  unfold opened? at h
  split at h
  · rename_i rest hs
    have h₁ := Text.length_of_dropWhile hs
    split at h
    · rename_i q b hr
      have h₂ := Text.length_of_dropWhile hr
      split at h
      · cases h
        omega
      · simp at h
    · simp at h
  · simp at h

theorem attribute?_length {s value after : List Char} (h : attribute? s = some (value, after)) :
    after.length < s.length := by
  simp only [attribute?, bind, Option.bind_eq_some_iff] at h
  obtain ⟨rest, hrest, body, hbody, h⟩ := h
  have hlen := Text.rest?_length hrest
  have hb : body.length < rest.length := by
    cases ho : opened? rest with
    | some b =>
      simp only [ho, Option.orElse_eq_orElse, Option.orElse_some, Option.some.injEq] at hbody
      subst hbody
      exact opened?_length ho
    | none =>
      simp only [ho, Option.orElse_eq_orElse, Option.orElse_none, Option.bind_eq_some_iff] at hbody
      obtain ⟨r', hr', hb'⟩ := hbody
      have h₁ := opened?_length hb'
      have := Text.rest?_length hr'
      omega
  split at h
  · simp at h
  · rename_i q a hd
    simp only [Option.some.injEq, Prod.mk.injEq] at h
    have h₃ := h.2 ▸ Text.length_of_dropWhile hd
    omega

/-- The values of the attributes in `s`, in order. -/
def values (s : List Char) : List (List Char) :=
  match _h : attribute? s with
  | some (value, after) => value :: values after
  | none =>
    match s with
    | [] => []
    | _ :: rest => values rest
termination_by s.length
decreasing_by
  · exact attribute?_length _h
  · simp

/-- Every word inside a class attribute, in order of appearance. -/
def tokens (text : String) : List String :=
  (values text.toList).flatMap fun v => (Text.words v).map String.ofList

/-- The distinct tokens with an eligible base, in order of first appearance. -/
def classes (text : String) : List String :=
  ((tokens text).filter fun t => isEligible (baseOf t)).eraseDups

end UtilityCss.Markup
