import UtilityCss.Toml.Literal
import UtilityCss.Toml.Text

/-! Reading keys and values. -/
namespace UtilityCss.Toml

open Text (Rest length_of_dropWhile)

/-- A key; all parts of a dotted key but the last name tables. -/
structure Key where
  parents : List String := []
  name : String

def isBareChar (c : Char) : Bool := c.isAlphanum || c = '_' || c = '-'

theorem dropBare_length (c : Char) (s : List Char) :
    (s.dropWhile isBareChar).length < (c :: s).length :=
  Nat.lt_succ_of_le (List.dropWhile_sublist _).length_le

/-- The rest behind blanks and a character. -/
def behindSpace {s r : List Char} {c : Char} (h : skipSpace s = c :: r) : Rest s :=
  ⟨r, length_of_dropWhile h⟩

/-- A rest without the blanks in front of it. -/
def dropSpace {s : List Char} (r : Rest s) : Rest s :=
  ⟨skipSpace r.1, Nat.lt_of_le_of_lt (List.dropWhile_sublist _).length_le r.2⟩

/-- One part of a key. -/
def keyPart (s : List Char) : Except Fault (String × Rest s) :=
  match s with
  | [] => .error .unexpectedEnd
  | c :: r =>
    if c = '"' then (basicBody r).map fun (cs, rest) => (String.ofList cs, rest.behind c)
    else if c = '\'' then
      (literalBody r).map fun (cs, rest) => (String.ofList cs, rest.behind c)
    else if isBareChar c then
      .ok (String.ofList (c :: r.takeWhile isBareChar),
        ⟨r.dropWhile isBareChar, dropBare_length c r⟩)
    else .error (.unexpected c)

/-- The parts of a key, and the blanks around them. -/
def keyParts (s : List Char) : Except Fault (List String × Rest s) :=
  match keyPart (skipSpace s) with
  | .error e => .error e
  | .ok (part, first) =>
    match h : skipSpace first.1 with
    | '.' :: r =>
      match keyParts r with
      | .error e => .error e
      | .ok (parts, rest) =>
        let later : Rest first.1 := .within (r := behindSpace h) rest
        .ok (part :: parts, (Rest.within later).skipped)
    | _ => .ok ([part], (dropSpace first).skipped)
termination_by s.length
decreasing_by
  have h₁ : (skipSpace s).length ≤ s.length := (List.dropWhile_sublist _).length_le
  have h₂ := length_of_dropWhile h
  have := first.2
  omega

def key (s : List Char) : Except Fault (Key × Rest s) :=
  match keyParts s with
  | .error e => .error e
  | .ok (parts, rest) =>
    match parts.getLast? with
    | some name =>
      if parts.length ≤ maxDepth then .ok ({ parents := parts.dropLast, name }, rest)
      else .error .tooDeep
    | none => .error .unexpectedEnd

/-- The literal in front of `s`. A blank may stand between a date and a time. -/
def literal (s : List Char) : Except Fault (Value × Rest s) :=
  match s with
  | [] => .error .unexpectedEnd
  | c :: r =>
    if !isLiteralChar c then .error (.unexpected c)
    else
      let first := c :: r.takeWhile isLiteralChar
      let rest := r.dropWhile isLiteralChar
      have h : rest.length ≤ r.length := (List.dropWhile_sublist _).length_le
      let time := rest.tail.takeWhile isLiteralChar
      if rest.head? = some ' ' && date? first == some [] && isZonedTime time then
        .ok (.datetime (String.ofList (first ++ ' ' :: time)),
          ⟨rest.tail.dropWhile isLiteralChar, by
            have h₁ := (List.dropWhile_sublist isLiteralChar (l := rest.tail)).length_le
            have h₂ := List.length_tail (l := rest)
            simp only [List.length_cons]
            omega⟩)
      else
        match literal? first with
        | some v => .ok (v, ⟨rest, Nat.lt_succ_of_le h⟩)
        | none => .error (.badNumber (String.ofList first))

theorem length_of_skipTrivia {s r : List Char} {c : Char} (h : skipTrivia s = c :: r) :
    r.length < s.length := by
  have := skipTrivia_length s
  rw [h, List.length_cons] at this
  omega

theorem skipTrivia_eq_length {s t : List Char} (h : skipTrivia s = t) : t.length ≤ s.length :=
  h ▸ skipTrivia_length s

/-- The rest behind blanks, comments and a character. -/
def behindTrivia {s r : List Char} {c : Char} (h : skipTrivia s = c :: r) : Rest s :=
  ⟨r, length_of_skipTrivia h⟩

/-- A rest behind a key and the equals sign after it. -/
def behindEquals {s r r' : List Char} (hr : r.length < s.length) (h : skipSpace r = '=' :: r')
    (rest : Rest (skipSpace r')) : Rest s :=
  let value : Rest r' := rest.skipped
  (Rest.within (r := behindSpace h) value).under hr

mutual

/-- Reads a value; `depth` is how many levels of nesting are still allowed. -/
def value (depth : Nat) (s : List Char) : Except Fault (Value × Rest s) :=
  match s with
  | [] => .error .unexpectedEnd
  | c :: r =>
    if c = '"' || c = '\'' then
      (string c r).map fun (cs, rest) => (.string (String.ofList cs), rest)
    else if c = '[' then
      match depth with
      | 0 => .error .tooDeep
      | depth + 1 =>
        match elements depth r with
        | .error e => .error e
        | .ok (vs, rest) => .ok (.array vs, rest.behind c)
    else if c = '\x7b' then
      match depth with
      | 0 => .error .tooDeep
      | depth + 1 =>
        match h : skipSpace r with
        | '\x7d' :: _ => .ok (.inline .empty, (behindSpace h).behind c)
        | _ =>
          match members depth .empty r with
          | .error e => .error e
          | .ok (t, rest) => .ok (.inline t, rest.behind c)
    else literal (c :: r)
termination_by 2 * s.length

/-- Reads the items of an array up to its closing bracket; a comma may follow the last one. -/
def elements (depth : Nat) (s : List Char) : Except Fault (List Value × Rest s) :=
  match h : skipTrivia s with
  | ']' :: _ => .ok ([], behindTrivia h)
  | s' =>
    have hs' : s'.length ≤ s.length := skipTrivia_eq_length h
    match value depth s' with
    | .error e => .error e
    | .ok (v, ⟨r, hr⟩) =>
      match h' : skipTrivia r with
      | ',' :: r' =>
        have _hr' : r'.length < r.length := length_of_skipTrivia h'
        match elements depth r' with
        | .error e => .error e
        | .ok (vs, rest) =>
          let later : Rest r := .within (r := behindTrivia h') rest
          .ok (v :: vs, (later.under hr).widen hs')
      | ']' :: _ => .ok ([v], ((behindTrivia h').under hr).widen hs')
      | r' => .error (.here r')
termination_by 2 * s.length + 1

/-- Reads the members of an inline table up to its closing brace, at least one. -/
def members (depth : Nat) (t : Table) (s : List Char) : Except Fault (Table × Rest s) :=
  match key s with
  | .error e => .error e
  | .ok (k, ⟨r, hr⟩) =>
    match h : skipSpace r with
    | '=' :: r₁ =>
      have _h₁ : r₁.length < r.length := length_of_dropWhile h
      have _h₂ : (skipSpace r₁).length ≤ r₁.length := (List.dropWhile_sublist _).length_le
      match value depth (skipSpace r₁) with
      | .error e => .error e
      | .ok (v, ⟨r₂, h₃⟩) =>
        match Table.addValue k.parents k.name v t with
        | .error e => .error e
        | .ok t =>
          match h' : skipSpace r₂ with
          | ',' :: r₃ =>
            have _h₄ : r₃.length < r₂.length := length_of_dropWhile h'
            match members depth t r₃ with
            | .error e => .error e
            | .ok (t, rest) =>
              let later : Rest r₂ := .within (r := behindSpace h') rest
              .ok (t, behindEquals hr h (later.under h₃))
          | '\x7d' :: _ => .ok (t, behindEquals hr h ((behindSpace h').under h₃))
          | r₃ => .error (.here r₃)
    | r₁ => .error (.here r₁)
termination_by 2 * s.length + 1

end

end UtilityCss.Toml
