import UtilityCss.Json.Scalar

/-! Reading JSON. Every reader returns what it read and the shorter text that is left. -/
namespace UtilityCss.Json

open Text (Rest length_of_dropWhile)

/-- Reads the word of a constant off the front of `s`. -/
def constant (word : List Char) (v : Json) (s : List Char) : Except Fault (Json × Rest s) :=
  if word.isPrefixOf s && !word.isEmpty then
    if h : (s.drop word.length).length < s.length then .ok (v, ⟨s.drop word.length, h⟩)
    else .error .unexpectedEnd
  else .error (s.head?.elim .unexpectedEnd .unexpected)

mutual

/-- Reads one value; `depth` is how many levels of nesting are still allowed. -/
def value (depth : Nat) (s : List Char) : Except Fault (Json × Rest s) :=
  match h : skipSpace s with
  | [] => .error .unexpectedEnd
  | '"' :: r =>
    match stringBody r with
    | .error e => .error e
    | .ok (cs, rest) =>
      .ok (.string (String.ofList cs), rest.widen (Nat.le_of_lt (length_of_dropWhile h)))
  | '[' :: r =>
    have hr : r.length < s.length := length_of_dropWhile h
    match depth with
    | 0 => .error .tooDeep
    | depth + 1 =>
      match h' : skipSpace r with
      | ']' :: r' => .ok (.array [], ⟨r', by have := length_of_dropWhile h'; omega⟩)
      | _ =>
        match items depth r with
        | .error e => .error e
        | .ok (vs, rest) => .ok (.array vs, rest.widen (by omega))
  | '\x7b' :: r =>
    have hr : r.length < s.length := length_of_dropWhile h
    match depth with
    | 0 => .error .tooDeep
    | depth + 1 =>
      match h' : skipSpace r with
      | '\x7d' :: r' => .ok (.object [], ⟨r', by have := length_of_dropWhile h'; omega⟩)
      | _ =>
        match members depth r with
        | .error e => .error e
        | .ok (ms, rest) => .ok (.object ms, rest.widen (by omega))
  | c :: r =>
    have hs : (c :: r).length ≤ s.length := length_of_dropWhile h
    let read : Except Fault (Json × Rest (c :: r)) :=
      if c = 't' then constant "true".toList (.bool true) (c :: r)
      else if c = 'f' then constant "false".toList (.bool false) (c :: r)
      else if c = 'n' then constant "null".toList .null (c :: r)
      else if c = '-' || isDigit c then numberText (c :: r)
      else .error (.unexpected c)
    read.map fun (v, rest) => (v, rest.widen hs)
termination_by (s.length, 0)

/-- Reads the items of an array up to its closing bracket, at least one. -/
def items (depth : Nat) (s : List Char) : Except Fault (List Json × Rest s) :=
  match value depth s with
  | .error e => .error e
  | .ok (v, ⟨r, hr⟩) =>
    match h : skipSpace r with
    | ',' :: r' =>
      have hr' : r'.length < r.length := length_of_dropWhile h
      match items depth r' with
      | .error e => .error e
      | .ok (vs, rest) => .ok (v :: vs, rest.widen (by omega))
    | ']' :: r' => .ok ([v], ⟨r', by have := length_of_dropWhile h; omega⟩)
    | [] => .error .unexpectedEnd
    | c :: _ => .error (.unexpected c)
termination_by (s.length, 1)

/-- Reads the members of an object up to its closing brace, at least one. -/
def members (depth : Nat) (s : List Char) : Except Fault (List (String × Json) × Rest s) :=
  match h : skipSpace s with
  | '"' :: r =>
    have hr : r.length < s.length := length_of_dropWhile h
    match stringBody r with
    | .error e => .error e
    | .ok (key, ⟨r₁, h₁⟩) =>
      match hc : skipSpace r₁ with
      | ':' :: r₂ =>
        have h₂ : r₂.length < r₁.length := length_of_dropWhile hc
        match value depth r₂ with
        | .error e => .error e
        | .ok (v, ⟨r₃, h₃⟩) =>
          match hd : skipSpace r₃ with
          | ',' :: r₄ =>
            have h₄ : r₄.length < r₃.length := length_of_dropWhile hd
            match members depth r₄ with
            | .error e => .error e
            | .ok (ms, rest) => .ok ((String.ofList key, v) :: ms, rest.widen (by omega))
          | '\x7d' :: r₄ =>
            .ok ([(String.ofList key, v)], ⟨r₄, by have := length_of_dropWhile hd; omega⟩)
          | [] => .error .unexpectedEnd
          | c :: _ => .error (.unexpected c)
      | [] => .error .unexpectedEnd
      | c :: _ => .error (.unexpected c)
  | [] => .error .unexpectedEnd
  | c :: _ => .error (.unexpected c)
termination_by (s.length, 1)

end

/-- Reads a whole text as one value. -/
def read (text : String) : Except Fault Json :=
  match value maxDepth text.toList with
  | .error e => .error e
  | .ok (v, rest) => if (skipSpace rest.1).isEmpty then .ok v else .error .trailingCharacters

/-- Reads a whole text as an object. -/
def readObject (text : String) : Except Fault (List (String × Json)) :=
  match read text with
  | .error e => .error e
  | .ok (.object ms) => .ok ms
  | .ok _ => .error .notAnObject

end UtilityCss.Json
