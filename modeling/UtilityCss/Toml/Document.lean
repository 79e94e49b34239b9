import UtilityCss.Toml.Value

/-! Reading a document: a header or a key with its value on each line, or neither. -/
namespace UtilityCss.Toml

open Text (Rest)

/-- What was read so far, and the table under the last header. -/
structure State where
  root : Table := .empty
  current : List String := []

namespace State

def addValue (k : Key) (v : Value) (st : State) : Except Fault State :=
  (Table.descend false (·.addValue k.parents k.name v) st.current st.root).map
    ({ st with root := · })

def openTable (k : Key) (st : State) : Except Fault State :=
  (Table.openTable k.parents k.name st.root).map fun root => { root, current := k.parents ++ [k.name] }

def openElement (k : Key) (st : State) : Except Fault State :=
  (Table.openElement k.parents k.name st.root).map fun root => { root, current := k.parents ++ [k.name] }

end State

/-- What is left behind a statement, which may be empty. -/
abbrev Behind (s : List Char) := { r : List Char // r.length ≤ s.length }

namespace Behind

theorem nothing_length (s : List Char) : s.length ≤ s.length := Nat.le_refl _

def nothing (s : List Char) : Behind s := ⟨s, nothing_length s⟩

def rest {s : List Char} (r : Rest s) : Behind s := ⟨r.1, Nat.le_of_lt r.2⟩

def char {s : List Char} (c : Char) (b : Behind s) : Behind (c :: s) :=
  ⟨b.1, Nat.le_succ_of_le b.2⟩

end Behind

/-- A header behind its opening brackets. -/
def header (closing : List Char) (change : Key → State → Except Fault State) (st : State)
    (s : List Char) : Except Fault (State × Behind s) :=
  match key s with
  | .error e => .error e
  | .ok (k, ⟨r, hr⟩) =>
    match h : Text.rest? closing (skipSpace r) with
    | none => .error (.here (skipSpace r))
    | some r' =>
      (change k st).map fun st => (st, ⟨r', by
        have h₁ := Text.rest?_length h
        have h₂ : (skipSpace r).length ≤ r.length := (List.dropWhile_sublist _).length_le
        omega⟩)

/-- A key with its value. -/
def pair (st : State) (s : List Char) : Except Fault (State × Behind s) :=
  match key s with
  | .error e => .error e
  | .ok (k, ⟨r, hr⟩) =>
    match h : skipSpace r with
    | '=' :: r₁ =>
      match value maxDepth (skipSpace r₁) with
      | .error e => .error e
      | .ok (v, rest) => (st.addValue k v).map fun st => (st, .rest (behindEquals hr h rest))
    | r₁ => .error (.here r₁)

/-- The statement in front of `s`; there is none before a comment or a line end. -/
def statement (st : State) (s : List Char) : Except Fault (State × Behind s) :=
  match s with
  | [] => .ok (st, .nothing [])
  | '[' :: '[' :: r =>
    (header [']', ']'] State.openElement st r).map fun (st, rest) => (st, (rest.char '[').char '[')
  | '[' :: r => (header [']'] State.openTable st r).map fun (st, rest) => (st, rest.char '[')
  | c :: r =>
    if c = '#' || (lineEnd? (c :: r)).isSome then .ok (st, .nothing (c :: r))
    else pair st (c :: r)

/-- Drops the blanks and the comment in front of a line end. -/
def dropComment (s : List Char) : List Char :=
  match skipSpace s with
  | '#' :: r => r.dropWhile isPrintable
  | r => r

theorem dropComment_length (s : List Char) : (dropComment s).length ≤ s.length := by
  unfold dropComment
  split
  · rename_i r hr
    have hdropped := (List.dropWhile_sublist isPrintable (l := r)).length_le
    exact Nat.le_of_lt (Nat.lt_of_le_of_lt hdropped (Text.length_of_dropWhile hr))
  · exact (List.dropWhile_sublist _).length_le

/-- Reads statements, each on a line of its own. -/
def statements (st : State) (s : List Char) : Except Fault Table :=
  match statement st (skipSpace s) with
  | .error e => .error e
  | .ok (st, ⟨r, _hr⟩) =>
    match _h : lineEnd? (dropComment r) with
    | some rest => statements st rest
    | none =>
      match dropComment r with
      | [] => .ok st.root
      | c :: _ => .error (.unexpected c)
termination_by s.length
decreasing_by
  have h₁ := lineEnd?_length _h
  have h₂ := dropComment_length r
  have h₃ : (skipSpace s).length ≤ s.length := (List.dropWhile_sublist _).length_le
  omega

/-- Reads a whole text; a byte order mark in front of it counts for nothing. -/
def read (text : String) : Except Fault Table :=
  let s := text.toList
  statements {} ((Text.rest? ['\uFEFF'] s).getD s)

end UtilityCss.Toml
