import UtilityCss.Glob.Token

/-! Matching a path against a pattern, byte by byte.

The positions of a path are marked: one in front of its first byte and one behind each byte. A token
moves the marks from where it may start to where it may end. -/
namespace UtilityCss.Glob

abbrev Bytes := List UInt8

def bytes (text : String) : Bytes := text.toList.flatMap String.utf8EncodeChar

def slash : UInt8 := 0x2F

/-- Whether each position of a text is marked, one position more than there are bytes. -/
abbrev Marks := List Bool

namespace Marks

/-- A mark in front of the text. -/
def start (s : Bytes) : Marks := true :: s.map fun _ => false

def empty (s : Bytes) : Marks := false :: s.map fun _ => false

/-- The marks of both. -/
def union (ms ns : Marks) : Marks := ms.zipWith (· || ·) ns

/-- Moves every mark over one byte that satisfies `p`. -/
def advance (p : UInt8 → Bool) (s : Bytes) (ms : Marks) : Marks :=
  false :: s.zipWith (fun b m => m && p b) ms

/-- Moves every mark over any number of bytes that satisfy `p`; `reached` tells of a mark that came
up to the front of the text. -/
def spread (p : UInt8 → Bool) (reached : Bool) : Bytes → Marks → Marks
  | b :: s, m :: ms => (m || reached) :: spread p ((m || reached) && p b) s ms
  | [], [m] => [m || reached]
  | _, _ => []

/-- Moves every mark over any bytes up to behind a slash, or leaves it. -/
def descend (s : Bytes) (ms : Marks) : Marks :=
  ms.union (advance (· == slash) s (spread (fun _ => true) false s ms))

theorem length_advance {p : UInt8 → Bool} {s : Bytes} {ms : Marks} (h : ms.length = s.length + 1) :
    (advance p s ms).length = s.length + 1 := by
  simp [advance, h]

theorem length_spread {p : UInt8 → Bool} {reached : Bool} {s : Bytes} {ms : Marks}
    (h : ms.length = s.length + 1) : (spread p reached s ms).length = s.length + 1 := by
  induction s generalizing reached ms with
  | nil =>
    obtain ⟨m, rfl⟩ := List.length_eq_one_iff.mp h
    rfl
  | cons b s ih =>
    cases ms with
    | nil => simp at h
    | cons m ms => simpa [spread] using ih (by simpa using h)

end Marks

/-- Whether a byte is in a range of characters. A character of several bytes stands for each of
them, and the range runs from the last byte of its first character to the first one of its last. -/
def inRange (b : UInt8) (range : Char × Char) : Bool :=
  let first := String.utf8EncodeChar range.1
  let last := String.utf8EncodeChar range.2
  first.contains b || last.contains b ||
    (range.1 ≠ range.2 && decide (first.getLast?.getD 0 ≤ b) && decide (b ≤ last.head?.getD 0))

/-- Whether a set takes the byte `b`. -/
def inSet (negated : Bool) (ranges : List (Char × Char)) (b : UInt8) : Bool :=
  ranges.any (inRange b) != negated

mutual

/-- Whether a token has nothing to match at all: braces without anything in them. -/
def Token.isVoid : Token → Bool
  | .alternates branches => areVoidBranches branches
  | _ => false

def areVoid : List Token → Bool
  | [] => true
  | t :: ts => t.isVoid && areVoid ts

def areVoidBranches : List (List Token) → Bool
  | [] => true
  | ts :: branches => areVoid ts && areVoidBranches branches

end

/-- Whether `?` and `*` take a byte. -/
def Options.takes (o : Options) (b : UInt8) : Bool := !(o.separate && b == slash)

mutual

/-- Moves marks over what a token matches. Branches without anything in them do not count, unless
there are no others. -/
def Token.move (o : Options) (s : Bytes) (ms : Marks) : Token → Marks
  | .literal c => (String.utf8EncodeChar c).foldl (fun ms b => Marks.advance (· == b) s ms) ms
  | .any => Marks.advance o.takes s ms
  | .many => Marks.spread o.takes false s ms
  | .deepStart => Marks.descend s ms
  | .deepEnd => Marks.spread (fun _ => true) false s (Marks.advance (· == slash) s ms)
  | .deepMiddle => Marks.descend s (Marks.advance (· == slash) s ms)
  | .set negated ranges => Marks.advance (inSet negated ranges) s ms
  | .alternates branches => if areVoidBranches branches then ms else moveBranches o s ms branches

/-- Moves marks over one token after the other. -/
def moveAll (o : Options) (s : Bytes) (ms : Marks) : List Token → Marks
  | [] => ms
  | t :: ts => moveAll o s (t.move o s ms) ts

/-- Moves marks over one of the branches. -/
def moveBranches (o : Options) (s : Bytes) (ms : Marks) : List (List Token) → Marks
  | [] => Marks.empty s
  | ts :: branches =>
    if areVoid ts then moveBranches o s ms branches
    else (moveAll o s ms ts).union (moveBranches o s ms branches)

end

/-- Whether tokens match a whole text. -/
def fits (o : Options) (ts : List Token) (s : Bytes) : Bool :=
  (moveAll o s (Marks.start s) ts).getLast? = some true

/-- The characters of tokens that are all literal. -/
def literals? : List Token → Option (List Char)
  | [] => some []
  | .literal c :: ts => (literals? ts).map (c :: ·)
  | _ => none

/-- Drops a star in front, if stars cross slashes. -/
def dropStar (o : Options) : List Token → List Token
  | .many :: ts => if o.separate then .many :: ts else ts
  | ts => ts

/-- Whether a pattern is decided by a fixed text at the end of the path: all of it is literal, up to
a deep start with a directory behind it, or up to a star with more than an extension behind it. -/
def hasFixedEnd (o : Options) (ts : List Token) : Bool :=
  let (deep, ts) :=
    match ts with
    | .deepStart :: ts => (true, ts)
    | ts => (false, ts)
  match literals? ts, literals? (dropStar o ts) with
  | some cs, _ => !deep || cs.contains '/'
  | none, some cs => cs != ['.']
  | none, none => false

/-- Whether a pattern whose last token is a dot is decided by the name in the path, or by its
extension. -/
def needsName (o : Options) (ts : List Token) : Bool :=
  match ts.getLast? with
  | some (.literal '.') => !hasFixedEnd o ts
  | _ => false

/-- Whether a path ends in `..`, which is no name. -/
def endsUp (path : String) : Bool := path.toList.reverse.takeWhile (· ≠ '/') == ['.', '.']

/-- Whether the pattern matches the whole path. -/
def accepts (o : Options) (ts : List Token) (path : String) : Bool :=
  match ts with
  | [.deepStart] => true
  | ts => fits o ts (bytes path) && !(needsName o ts && endsUp path)

end UtilityCss.Glob
