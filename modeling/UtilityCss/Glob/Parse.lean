import UtilityCss.Glob.Token

/-! Reading a pattern from left to right. -/
namespace UtilityCss.Glob

/-- A group that is still open: the tokens in front of it and its finished branches, both with the
last one first. -/
structure OpenGroup where
  before : List Token
  branches : List (List Token)

/-- What was read so far. -/
structure Parser where
  groups : List OpenGroup := []
  /-- The tokens of the branch that is being read, the last one first. -/
  branch : List Token := []
  /-- The character read last. -/
  previous : Option Char := none
  /-- Whether a bracket that is never closed is no fault but stands for itself. -/
  lenient : Bool := false
  /-- Whether such a bracket was read: from there on, all of them stand for themselves. -/
  plainBrackets : Bool := false

namespace Parser

def inGroup (p : Parser) : Bool := !p.groups.isEmpty

/-- Adds tokens that were read up to the character `last`. -/
def push (ts : List Token) (last : Char) (p : Parser) : Parser :=
  { p with branch := ts.reverse ++ p.branch, previous := some last }

def openGroup (p : Parser) : Parser :=
  { p with groups := ⟨p.branch, []⟩ :: p.groups, branch := [], previous := some '\x7b' }

/-- A comma: the next branch of a group, or itself outside of groups. -/
def comma (p : Parser) : Parser :=
  match p.groups with
  | [] => p.push [.literal ','] ','
  | g :: gs =>
    { p with
      groups := { g with branches := p.branch.reverse :: g.branches } :: gs
      branch := []
      previous := some ',' }

def closeGroup (p : Parser) : Except Fault Parser :=
  match p.groups with
  | [] => .error .unopenedGroup
  | g :: gs =>
    .ok { p with
      groups := gs
      branch := .alternates (p.branch.reverse :: g.branches).reverse :: g.before
      previous := some '\x7d' }

/-- Puts a deep token in the place of the slash before it; one that is deep already stays. -/
def deepen (t : Token) (last : Char) (p : Parser) : Parser :=
  let branch :=
    match p.branch with
    | .deepStart :: ts => .deepStart :: ts
    | .deepEnd :: ts => .deepEnd :: ts
    | _ :: ts => t :: ts
    | [] => [t]
  { p with branch, previous := some last }

/-- Two stars, with `s` behind them. They are deep only if slashes or ends surround them. -/
def stars (p : Parser) (s : List Char) : Parser × List Char :=
  let shallow := (p.push [.many, .many] '*', s)
  if p.branch.isEmpty then
    match s with
    | [] => (p.push [.deepStart] '*', [])
    | c :: rest => if c = '/' then (p.push [.deepStart] '/', rest) else shallow
  else if p.previous ≠ some '/' &&
      (!p.inGroup || (p.previous ≠ some ',' && p.previous ≠ some '\x7b')) then shallow
  else
    match s with
    | [] => (p.deepen .deepEnd '*', [])
    | c :: rest =>
      if c = '/' then (p.deepen .deepMiddle '/', rest)
      else if p.inGroup && (c = ',' || c = '\x7d') then (p.deepen .deepEnd '*', s)
      else shallow

/-- A star, with `s` behind it. -/
def star (p : Parser) (s : List Char) : Parser × List Char :=
  match s with
  | '*' :: s => p.stars s
  | s => (p.push [.many] '*', s)

theorem stars_length (p : Parser) (s : List Char) : (p.stars s).2.length ≤ s.length := by
  unfold stars
  dsimp only
  split
  · split
    · simp
    · split
      · simp
      · simp
  · split
    · simp
    · split
      · simp
      · split
        · simp
        · split <;> simp

theorem star_length (p : Parser) (s : List Char) : (p.star s).2.length ≤ s.length := by
  unfold star
  split
  · rename_i s
    have := p.stars_length s
    simp only [List.length_cons]
    omega
  · simp

end Parser

/-- The state inside brackets: the ranges read, the last one first, and whether the last of them
waits for its end. -/
structure SetReader where
  ranges : List (Char × Char) := []
  inRange : Bool := false

namespace SetReader

/-- Takes in a character that is not a minus sign: it ends a range, or is one by itself. -/
def member (c : Char) (r : SetReader) : Except Fault SetReader :=
  match r.inRange, r.ranges with
  | true, (first, _) :: rs =>
    if c < first then .error (.invalidRange first c) else .ok { ranges := (first, c) :: rs }
  | _, rs => .ok { ranges := (c, c) :: rs }

/-- Takes in a minus sign; the first character of a set is always a member. -/
def minus (r : SetReader) : Except Fault SetReader :=
  if r.ranges.isEmpty || r.inRange then r.member '-' else .ok { r with inRange := true }

/-- The ranges in order; a minus sign with nothing behind it is a member. -/
def finish (r : SetReader) : List (Char × Char) :=
  ((if r.inRange then [('-', '-')] else []) ++ r.ranges).reverse

/-- Reads up to the closing bracket; one that comes first is a member. -/
def read (r : SetReader) : List Char → Except Fault (List (Char × Char) × List Char)
  | [] => .error .unclosedSet
  | c :: s =>
    if c = ']' && !r.ranges.isEmpty then .ok (r.finish, s)
    else
      match if c = '-' then r.minus else r.member c with
      | .error e => .error e
      | .ok r => r.read s

theorem read_length {r : SetReader} {s rest : List Char} {ranges : List (Char × Char)}
    (h : r.read s = .ok (ranges, rest)) : rest.length < s.length := by
  induction s generalizing r with
  | nil => simp [read] at h
  | cons c s ih =>
    unfold read at h
    split at h
    · simp only [Except.ok.injEq, Prod.mk.injEq] at h
      obtain ⟨_, rfl⟩ := h
      simp
    · split at h
      · simp at h
      · have := ih h
        simp only [List.length_cons]
        omega

end SetReader

/-- The set behind an opening bracket. -/
def readSet (s : List Char) : Except Fault (Token × List Char) :=
  let (negated, s) :=
    match s with
    | '!' :: s => (true, s)
    | '^' :: s => (true, s)
    | s => (false, s)
  match SetReader.read {} s with
  | .error e => .error e
  | .ok (ranges, rest) => .ok (.set negated ranges, rest)

theorem readSet_length {s rest : List Char} {t : Token} (h : readSet s = .ok (t, rest)) :
    rest.length < s.length := by
  unfold readSet at h
  dsimp only at h
  split at h
  · simp at h
  · rename_i hr
    simp only [Except.ok.injEq, Prod.mk.injEq] at h
    obtain ⟨_, rfl⟩ := h
    have := SetReader.read_length hr
    split at this
    · exact Nat.lt_succ_of_lt this
    · exact Nat.lt_succ_of_lt this
    · exact this

/-- Reads the rest of a pattern. -/
def Parser.run (p : Parser) (s : List Char) : Except Fault (List Token) :=
  match s with
  | [] => if p.inGroup then .error .unclosedGroup else .ok p.branch.reverse
  | c :: s =>
    if c = '?' then (p.push [.any] c).run s
    else if c = '*' then
      have := p.star_length s
      (p.star s).1.run (p.star s).2
    else if c = '[' && !p.plainBrackets then
      match _h : readSet s with
      | .ok (t, rest) => (p.push [t] ']').run rest
      | .error e =>
        if p.lenient && e = .unclosedSet then
          ({ p with plainBrackets := true }.push [.literal c] c).run s
        else .error e
    else if c = '\x7b' then p.openGroup.run s
    else if c = '\x7d' then
      match p.closeGroup with
      | .error e => .error e
      | .ok p => p.run s
    else if c = ',' then p.comma.run s
    else if c = '\\' then
      match s with
      | [] => .error .danglingEscape
      | d :: s => (p.push [.literal d] d).run s
    else (p.push [.literal c] c).run s
termination_by s.length
decreasing_by
  all_goals simp only [List.length_cons]
  all_goals try have := readSet_length _h
  all_goals omega

/-- The tokens of a pattern. -/
def parse (pattern : String) : Except Fault (List Token) := Parser.run {} pattern.toList

end UtilityCss.Glob
