import UtilityCss.Text.Reading
import UtilityCss.Text.Search
import UtilityCss.Toml.Basic

/-! The characters of a TOML document: blanks, comments, and the four kinds of strings. -/
namespace UtilityCss.Toml

open Text (Rest)

def isSpace (c : Char) : Bool := c = ' ' || c = '\t'

def skipSpace (s : List Char) : List Char := s.dropWhile isSpace

/-- What may stand in a comment: everything but control characters, the tab excepted. -/
def isPrintable (c : Char) : Bool := c = '\t' || (0x20 ≤ c.toNat && c.toNat ≠ 0x7F)

/-- What follows a line end. -/
def lineEnd? : List Char → Option (List Char)
  | '\n' :: s => some s
  | '\r' :: '\n' :: s => some s
  | _ => none

theorem lineEnd?_length {s r : List Char} (h : lineEnd? s = some r) : r.length < s.length := by
  unfold lineEnd? at h
  split at h
  · cases h
    simp
  · cases h
    simp only [List.length_cons]
    omega
  · simp at h

/-- Skips blanks and line ends. -/
def skipBlank (s : List Char) : List Char :=
  match s with
  | [] => []
  | c :: r =>
    if isSpace c then skipBlank r
    else
      match _h : lineEnd? (c :: r) with
      | some rest => skipBlank rest
      | none => c :: r
termination_by s.length
decreasing_by
  · simp
  · exact lineEnd?_length _h

/-- Skips blanks, line ends and comments. -/
def skipTrivia (s : List Char) : List Char :=
  match s with
  | [] => []
  | c :: r =>
    if isSpace c then skipTrivia r
    else if c = '#' then skipTrivia (r.dropWhile isPrintable)
    else
      match _h : lineEnd? (c :: r) with
      | some rest => skipTrivia rest
      | none => c :: r
termination_by s.length
decreasing_by
  · simp
  · exact Nat.lt_succ_of_le (List.dropWhile_sublist _).length_le
  · exact lineEnd?_length _h

theorem skipBlank_length (s : List Char) : (skipBlank s).length ≤ s.length := by
  fun_induction skipBlank s with
  | case1 => simp
  | case2 c r _ ih => exact Nat.le_succ_of_le ih
  | case3 c r _ rest h ih => exact Nat.le_trans ih (Nat.le_of_lt (lineEnd?_length h))
  | case4 => simp

theorem skipTrivia_length (s : List Char) : (skipTrivia s).length ≤ s.length := by
  fun_induction skipTrivia s with
  | case1 => simp
  | case2 c r _ ih => exact Nat.le_succ_of_le ih
  | case3 r _ ih =>
    exact Nat.le_succ_of_le (Nat.le_trans ih (List.dropWhile_sublist _).length_le)
  | case4 c r _ _ rest h ih => exact Nat.le_trans ih (Nat.le_of_lt (lineEnd?_length h))
  | case5 => simp

/-- The character that `digits` hexadecimal digits in front of `s` write. -/
def codePoint (digits : Nat) (s : List Char) : Except Fault (Char × List Char) :=
  let ds := s.take digits
  if ds.length = digits && ds.all Text.isHexDigit then
    match Text.scalar? (Text.hexValue ds) with
    | some c => .ok (c, s.drop digits)
    | none => .error .badEscape
  else .error .badEscape

/-- The character that a backslash before `s` writes. -/
def escape : List Char → Except Fault (Char × List Char)
  | [] => .error .unexpectedEnd
  | c :: s =>
    if c = 'u' then codePoint 4 s
    else if c = 'U' then codePoint 8 s
    else
      match ("\"\\bfnrt".toList.zip "\"\\\x08\x0c\n\r\t".toList).lookup c with
      | some d => .ok (d, s)
      | none => .error .badEscape

theorem codePoint_length {n : Nat} {s r : List Char} {c : Char} (h : codePoint n s = .ok (c, r)) :
    r.length ≤ s.length := by
  unfold codePoint at h
  dsimp only at h
  split at h
  · split at h
    · simp only [Except.ok.injEq, Prod.mk.injEq] at h
      rw [← h.2, List.length_drop]
      omega
    · simp at h
  · simp at h

theorem escape_length {s r : List Char} {c : Char} (h : escape s = .ok (c, r)) :
    r.length < s.length := by
  unfold escape at h
  split at h
  · simp at h
  · split at h
    · exact Nat.lt_succ_of_le (codePoint_length h)
    · split at h
      · exact Nat.lt_succ_of_le (codePoint_length h)
      · split at h
        · simp only [Except.ok.injEq, Prod.mk.injEq] at h
          rw [← h.2]
          simp
        · simp at h

/-- Puts a character in front of what was read from `r`, a later part of `s`. -/
def consRead {s r : List Char} (c : Char) (within : Rest r → Rest s)
    (read : Except Fault (List Char × Rest r)) : Except Fault (List Char × Rest s) :=
  read.map fun (cs, rest) => (c :: cs, within rest)

/-- A basic string up to its closing quote. -/
def basicBody (s : List Char) : Except Fault (List Char × Rest s) :=
  match s with
  | [] => .error .unexpectedEnd
  | '"' :: r => .ok ([], .tail _ r)
  | '\\' :: r =>
    match h : escape r with
    | .error e => .error e
    | .ok (c, r') =>
      have hr : r'.length < r.length := escape_length h
      consRead c (fun rest => (rest.under hr).behind '\\') (basicBody r')
  | c :: r =>
    if isPrintable c then consRead c (.behind c) (basicBody r) else .error (.unexpected c)
termination_by s.length

/-- A literal string up to its closing quote. -/
def literalBody (s : List Char) : Except Fault (List Char × Rest s) :=
  match s with
  | [] => .error .unexpectedEnd
  | '\'' :: r => .ok ([], .tail _ r)
  | c :: r =>
    if isPrintable c then consRead c (.behind c) (literalBody r) else .error (.unexpected c)

/-- What three quotes in front of `s` close: up to two quotes behind them still belong to the
string. -/
def closing? (q : Char) (s : List Char) : Option (List Char × Rest s) :=
  match s with
  | a :: b :: c :: r =>
    if a = q && b = q && c = q then
      match r with
      | d :: e :: r' =>
        if d = q && e = q then some ([q, q], ⟨r', by simp only [List.length_cons]; omega⟩)
        else if d = q then some ([q], ⟨e :: r', by simp only [List.length_cons]; omega⟩)
        else some ([], ⟨d :: e :: r', by simp only [List.length_cons]; omega⟩)
      | [d] =>
        if d = q then some ([q], ⟨[], by simp⟩) else some ([], ⟨[d], by simp⟩)
      | [] => some ([], ⟨[], by simp⟩)
    else none
  | _ => none

/-- What follows a backslash at the end of a line, and the blanks and line ends behind it. -/
def continuation? (s : List Char) : Option (List Char) := (lineEnd? (skipSpace s)).map skipBlank

theorem continuation?_length {s r : List Char} (h : continuation? s = some r) :
    r.length < s.length := by
  obtain ⟨t, ht, rfl⟩ := Option.map_eq_some_iff.mp h
  have h₁ := lineEnd?_length ht
  have h₂ : (skipSpace s).length ≤ s.length := (List.dropWhile_sublist _).length_le
  have h₃ := skipBlank_length t
  omega

/-- A string over several lines, up to its closing quotes. Line ends are read as `\n`; only a basic
string has escapes. -/
def linesBody (q : Char) (escapes : Bool) (s : List Char) : Except Fault (List Char × Rest s) :=
  match closing? q s with
  | some done => .ok done
  | none =>
    match s with
    | [] => .error .unexpectedEnd
    | c :: r =>
      if escapes && c = '\\' then
        match _h : continuation? r with
        | some r' =>
          have hr : r'.length < r.length := continuation?_length _h
          (linesBody q escapes r').map fun (cs, rest) => (cs, (rest.under hr).behind c)
        | none =>
          match _h' : escape r with
          | .error e => .error e
          | .ok (d, r') =>
            have hr : r'.length < r.length := escape_length _h'
            consRead d (fun rest => (rest.under hr).behind c) (linesBody q escapes r')
      else
        match h : lineEnd? (c :: r) with
        | some r' => consRead '\n' (.under (lineEnd?_length h)) (linesBody q escapes r')
        | none =>
          if isPrintable c then consRead c (.behind c) (linesBody q escapes r)
          else .error (.unexpected c)
termination_by s.length
decreasing_by
  · simp only [List.length_cons]; omega
  · simp only [List.length_cons]; omega
  · exact lineEnd?_length h
  · simp

/-- Drops the line end directly behind opening quotes. -/
def dropLineEnd (s : List Char) : List Char := (lineEnd? s).getD s

theorem dropLineEnd_length (s : List Char) : (dropLineEnd s).length ≤ s.length := by
  unfold dropLineEnd
  cases h : lineEnd? s with
  | none => simp
  | some r => exact Nat.le_of_lt (lineEnd?_length h)

theorem dropLineEnd_of_rest? {q : Char} {s r : List Char} (h : Text.rest? [q, q] s = some r) :
    (dropLineEnd r).length ≤ s.length :=
  Nat.le_trans (dropLineEnd_length r) (Text.rest?_length h)

/-- The string whose opening quote `q`, already read, stands before `s`. Two more quotes open a
string over several lines. -/
def string (q : Char) (s : List Char) : Except Fault (List Char × Rest (q :: s)) :=
  let escapes := q = '"'
  match h : Text.rest? [q, q] s with
  | some r =>
    (linesBody q escapes (dropLineEnd r)).map fun (cs, rest) =>
      (cs, (rest.widen (dropLineEnd_of_rest? h)).behind q)
  | none =>
    let read : Except Fault (List Char × Rest s) := if escapes then basicBody s else literalBody s
    read.map fun (cs, rest) => (cs, rest.behind q)

end UtilityCss.Toml
