/-! What readers share: hexadecimal digits, and what is left of a text after something was read off its
front. -/
namespace UtilityCss.Text

/-- The value of a hexadecimal digit, in either letter case. -/
def hexDigit? (c : Char) : Option Nat :=
  if '0' ≤ c ∧ c ≤ '9' then some (c.toNat - '0'.toNat)
  else if 'a' ≤ c ∧ c ≤ 'f' then some (c.toNat - 'a'.toNat + 10)
  else if 'A' ≤ c ∧ c ≤ 'F' then some (c.toNat - 'A'.toNat + 10)
  else none

def isHexDigit (c : Char) : Bool := (hexDigit? c).isSome

/-- The number that `ds` writes; a character that is no digit counts as zero. -/
def hexValue (ds : List Char) : Nat := ds.foldl (fun n d => n * 16 + (hexDigit? d).getD 0) 0

/-- The character with code point `n`. Surrogates and numbers above 10FFFF have none. -/
def scalar? (n : Nat) : Option Char := if n.isValidChar then some (Char.ofNat n) else none

/-- The rest of a text after at least one character was read. -/
abbrev Rest (s : List Char) := { r : List Char // r.length < s.length }

namespace Rest

/-- A rest of a text is a rest of every text that is no shorter. -/
def widen {s t : List Char} (h : s.length ≤ t.length) (r : Rest s) : Rest t :=
  ⟨r.1, Nat.lt_of_lt_of_le r.2 h⟩

/-- A rest of a rest. -/
def within {s : List Char} {r : Rest s} (q : Rest r.1) : Rest s :=
  ⟨q.1, Nat.lt_trans q.2 r.2⟩

/-- The rest behind the first character. -/
def tail (c : Char) (s : List Char) : Rest (c :: s) := ⟨s, by simp⟩

/-- A rest of a text is a rest of it with a character in front. -/
def behind {s : List Char} (c : Char) (r : Rest s) : Rest (c :: s) := ⟨r.1, Nat.lt_succ_of_lt r.2⟩

/-- A rest of a text that is shorter. -/
def under {s t : List Char} (h : s.length < t.length) (r : Rest s) : Rest t :=
  ⟨r.1, Nat.lt_trans r.2 h⟩

/-- What is left behind characters that were skipped is left of the whole text. -/
def skipped {s : List Char} {p : Char → Bool} (r : Rest (s.dropWhile p)) : Rest s :=
  r.widen (List.dropWhile_sublist p).length_le

end Rest

theorem length_of_dropWhile {p : Char → Bool} {s r : List Char} {c : Char} (h : s.dropWhile p = c :: r) :
    r.length < s.length := by
  have hle := (List.dropWhile_sublist p (l := s)).length_le
  rwa [h, List.length_cons] at hle

end UtilityCss.Text
