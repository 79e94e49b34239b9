import UtilityCss.Text.Reading
import Mathlib.Data.List.Basic
import Mathlib.Data.List.TakeWhile

/-!
# How a stylesheet is read

Names and strings, as the grammar of CSS reads them. In both, a backslash takes what is behind it: a number of up to six
hex digits stands for the character that it numbers, any other character for itself.
-/

namespace UtilityCss.Css

/-! ## Characters -/

def isLineBreak (c : Char) : Bool := c = '\n' || c = '\r' || c = '\x0c'

def isSpace (c : Char) : Bool := c = ' ' || c = '\t' || isLineBreak c

/-- The control characters of ASCII. -/
def isControl (c : Char) : Bool := c.toNat < 0x20 || c.toNat = 0x7F

def Unbroken (s : List Char) : Prop := ∀ c ∈ s, isLineBreak c = false

def ControlFree (s : List Char) : Prop := ∀ c ∈ s, isControl c = false

instance (s : List Char) : Decidable (Unbroken s) := List.decidableBAll _ s

instance (s : List Char) : Decidable (ControlFree s) := List.decidableBAll _ s

/-- A name starts with an ASCII letter, an underscore, or a character outside of ASCII. -/
def isNameStart (c : Char) : Bool := c.isAlpha || c = '_' || 0x80 ≤ c.toNat

def isNameChar (c : Char) : Bool := isNameStart c || c.isDigit || c = '-'

/-! ## Escapes -/

/-- The character with a number; zero and the numbers of no character stand for the replacement character. -/
def numbered (n : Nat) : Char := if n = 0 then '\uFFFD' else (Text.scalar? n).getD '\uFFFD'

/-- What follows one space. A carriage return and the line feed behind it are one. -/
def dropSpace : List Char → List Char
  | '\r' :: '\n' :: rest => rest
  | c :: rest => if isSpace c then rest else c :: rest
  | [] => []

/-- What is escaped, the backslash already read, and what follows it. A space behind a number belongs to it. -/
def readEscape : List Char → Char × List Char
  | [] => ('\uFFFD', [])
  | c :: rest =>
    if Text.isHexDigit c then
      let digits := ((c :: rest).take 6).takeWhile Text.isHexDigit
      (numbered (Text.hexValue digits), dropSpace ((c :: rest).drop digits.length))
    else (c, rest)

theorem readEscape_of_not_hexDigit {c : Char} (h : Text.isHexDigit c = false) (rest : List Char) :
    readEscape (c :: rest) = (c, rest) := by
  simp [readEscape, h]

theorem dropSpace_eq (s : List Char) : ∃ spaces, s = spaces ++ dropSpace s ∧ ∀ c ∈ spaces, isSpace c = true := by
  unfold dropSpace
  split
  · exact ⟨['\r', '\n'], rfl, List.forall_mem_cons.mpr ⟨rfl, List.forall_mem_singleton.mpr rfl⟩⟩
  · rename_i c rest _
    split
    · rename_i hc
      exact ⟨[c], rfl, by simpa using hc⟩
    · exact ⟨[], rfl, List.forall_mem_nil _⟩
  · exact ⟨[], rfl, List.forall_mem_nil _⟩

/-- Behind the character that the backslash takes, an escape goes on with hex digits and spaces only. -/
theorem readEscape_eq (c : Char) (rest : List Char) :
    ∃ taken, rest = taken ++ (readEscape (c :: rest)).2 ∧ ∀ d ∈ taken, Text.isHexDigit d = true ∨ isSpace d = true := by
  cases hc : Text.isHexDigit c with
  | false =>
      rw [readEscape_of_not_hexDigit hc]
      exact ⟨[], rfl, List.forall_mem_nil _⟩
  | true =>
      have hdigits : ((c :: rest).take 6).takeWhile Text.isHexDigit =
          c :: (rest.take 5).takeWhile Text.isHexDigit := by
        simp [hc]
      obtain ⟨spaces, hspaces, hblank⟩ := dropSpace_eq (rest.drop ((rest.take 5).takeWhile Text.isHexDigit).length)
      have hpre : (rest.take 5).takeWhile Text.isHexDigit <+: rest :=
        (List.takeWhile_prefix _).trans (List.take_prefix 5 rest)
      refine ⟨(rest.take 5).takeWhile Text.isHexDigit ++ spaces, ?_, fun d hd => ?_⟩
      · simp only [readEscape, hc, ↓reduceIte, hdigits, List.length_cons, List.drop_succ_cons]
        rw [List.append_assoc, ← hspaces]
        exact (List.prefix_iff_eq_append.mp hpre).symm
      · rcases List.mem_append.mp hd with hd | hd
        · exact Or.inl (List.mem_takeWhile_imp hd)
        · exact Or.inr (hblank d hd)

theorem length_readEscape_le (s : List Char) : (readEscape s).2.length ≤ s.length := by
  cases s with
  | nil => exact Nat.le_refl _
  | cons c rest =>
      obtain ⟨taken, heq, -⟩ := readEscape_eq c rest
      have hlen := congrArg List.length heq
      simp only [List.length_append] at hlen
      simp only [List.length_cons]
      omega

theorem length_dropSpace_le (s : List Char) : (dropSpace s).length ≤ s.length := by
  obtain ⟨spaces, heq, -⟩ := dropSpace_eq s
  have hlen := congrArg List.length heq
  simp only [List.length_append] at hlen
  omega

/-! ## Names -/

/-- Whether a backslash in front of `s` is an escape. -/
def escapes (s : List Char) : Bool := s.head?.all fun c => !isLineBreak c

/-- Whether a name starts `s`. -/
def startsName : List Char → Bool
  | '-' :: '\\' :: rest => escapes rest
  | '-' :: c :: _ => isNameStart c || c = '-'
  | '\\' :: rest => escapes rest
  | c :: _ => isNameStart c
  | [] => false

/-- The longest run of name characters and escapes, and what follows it. -/
def readName (s : List Char) : List Char × List Char :=
  match s with
  | [] => ([], [])
  | c :: rest =>
    if isNameChar c then (c :: (readName rest).1, (readName rest).2)
    else if c = '\\' ∧ escapes rest then
      ((readEscape rest).1 :: (readName (readEscape rest).2).1, (readName (readEscape rest).2).2)
    else ([], c :: rest)
termination_by s.length
decreasing_by
  · simp
  · exact Nat.lt_succ_of_le (length_readEscape_le rest)

theorem readName_cons {c : Char} (h : isNameChar c = true) (rest : List Char) :
    readName (c :: rest) = (c :: (readName rest).1, (readName rest).2) := by
  rw [readName, if_pos h]

theorem readName_escape {c : Char} (hl : isLineBreak c = false) (hx : Text.isHexDigit c = false) (rest : List Char) :
    readName ('\\' :: c :: rest) = (c :: (readName rest).1, (readName rest).2) := by
  have hescapes : escapes (c :: rest) = true := by simp [escapes, hl]
  rw [readName, if_neg (by decide), if_pos ⟨rfl, hescapes⟩, readEscape_of_not_hexDigit hx]

theorem readName_stop {c : Char} (h : isNameChar c = false) (hb : c ≠ '\\') (rest : List Char) :
    readName (c :: rest) = ([], c :: rest) := by
  rw [readName, if_neg (by simp [h]), if_neg fun hc => hb hc.1]

/-- The identifier in front of `s`, its escapes undone, and what follows it. -/
def identifier? (s : List Char) : Option (List Char × List Char) := if startsName s then some (readName s) else none

/-! ## Strings -/

/-- The value of a string whose opening quote is already read, and what follows its closing quote. A line break in a
string has to be escaped, and stands for nothing. -/
def readString (q : Char) (s : List Char) : Option (List Char × List Char) :=
  match s with
  | [] => none
  | c :: rest =>
    if c = q then some ([], rest)
    else if isLineBreak c then none
    else if c = '\\' then
      match rest with
      | [] => none
      | d :: tail =>
        if isLineBreak d then readString q (dropSpace (d :: tail))
        else (readString q (readEscape (d :: tail)).2).map fun p => ((readEscape (d :: tail)).1 :: p.1, p.2)
    else (readString q rest).map fun p => (c :: p.1, p.2)
termination_by s.length
decreasing_by
  · exact Nat.lt_succ_of_le (length_dropSpace_le (d :: tail))
  · exact Nat.lt_succ_of_le (length_readEscape_le (d :: tail))
  · simp

theorem readString_quote (q : Char) (rest : List Char) : readString q (q :: rest) = some ([], rest) := by
  rw [readString.eq_def]
  exact if_pos rfl

theorem readString_cons {q c : Char} (hq : c ≠ q) (hl : isLineBreak c = false) (hb : c ≠ '\\') (rest : List Char) :
    readString q (c :: rest) = (readString q rest).map fun p => (c :: p.1, p.2) := by
  rw [readString.eq_def]
  simp only [hq, hl, hb, Bool.false_eq_true, ↓reduceIte]

theorem readString_escape {q d : Char} (hq : q ≠ '\\') (hl : isLineBreak d = false) (rest : List Char) :
    readString q ('\\' :: d :: rest) =
      (readString q (readEscape (d :: rest)).2).map fun p => ((readEscape (d :: rest)).1 :: p.1, p.2) := by
  have hb : isLineBreak '\\' = false := rfl
  rw [readString.eq_def]
  simp only [hq.symm, hb, hl, Bool.false_eq_true, ↓reduceIte]

/-- The value of the string in front of `s`, and what follows it. -/
def string? : List Char → Option (List Char × List Char)
  | q :: rest => if q = '"' ∨ q = '\'' then readString q rest else none
  | [] => none

end UtilityCss.Css
