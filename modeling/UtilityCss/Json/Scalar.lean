import UtilityCss.Json.Basic
import UtilityCss.Text.Reading

/-! The scalars of JSON: blanks, strings and numbers. -/
namespace UtilityCss.Json

open Text (Rest)

/-- The four characters that JSON allows between tokens. -/
def isSpace (c : Char) : Bool := c = ' ' || c = '\t' || c = '\n' || c = '\r'

def skipSpace (s : List Char) : List Char := s.dropWhile isSpace

/-- The number that four hexadecimal digits write, in front of `s`. -/
def hexQuad? : List Char → Option (Nat × List Char)
  | a :: b :: c :: d :: s =>
    if [a, b, c, d].all Text.isHexDigit then some (Text.hexValue [a, b, c, d], s) else none
  | _ => none

def isHighSurrogate (n : Nat) : Bool := 0xD800 ≤ n && n ≤ 0xDBFF

def isLowSurrogate (n : Nat) : Bool := 0xDC00 ≤ n && n ≤ 0xDFFF

/-- The character that follows a backslash; two surrogates in a row make one character. -/
def escape (s : List Char) : Except Fault (Char × List Char) :=
  match s with
  | [] => .error .unexpectedEnd
  | 'u' :: s =>
    match hexQuad? s with
    | none => .error .badEscape
    | some (n, s) =>
      if isLowSurrogate n then .error .loneSurrogate
      else if isHighSurrogate n then
        match s with
        | '\\' :: 'u' :: s =>
          match hexQuad? s with
          | none => .error .badEscape
          | some (m, s) =>
            if isLowSurrogate m then
              .ok (Char.ofNat (0x10000 + (n - 0xD800) * 0x400 + (m - 0xDC00)), s)
            else .error .loneSurrogate
        | _ => .error .loneSurrogate
      else .ok (Char.ofNat n, s)
  | c :: s =>
    match "\"\\/bfnrt".toList.zip "\"\\/\x08\x0c\n\r\t".toList |>.lookup c with
    | some d => .ok (d, s)
    | none => .error .badEscape

theorem hexQuad?_length {s r : List Char} {n : Nat} (h : hexQuad? s = some (n, r)) :
    r.length < s.length := by
  unfold hexQuad? at h
  split at h
  · split at h
    · simp only [Option.some.injEq, Prod.mk.injEq] at h
      obtain ⟨_, rfl⟩ := h
      simp only [List.length_cons]
      omega
    · simp at h
  · simp at h

theorem escape_length {s r : List Char} {c : Char} (h : escape s = .ok (c, r)) :
    r.length < s.length := by
  unfold escape at h
  split at h
  · simp at h
  · split at h
    · simp at h
    · rename_i hq
      have h₁ := hexQuad?_length hq
      split at h
      · simp at h
      · split at h
        · split at h
          · split at h
            · simp at h
            · rename_i hq'
              have h₂ := hexQuad?_length hq'
              split at h
              · simp only [Except.ok.injEq, Prod.mk.injEq] at h
                obtain ⟨_, rfl⟩ := h
                simp only [List.length_cons] at h₁ ⊢
                omega
              · simp at h
          · simp at h
        · simp only [Except.ok.injEq, Prod.mk.injEq] at h
          obtain ⟨_, rfl⟩ := h
          simp only [List.length_cons]
          omega
  · split at h
    · simp only [Except.ok.injEq, Prod.mk.injEq] at h
      obtain ⟨_, rfl⟩ := h
      simp only [List.length_cons]
      omega
    · simp at h

/-- The characters up to the closing quote. -/
def stringBody (s : List Char) : Except Fault (List Char × Rest s) :=
  match s with
  | [] => .error .unexpectedEnd
  | '"' :: r => .ok ([], ⟨r, by simp⟩)
  | '\\' :: r =>
    match h : escape r with
    | .error e => .error e
    | .ok (c, r') =>
      have hlt : r'.length < r.length := escape_length h
      match stringBody r' with
      | .error e => .error e
      | .ok (cs, rest) => .ok (c :: cs, rest.widen (by simp only [List.length_cons]; omega))
  | c :: r =>
    if c.toNat < 0x20 then .error .controlCharacter
    else match stringBody r with
      | .error e => .error e
      | .ok (cs, rest) => .ok (c :: cs, rest.widen (by simp))
termination_by s.length

def isDigit (c : Char) : Bool := '0' ≤ c && c ≤ '9'

/-- The value of a run of digits, continued from `n`. -/
def digitsValue (n : Nat) (ds : List Char) : Nat :=
  ds.foldl (fun n d => n * 10 + (d.toNat - '0'.toNat)) n

/-- The parts of a number as written. -/
structure Literal where
  negative : Bool
  whole : List Char
  fraction : List Char
  exponentNegative : Bool
  exponent : List Char

/-- Takes digits into a significand while it stays below 2^64; also counts the digits left over. -/
def accumulate (significand : Nat) : List Char → Nat × Nat
  | [] => (significand, 0)
  | d :: ds =>
    let next := significand * 10 + (d.toNat - '0'.toNat)
    if next < 0x10000000000000000 then accumulate next ds else (significand, ds.length + 1)

/-- Whether the number stays below infinity as a 64-bit float. The significand is read to 64 bits,
left over digits of the whole part count as powers of ten, and those of the fraction are dropped. -/
def Literal.isFinite (n : Literal) : Bool :=
  let (whole, extra) := accumulate 0 n.whole
  let (significand, dropped) := accumulate whole n.fraction
  let written : Int := digitsValue 0 n.exponent
  let power : Int := (extra : Int) - (n.fraction.length - dropped : Nat) +
    (if n.exponentNegative then -written else written)
  if significand = 0 || power < 0 then true
  else if 308 < power then false
  else !(Float.ofNat significand * Float.ofScientific 1 false power.toNat).isInf

/-- The digits in front of `s`, at least one. -/
def digits1? (s : List Char) : Option (List Char × Rest s) :=
  match s with
  | [] => none
  | c :: r =>
    if isDigit c then
      some (c :: r.takeWhile isDigit,
        ⟨r.dropWhile isDigit, Nat.lt_succ_of_le (List.dropWhile_sublist _).length_le⟩)
    else none

/-- The whole part: a zero alone, or digits that do not start with a zero. -/
def whole? (s : List Char) : Option (List Char × Rest s) :=
  match digits1? s with
  | some (['0'], r) => some (['0'], r)
  | some ('0' :: _, _) => none
  | other => other

/-- The fraction in front of `s`, if there is a point. -/
def fraction? (s : List Char) : Option (List Char × { r : List Char // r.length ≤ s.length }) :=
  match s with
  | '.' :: r =>
    match digits1? r with
    | some (ds, ⟨r', h⟩) => some (ds, ⟨r', by simp only [List.length_cons]; omega⟩)
    | none => none
  | s => some ([], ⟨s, Nat.le_refl _⟩)

/-- The exponent in front of `s`, if there is an `e`: its sign and its digits. -/
def exponent? (s : List Char) :
    Option (Bool × List Char × { r : List Char // r.length ≤ s.length }) :=
  match s with
  | [] => some (false, [], ⟨[], Nat.le_refl _⟩)
  | c :: r =>
    if c = 'e' || c = 'E' then
      match r with
      | '-' :: r =>
        (digits1? r).map fun (ds, r') =>
          (true, ds, ⟨r'.1, by have := r'.2; simp only [List.length_cons]; omega⟩)
      | '+' :: r =>
        (digits1? r).map fun (ds, r') =>
          (false, ds, ⟨r'.1, by have := r'.2; simp only [List.length_cons]; omega⟩)
      | r =>
        (digits1? r).map fun (ds, r') =>
          (false, ds, ⟨r'.1, by have := r'.2; simp only [List.length_cons]; omega⟩)
    else some (false, [], ⟨c :: r, Nat.le_refl _⟩)

/-- The number in front of `s`, after its sign. -/
def unsigned? (negative : Bool) (s : List Char) : Option (Literal × Rest s) :=
  match whole? s with
  | none => none
  | some (whole, ⟨r, h⟩) =>
    match fraction? r with
    | none => none
    | some (fraction, ⟨r', h'⟩) =>
      match exponent? r' with
      | none => none
      | some (exponentNegative, exponent, ⟨r'', h''⟩) =>
        some ({ negative, whole, fraction, exponentNegative, exponent }, ⟨r'', by omega⟩)

/-- The number in front of `s`. -/
def numberText (s : List Char) : Except Fault (Json × Rest s) :=
  let read : Option (Literal × Rest s) :=
    match s with
    | '-' :: r => (unsigned? true r).map fun (n, rest) => (n, rest.widen (by simp))
    | s => unsigned? false s
  match read with
  | none => .error .badNumber
  | some (n, rest) =>
    if n.isFinite then .ok (.number (String.ofList (s.take (s.length - rest.1.length))), rest)
    else .error .numberOutOfRange

end UtilityCss.Json
