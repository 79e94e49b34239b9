import UtilityCss.Text.Reading
import UtilityCss.Text.Search
import UtilityCss.Toml.Basic

/-! TOML literals: booleans, integers, floats, dates and times. A literal ends where none of its
characters can stand, so each reader looks at the whole of it. -/
namespace UtilityCss.Toml

/-- The characters of literals. -/
def isLiteralChar (c : Char) : Bool := c.isAlphanum || c = '_' || c = '+' || c = '-' || c = '.' || c = ':'

/-- A literal without its sign, and whether the sign was a minus. -/
def unsigned : List Char → Bool × List Char
  | '-' :: s => (true, s)
  | '+' :: s => (false, s)
  | s => (false, s)

/-- Runs of digits with single underscores between them. -/
def isRuns (isDigit : Char → Bool) (s : List Char) : Bool :=
  (Text.pieces '_' s).all fun run => !run.isEmpty && run.all isDigit

/-- A whole number in decimal digits; only zero starts with a zero. -/
def isWhole (s : List Char) : Bool := isRuns Char.isDigit s && (s == ['0'] || s.head? != some '0')

/-- The value of digits in a base; underscores count for nothing. -/
def valueIn (base : Nat) (s : List Char) : Nat :=
  (s.filter (· ≠ '_')).foldl (fun n d => n * base + (Text.hexDigit? d).getD 0) 0

/-- An integer of 64 bits. Only decimal ones have a sign. -/
def isInteger (s : List Char) : Bool :=
  let fits (base : Nat) (isDigit : Char → Bool) (ds : List Char) : Bool :=
    isRuns isDigit ds && valueIn base ds < 0x8000000000000000
  match s with
  | '0' :: 'x' :: ds => fits 16 Text.isHexDigit ds
  | '0' :: 'o' :: ds => fits 8 (fun c => c.isDigit && c < '8') ds
  | '0' :: 'b' :: ds => fits 2 (fun c => c = '0' || c = '1') ds
  | s =>
    let (negative, ds) := unsigned s
    isWhole ds &&
      if negative then valueIn 10 ds ≤ 0x8000000000000000 else valueIn 10 ds < 0x8000000000000000

/-- Whether `digits * 10 ^ exponent` rounds to infinity as a 64-bit float. -/
def overflows (digits : List Char) (exponent : Int) : Bool :=
  let n := valueIn 10 digits
  let magnitude : Int := (Nat.repr n).length + exponent
  if n = 0 || magnitude < 300 then false
  else if 320 < magnitude then true
  else
    n * Nat.pow 10 exponent.toNat ≥
      (Nat.pow 2 1024 - Nat.pow 2 970) * Nat.pow 10 (-exponent).toNat

/-- A float: a whole number with a fraction, an exponent or both, or one of the special values. -/
def isFloat (s : List Char) : Bool :=
  let (negative, s) := unsigned s
  if s == "inf".toList || s == "nan".toList then true
  else
    let lower := s.map fun c => if c = 'E' then 'e' else c
    let (mantissa, exponent) := (Text.cutAt? 'e' lower).elim (lower, none) fun (m, e) => (m, some e)
    let (whole, fraction) :=
      (Text.cutAt? '.' mantissa).elim (mantissa, none) fun (w, f) => (w, some f)
    let (exponentNegative, power) := unsigned (exponent.getD ['0'])
    let shift : Int := valueIn 10 power
    let places : Int := (fraction.elim [] (·.filter (· ≠ '_'))).length
    (exponent.isSome || fraction.isSome) && isWhole whole &&
      fraction.all (isRuns Char.isDigit) && isRuns Char.isDigit power &&
      (negative ||
        !overflows (whole ++ fraction.getD []) ((if exponentNegative then -shift else shift) - places))

/-- The number that `n` decimal digits in front of `s` write. -/
def number? (n : Nat) (s : List Char) : Option (Nat × List Char) :=
  let ds := s.take n
  if ds.length = n && ds.all Char.isDigit then some (valueIn 10 ds, s.drop n) else none

def isLeapYear (year : Nat) : Bool := year % 4 = 0 && (year % 100 ≠ 0 || year % 400 = 0)

def daysIn (year month : Nat) : Nat :=
  if month = 2 then (if isLeapYear year then 29 else 28)
  else if [4, 6, 9, 11].contains month then 30
  else 31

/-- What follows the date in front of `s`. -/
def date? (s : List Char) : Option (List Char) := do
  let (year, s) ← number? 4 s
  let s ← Text.rest? ['-'] s
  let (month, s) ← number? 2 s
  let s ← Text.rest? ['-'] s
  let (day, s) ← number? 2 s
  if 1 ≤ month ∧ month ≤ 12 ∧ 1 ≤ day ∧ day ≤ daysIn year month then some s else none

/-- What follows hours and minutes in front of `s`. -/
def hourMinute? (s : List Char) : Option (List Char) := do
  let (hour, s) ← number? 2 s
  let s ← Text.rest? [':'] s
  let (minute, s) ← number? 2 s
  if hour ≤ 23 ∧ minute ≤ 59 then some s else none

/-- What follows the time in front of `s`; a minute may have a leap second. -/
def time? (s : List Char) : Option (List Char) := do
  let s ← hourMinute? s
  let s ← Text.rest? [':'] s
  let (second, s) ← number? 2 s
  guard (second ≤ 60)
  match s with
  | '.' :: c :: s => if c.isDigit then some (s.dropWhile Char.isDigit) else none
  | s => some s

/-- Whether `s` is a time, with or without its distance from universal time. -/
def isZonedTime (s : List Char) : Bool :=
  match time? s with
  | none => false
  | some rest =>
    match rest with
    | [] | ['Z'] | ['z'] => true
    | c :: s => (c = '+' || c = '-') && hourMinute? s == some []

def isDatetime (s : List Char) : Bool :=
  match date? s with
  | some [] => true
  | some (c :: s) => (c = 'T' || c = 't') && isZonedTime s
  | none => time? s == some []

/-- The value of a literal. -/
def literal? (s : List Char) : Option Value :=
  let text := String.ofList s
  if text = "true" then some (.boolean true)
  else if text = "false" then some (.boolean false)
  else if isDatetime s then some (.datetime text)
  else if isFloat s then some (.float text)
  else if isInteger s then some (.integer text)
  else none

end UtilityCss.Toml
