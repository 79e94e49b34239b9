import UtilityCss.Text.Search

/-! Variants of a class: the marks in front of its base that say where its rule applies.

A token is a stack of marks and a base that starts with none. Marks commute, except that of two
breakpoints the one nearer to the base counts. -/
namespace UtilityCss

/-- Responsive breakpoints, in the order in which their media blocks are written. -/
inductive Breakpoint where
  | xs | sm | md | lg | xl
  deriving DecidableEq, Repr

namespace Breakpoint

def all : List Breakpoint := [.xs, .sm, .md, .lg, .xl]

def name : Breakpoint → String
  | xs => "xs"
  | sm => "sm"
  | md => "md"
  | lg => "lg"
  | xl => "xl"

/-- The width from which the breakpoint is in force. -/
def condition : Breakpoint → String
  | xs => "(min-width: 420px)"
  | sm => "(min-width: 640px)"
  | md => "(min-width: 768px)"
  | lg => "(min-width: 1024px)"
  | xl => "(min-width: 1280px)"

def mediaQuery (b : Breakpoint) : String := "@media " ++ b.condition

end Breakpoint

/-- Pseudo-classes, in the order in which a selector names them. -/
inductive PseudoState where
  | hover | focus | active | disabled
  deriving DecidableEq, Repr

namespace PseudoState

def name : PseudoState → String
  | hover => "hover"
  | focus => "focus"
  | active => "active"
  | disabled => "disabled"

def rank : PseudoState → Nat
  | hover => 0
  | focus => 1
  | active => 2
  | disabled => 3

/-- The pseudo-class as a selector writes it. -/
def selector (s : PseudoState) : String := ":" ++ s.name

/-- Adds a state to an ascending list at its place, once. -/
def insert (s : PseudoState) : List PseudoState → List PseudoState
  | [] => [s]
  | t :: ts =>
    if s = t then t :: ts
    else if s.rank < t.rank then s :: t :: ts
    else t :: insert s ts

end PseudoState

/-- One mark in front of a base. -/
inductive Mark where
  | breakpoint (b : Breakpoint)
  | state (s : PseudoState)
  | dark
  deriving DecidableEq, Repr

namespace Mark

/-- The mark as a token writes it. -/
def text : Mark → String
  | breakpoint b => b.name ++ ":"
  | state s => s.name ++ ":"
  | dark => "dark:"

/-- Every mark, in the order in which they are tried. -/
def all : List Mark :=
  [breakpoint .xs, breakpoint .sm, breakpoint .md, breakpoint .lg, breakpoint .xl,
    state .hover, state .focus, state .active, state .disabled, dark]

/-- The mark that `s` starts with, and what follows it. -/
def read? (s : List Char) : Option (Mark × List Char) :=
  all.findSome? fun m => (Text.rest? m.text.toList s).map (m, ·)

theorem text_ne_nil (m : Mark) : m.text.toList ≠ [] := by
  cases m with
  | breakpoint b => cases b <;> decide
  | state s => cases s <;> decide
  | dark => decide

theorem read?_eq_append {s r : List Char} {m : Mark} (h : read? s = some (m, r)) :
    s = m.text.toList ++ r := by
  obtain ⟨m', _, hm⟩ := List.exists_of_findSome?_eq_some h
  simp only [Option.map_eq_some_iff, Prod.mk.injEq] at hm
  obtain ⟨r', hr, rfl, rfl⟩ := hm
  exact Text.rest?_eq_some.mp hr

theorem read?_length {s r : List Char} {m : Mark} (h : read? s = some (m, r)) :
    r.length < s.length := by
  have hs := read?_eq_append h
  have := List.length_pos_iff.mpr (text_ne_nil m)
  rw [hs, List.length_append]
  omega

end Mark

/-- Where a rule applies: at most one media query, a set of pseudo-classes, and whether it needs a
`.dark` ancestor. -/
structure Variant where
  breakpoint : Option Breakpoint := none
  states : List PseudoState := []
  dark : Bool := false
  deriving DecidableEq, Repr

namespace Variant

def isPlain (v : Variant) : Bool := v.breakpoint.isNone && v.states.isEmpty && !v.dark

def mediaQuery (v : Variant) : Option String := v.breakpoint.map Breakpoint.mediaQuery

/-- The pseudo-classes as they follow the class in a selector. -/
def stateSelectors (v : Variant) : String := String.join (v.states.map PseudoState.selector)

/-- The ancestor as it stands before the class in a selector. -/
def ancestor (v : Variant) : String := if v.dark then ".dark " else ""

/-- Adds one mark: a breakpoint replaces the one before it, a state is kept once and in order. -/
def add (v : Variant) : Mark → Variant
  | .breakpoint b => { v with breakpoint := some b }
  | .state s => { v with states := s.insert v.states }
  | .dark => { v with dark := true }

/-- The variant that a stack of marks describes, read from the left. -/
def ofMarks (ms : List Mark) : Variant := ms.foldl add {}

/-- The marks of a variant in their canonical order: breakpoint, dark, states. -/
def marks (v : Variant) : List Mark :=
  (v.breakpoint.map Mark.breakpoint).toList ++ (if v.dark then [Mark.dark] else []) ++
    v.states.map Mark.state

end Variant

/-- Strips marks from the front of `s` for as long as there is one. -/
def splitMarks (s : List Char) : List Mark × List Char :=
  match _h : Mark.read? s with
  | none => ([], s)
  | some (m, rest) =>
    let (ms, base) := splitMarks rest
    (m :: ms, base)
termination_by s.length
decreasing_by exact Mark.read?_length _h

/-- A class as the page writes it, taken apart. -/
structure Token where
  base : String
  variant : Variant
  deriving DecidableEq, Repr

/-- Only icon classes (`if-`) and style classes (`is-`) can get a rule. -/
def isEligible (base : String) : Bool := Text.startsWith "if-" base || Text.startsWith "is-" base

namespace Token

/-- Takes the marks off `token`; what is left is the base. -/
def parse (token : String) : Token :=
  let (ms, base) := splitMarks token.toList
  { base := String.ofList base, variant := Variant.ofMarks ms }

def isEligible (t : Token) : Bool := UtilityCss.isEligible t.base

/-- The token with its marks in canonical order. -/
def display (t : Token) : String := String.join (t.variant.marks.map Mark.text) ++ t.base

end Token

/-- The base of `token`, without its marks. -/
def baseOf (token : String) : String := (Token.parse token).base

end UtilityCss
