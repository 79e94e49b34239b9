import UtilityCss.Rule

/-! Rules by the place where the stylesheet writes them. -/
namespace UtilityCss

/-- One value for each breakpoint. -/
structure ByBreakpoint (α : Type) where
  xs : α
  sm : α
  md : α
  lg : α
  xl : α
  deriving DecidableEq, Repr

namespace ByBreakpoint

variable {α : Type}

def fill (a : α) : ByBreakpoint α := ⟨a, a, a, a, a⟩

def get (m : ByBreakpoint α) : Breakpoint → α
  | .xs => m.xs
  | .sm => m.sm
  | .md => m.md
  | .lg => m.lg
  | .xl => m.xl

def ofFn (f : Breakpoint → α) : ByBreakpoint α := ⟨f .xs, f .sm, f .md, f .lg, f .xl⟩

def set (m : ByBreakpoint α) (b : Breakpoint) (a : α) : ByBreakpoint α :=
  ofFn fun b' => if b' = b then a else m.get b'

@[simp] theorem get_fill (a : α) (b : Breakpoint) : (fill a).get b = a := by cases b <;> rfl

@[simp] theorem get_ofFn (f : Breakpoint → α) (b : Breakpoint) : (ofFn f).get b = f b := by
  cases b <;> rfl

@[simp] theorem get_set (m : ByBreakpoint α) (b b' : Breakpoint) (a : α) :
    (m.set b a).get b' = if b' = b then a else m.get b' := by simp [set]

end ByBreakpoint

/-- Keyframes, rules for any width, and the rules of each breakpoint that has a block. -/
structure Buckets where
  keyframes : List String := []
  plain : List String := []
  media : ByBreakpoint (Option (List String)) := .fill none
  deriving DecidableEq, Repr

namespace Buckets

def isEmpty (b : Buckets) : Bool :=
  b.keyframes.isEmpty && b.plain.isEmpty && Breakpoint.all.all fun p => (b.media.get p).isNone

def ruleCount (b : Buckets) : Nat :=
  b.plain.length + (Breakpoint.all.map fun p => ((b.media.get p).getD []).length).foldr (· + ·) 0

/-- Bucket by bucket, what is in the second after what is in the first. -/
def append (a b : Buckets) : Buckets where
  keyframes := a.keyframes ++ b.keyframes
  plain := a.plain ++ b.plain
  media := .ofFn fun p => (a.media.get p).merge (· ++ ·) (b.media.get p)

instance : Append Buckets := ⟨append⟩

/-- A keyframes block alone. -/
def ofKeyframes (block : String) : Buckets := { keyframes := [block] }

/-- A rule alone, in the bucket of its breakpoint. -/
def ofRule (b : Option Breakpoint) (r : Rule) : Buckets :=
  match b with
  | none => { plain := [r.css] }
  | some p => { media := (ByBreakpoint.fill none).set p (some [r.css]) }

def lines (ls : List String) : String := String.join (ls.map (· ++ "\n"))

/-- The block of a breakpoint, its rules indented; nothing if there are none. -/
def mediaBlock (p : Breakpoint) : List String → String
  | [] => ""
  | rules => p.mediaQuery ++ " \x7b\n" ++ lines (rules.map ("  " ++ ·)) ++ "\x7d\n"

/-- Keyframes, then plain rules, then the blocks in ascending order of the breakpoints. -/
def css (b : Buckets) : String :=
  lines b.keyframes ++ lines b.plain ++
    String.join (Breakpoint.all.map fun p => mediaBlock p ((b.media.get p).getD []))

end Buckets
end UtilityCss
