import UtilityCss.Glob.Depth
import UtilityCss.Glob.Parse

/-! Sets of patterns. -/
namespace UtilityCss.Glob

/-- Why there is no set of some patterns. -/
inductive PatternError where
  | malformed (pattern : String) (fault : Fault)
  | tooDeep
  deriving DecidableEq, Repr

/-- Drops every `./` in front: paths are relative and never start with one. -/
def dropHere : List Char → List Char
  | '.' :: '/' :: s => dropHere s
  | s => s

/-- The pattern without `./` in front. -/
def normalize (pattern : String) : String := String.ofList (dropHere pattern.toList)

def PatternError.message : PatternError → String
  | malformed pattern fault =>
    "invalid glob pattern " ++ pattern ++ ": error parsing glob '" ++ normalize pattern ++ "': " ++
      fault.message
  | tooDeep => "failed to build glob set: a pattern exceeds the nesting limit (" ++
      toString maxDepth ++ ")"

/-- Patterns of which at least one has to match. -/
structure PatternSet where
  globs : List (List Token) := []

namespace PatternSet

/-- Patterns are matched with these options. -/
def options : Options := {}

/-- Reads patterns; the first one that cannot be read is reported. -/
def readAll : List String → Except PatternError (List (List Token))
  | [] => .ok []
  | p :: ps =>
    match parse (normalize p) with
    | .error fault => .error (.malformed p fault)
    | .ok ts => (readAll ps).map (ts :: ·)

/-- The set of some patterns. All of them are read before one is found too deep. -/
def ofPatterns (patterns : List String) : Except PatternError PatternSet :=
  match readAll patterns with
  | .error e => .error e
  | .ok globs => if globs.any (isTooDeep options) then .error .tooDeep else .ok { globs }

def isMatch (set : PatternSet) (path : String) : Bool :=
  set.globs.any fun ts => accepts options ts path

variable {patterns : List String} {set : PatternSet} {path : String}

theorem mem_readAll {globs : List (List Token)} (h : readAll patterns = .ok globs) (ts : List Token) :
    ts ∈ globs ↔ ∃ pattern ∈ patterns, parse (normalize pattern) = .ok ts := by
  induction patterns generalizing globs with
  | nil =>
    cases h
    simp
  | cons p ps ih =>
    rw [readAll] at h
    cases hp : parse (normalize p) with
    | error fault =>
      rw [hp] at h
      cases h
    | ok us =>
      rw [hp] at h
      cases hr : readAll ps with
      | error e =>
        rw [hr] at h
        cases h
      | ok rest =>
        rw [hr] at h
        cases h
        simp [ih hr, hp, eq_comm]

theorem ofPatterns_ok : ofPatterns patterns = .ok set ↔
    readAll patterns = .ok set.globs ∧ set.globs.any (isTooDeep options) = false := by
  obtain ⟨globs'⟩ := set
  unfold ofPatterns
  cases readAll patterns with
  | error e => exact iff_of_false nofun fun h => nomatch h.1
  | ok globs =>
    dsimp only
    split
    · rename_i hdeep
      refine iff_of_false nofun ?_
      rintro ⟨⟨⟩, hd⟩
      exact absurd hd (by simp [hdeep])
    · rename_i hdeep
      constructor
      · rintro ⟨⟩
        exact ⟨rfl, Bool.eq_false_iff.mpr hdeep⟩
      · rintro ⟨⟨⟩, -⟩
        rfl

end PatternSet

/-- A path matches some patterns if one of them, without `./` in front, accepts it. -/
def Matches (patterns : List String) (path : String) : Prop :=
  ∃ pattern ∈ patterns, ∃ ts, parse (normalize pattern) = .ok ts ∧ accepts PatternSet.options ts path = true

namespace PatternSet

theorem isMatch_iff {patterns : List String} {set : PatternSet} {path : String} (h : ofPatterns patterns = .ok set) :
    set.isMatch path = true ↔ Matches patterns path := by
  rw [isMatch, List.any_eq_true]
  simp only [mem_readAll (ofPatterns_ok.mp h).1, Matches]
  constructor
  · rintro ⟨ts, ⟨pattern, hmem, hts⟩, haccepts⟩
    exact ⟨pattern, hmem, ts, hts, haccepts⟩
  · rintro ⟨pattern, hmem, ts, hts, haccepts⟩
    exact ⟨ts, ⟨pattern, hmem, hts⟩, haccepts⟩

theorem isMatch_singleton (ts : List Token) (path : String) :
    ({ globs := [ts] } : PatternSet).isMatch path = accepts options ts path := by
  rw [isMatch, List.any_cons, List.any_nil, Bool.or_false]

/-- A pattern that is read and not too deep makes a set of its own. -/
theorem ofPatterns_singleton {pattern : String} {ts : List Token} (hn : normalize pattern = pattern)
    (hp : parse pattern = .ok ts) (hd : isTooDeep options ts = false) :
    ofPatterns [pattern] = .ok { globs := [ts] } := by
  have hread : readAll [pattern] = .ok [ts] := by
    simp only [readAll, hn, hp]
    rfl
  exact ofPatterns_ok.mpr ⟨hread, by simp [hd]⟩

end PatternSet
end UtilityCss.Glob
