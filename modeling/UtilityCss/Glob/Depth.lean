import UtilityCss.Glob.Match

/-! How deeply a pattern nests. Each token stands for an expression; an expression that nests too
deeply cannot be matched. -/
namespace UtilityCss.Glob

/-- The deepest nesting that can be matched. -/
def maxDepth : Nat := 250

/-- The number of bytes and ranges of bytes that a range of characters comes to. -/
def rangeItems (range : Char × Char) : Nat :=
  if range.1 = range.2 then range.1.utf8Size else range.1.utf8Size + range.2.utf8Size - 1

/-- The number of expressions that a token adds to the sequence that it is in. -/
def Token.pieces : Token → Nat
  | .literal c => c.utf8Size
  | .deepEnd => 2
  | .alternates branches => if areVoidBranches branches then 0 else 1
  | _ => 1

mutual

/-- How deeply the expression of a token nests: a group counts for one, a choice and a sequence in
it for one more each. -/
def Token.depth (o : Options) : Token → Nat
  | .literal _ => 0
  | .any => if o.separate then 1 else 0
  | .many => if o.separate then 2 else 1
  | .deepStart | .deepMiddle => 4
  | .deepEnd => 1
  | .set _ ranges => if (ranges.map rangeItems).foldr (· + ·) 0 ≤ 1 then 1 else 2
  | .alternates branches =>
    if areVoidBranches branches then 0
    else 1 + (if (branches.filter (!areVoid ·)).length ≤ 1 then 0 else 1) + branchesDepth o branches

/-- The depth of the deepest token. -/
def tokensDepth (o : Options) : List Token → Nat
  | [] => 0
  | t :: ts => max (t.depth o) (tokensDepth o ts)

/-- The depth of the deepest branch; one of several expressions is a sequence. -/
def branchesDepth (o : Options) : List (List Token) → Nat
  | [] => 0
  | ts :: branches =>
    if areVoid ts then branchesDepth o branches
    else
      max ((if (ts.map Token.pieces).foldr (· + ·) 0 ≤ 1 then 0 else 1) + tokensDepth o ts)
        (branchesDepth o branches)

end

/-- Whether a pattern nests too deeply. -/
def isTooDeep (o : Options) (ts : List Token) : Bool := maxDepth < 1 + tokensDepth o ts

end UtilityCss.Glob
