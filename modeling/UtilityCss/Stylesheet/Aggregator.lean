import UtilityCss.Stylesheet.Buckets
import UtilityCss.Text.NameSet

/-! The aggregator turns a stream of tokens into a stylesheet, each token at most once.

A token that contributes nothing is not remembered, so it can be resolved later. Keyframes are
written once for each key. A stylesheet starts with the preamble. -/
namespace UtilityCss

namespace Keyframes

/-- The animation name in front of `s`: what stands before the next blank or opening brace. -/
def name (s : List Char) : List Char :=
  (Text.trimStart s).takeWhile fun c => !(c = '\x7b' || Text.isBlank c)

/-- Blocks with one key are taken to define the same animation. The key is the first animation
name, or the trimmed block if there is none. -/
def key (block : String) : String :=
  let s := Text.trim block.toList
  match Text.after? "@keyframes".toList s with
  | some rest => if (name rest).isEmpty then String.ofList s else String.ofList (name rest)
  | none => String.ofList s

end Keyframes

structure Aggregator where
  /-- The tokens that contributed, in the order in which they did. -/
  resolved : List String := []
  /-- The keys of the keyframes written. -/
  keyframeKeys : List String := []
  /-- The bases of the icons that got a rule. -/
  usedIcons : Text.NameSet := .empty
  buckets : Buckets := {}

namespace Aggregator

/-- What `token` contributes to `a`: nothing if it is empty, already resolved or not eligible. -/
def synthesis (a : Aggregator) (m : Metadata) (token : String) : Synthesis :=
  if token.isEmpty || a.resolved.contains token || !(Token.parse token).isEligible then {}
  else Token.synthesis token m

/-- A keyframes block, if there is one and its key is new. -/
def newKeyframes (a : Aggregator) : Option String → Buckets
  | some block => if a.keyframeKeys.contains (Keyframes.key block) then {} else .ofKeyframes block
  | none => {}

/-- The part of a contribution that is new: keyframes only under a new key. -/
def newBuckets (a : Aggregator) (v : Variant) (s : Synthesis) : Buckets :=
  a.newKeyframes s.keyframes ++ s.rule.elim {} (.ofRule v.breakpoint)

/-- Takes in one token; also returns what is new. The buckets are not touched. -/
def absorbToken (m : Metadata) (a : Aggregator) (token : String) : Aggregator × Buckets :=
  let s := a.synthesis m token
  if s.isEmpty then (a, {})
  else
    let t := Token.parse token
    let delta := a.newBuckets t.variant s
    let icon := s.rule.any (·.kind = .icon)
    ({ a with
       resolved := a.resolved ++ [token]
       keyframeKeys := a.keyframeKeys ++ delta.keyframes.map Keyframes.key
       usedIcons := if icon then a.usedIcons.insert t.base else a.usedIcons }, delta)

/-- Takes in tokens in order and gathers what is new apart from the buckets. -/
def gather (m : Metadata) (tokens : List String) (start : Aggregator × Buckets) :
    Aggregator × Buckets :=
  tokens.foldl (fun (a, delta) token =>
    let (a', new) := a.absorbToken m token
    (a', delta ++ new)) start

/-- Takes in tokens in order; also returns what is new. The buckets are extended once, at the end. -/
def absorb (m : Metadata) (tokens : List String) (a : Aggregator) : Aggregator × Buckets :=
  let (a', delta) := gather m tokens (a, {})
  ({ a' with buckets := a'.buckets ++ delta }, delta)

/-- The eligible tokens among `tokens` that neither were resolved before nor contribute now. -/
def unresolved (m : Metadata) (tokens : List String) (a : Aggregator) : List Token :=
  tokens.filterMap fun token =>
    let t := Token.parse token
    if !token.isEmpty && !a.resolved.contains token && t.isEligible &&
        (Token.synthesis token m).isEmpty then some t
    else none

/-- Everything resolved so far. -/
def stylesheet (a : Aggregator) : String := a.buckets.css

end Aggregator

/-- The head of every stylesheet: the font face of the icons, and the rule that gives it to icon classes. -/
def preamble (family url : String) : String :=
  "@font-face \x7b font-family: '" ++ family ++ "'; src: url('" ++ url ++
    "') format('woff2'); font-style: normal; font-display: block; \x7d\n" ++
    "[class^=\"if-\"], [class*=\" if-\"] \x7b font-family: '" ++ family ++
    "' !important; display: inline-block; font-style: normal; font-weight: normal; " ++
    "font-variant: normal; text-transform: none; line-height: 1; " ++
    "-webkit-font-smoothing: antialiased; -moz-osx-font-smoothing: grayscale; \x7d\n"

end UtilityCss
