import UtilityCss.Arbitrary
import UtilityCss.Metadata
import UtilityCss.Variant

/-! The rule of a token: its selector, and its declarations. A value in brackets is tried first, then the
styles, then the icons. -/
namespace UtilityCss

namespace Selector

/-- The characters with a meaning of their own inside a selector. -/
def isSignificant (c : Char) : Bool :=
  " !\"#$%&'()*+,./:;<=>?@[\\]^`\x7b|\x7d~".toList.contains c

/-- Puts a backslash before a significant character. -/
def escapeChar (c : Char) : List Char := if isSignificant c then ['\\', c] else [c]

/-- The class name as a selector writes it. -/
def escape (name : String) : String := String.ofList (name.toList.flatMap escapeChar)

/-- The selector of `token`'s rule, without a pseudo-element. -/
def ofToken (token : String) (v : Variant) : String :=
  v.ancestor ++ "." ++ escape token ++ v.stateSelectors

end Selector

/-- What a rule was made from. -/
inductive RuleKind where
  | arbitrary | style | icon
  deriving DecidableEq, Repr

structure Rule where
  kind : RuleKind
  selector : String
  declarations : String
  mediaQuery : Option String
  deriving DecidableEq, Repr

namespace Rule

/-- A rule for `token`; that of an icon goes to the pseudo-element in front of the element. -/
def ofToken (kind : RuleKind) (token : String) (v : Variant) (declarations : String) : Rule where
  kind := kind
  selector := Selector.ofToken token v ++ (if kind = .icon then ":before" else "")
  declarations := declarations
  mediaQuery := v.mediaQuery

/-- The rule without its media query. -/
def css (r : Rule) : String := r.selector ++ " \x7b " ++ r.declarations ++ " \x7d"

/-- The rule inside its media query, if it has one. -/
def wrappedCss (r : Rule) : String :=
  match r.mediaQuery with
  | some query => query ++ " \x7b " ++ r.css ++ " \x7d"
  | none => r.css

end Rule

/-- What a token contributes to the stylesheet. -/
structure Synthesis where
  keyframes : Option String := none
  rule : Option Rule := none
  deriving DecidableEq, Repr

def Synthesis.isEmpty (s : Synthesis) : Bool := s.keyframes.isNone && s.rule.isNone

/-- Resolves `token`, whose base is `base`; what no source knows contributes nothing. -/
def synthesize (token base : String) (v : Variant) (m : Metadata) : Synthesis :=
  match Arbitrary.declarationsOf? base with
  | some ds => { rule := some (.ofToken .arbitrary token v ds) }
  | none =>
    match m.style? base with
    | some source =>
      { keyframes := source.keyframes
        rule := source.declarations.map (.ofToken .style token v) }
    | none =>
      match m.icon? base with
      | some source => { rule := source.declarations.map (.ofToken .icon token v) }
      | none => {}

/-- What `token` contributes, its marks taken off. -/
def Token.synthesis (token : String) (m : Metadata) : Synthesis :=
  let t := Token.parse token
  synthesize token t.base t.variant m

end UtilityCss
