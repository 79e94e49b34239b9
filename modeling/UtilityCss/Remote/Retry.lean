import UtilityCss.Log
import UtilityCss.Metadata
import UtilityCss.Remote.Duration

/-! Fetching a metadata document, with retries after growing pauses. -/
namespace UtilityCss.Remote

/-- The name of a document in the cache and in the log. -/
def key : Document → String
  | .icons => "iconforge_icons"
  | .styles => "iconforge_styles"

/-- Where documents come from. Its answers may depend on all that was asked before. -/
structure Source (σ : Type) where
  fetch : Document → σ → Except String String × σ

structure Policy where
  /-- How often a document is asked for; zero counts as one. -/
  attempts : Nat := 3
  /-- The pause before the first retry. -/
  initial : Duration := .ofSeconds 1

namespace Policy

/-- By how much the pause has grown before retry number `r`: it doubles, up to the greatest number
of 32 bits. -/
def growth (r : Nat) : Nat := if r < 32 then Nat.pow 2 r else 0xFFFFFFFF

/-- The pause before retry number `r`, counted from zero. -/
def backoff (p : Policy) (r : Nat) : Duration := p.initial.scale (growth r)

/-- How many attempts there are. -/
def budget (p : Policy) : Nat := max p.attempts 1

end Policy

/-- One thing that a fetch does. -/
inductive Act where
  | ask (d : Document)
  | pause (t : Duration)
  deriving DecidableEq, Repr

namespace Act

def document? : Act → Option Document
  | ask d => some d
  | pause _ => none

def duration? : Act → Option Duration
  | ask _ => none
  | pause t => some t

end Act

/-- What came of asking for a document. -/
structure Fetch (σ : Type) where
  result : Except String String
  /-- The source afterwards. -/
  state : σ
  /-- What was done, in order. -/
  acts : List Act := []
  log : Log := []

variable {σ : Type}

namespace Fetch

/-- The documents asked for, in order. -/
def calls (f : Fetch σ) : List Document := f.acts.filterMap Act.document?

/-- The pauses, in order. -/
def slept (f : Fetch σ) : List Duration := f.acts.filterMap Act.duration?

end Fetch

/-- The warning about a failed attempt, counted from zero. -/
def attemptFailed (d : Document) (attempt budget : Nat) (cause : String) : LogLine :=
  .warn ("fetching " ++ key d ++ " failed (attempt " ++ toString (attempt + 1) ++ "/" ++
    toString budget ++ "): " ++ cause)

/-- What is said when attempts end without a cause. -/
def noAttempts (d : Document) : String := "no attempts made for " ++ key d

/-- The pause behind a failed attempt, unless it was the last one. -/
def pauseBehind (p : Policy) (attempt : Nat) : List Act :=
  if attempt + 1 < p.budget then [.pause (p.backoff attempt)] else []

/-- The attempts from number `attempt` on, with `left` of them allowed; `last` is the cause of the
latest failure. -/
def tryFetch (source : Source σ) (d : Document) (p : Policy) (attempt : Nat) :
    (left : Nat) → (last : Option String) → σ → Fetch σ
  | 0, last, s => { result := .error (last.getD (noAttempts d)), state := s }
  | left + 1, _, s =>
    match source.fetch d s with
    | (.ok body, s) => { result := .ok body, state := s, acts := [.ask d] }
    | (.error cause, s) =>
      let rest := tryFetch source d p (attempt + 1) left (some cause) s
      { rest with
        acts := .ask d :: (pauseBehind p attempt ++ rest.acts)
        log := attemptFailed d attempt p.budget cause :: rest.log }

/-- Asks for a document until it comes or the attempts are used up; the last cause is kept. -/
def fetch (source : Source σ) (d : Document) (p : Policy) (s : σ) : Fetch σ :=
  tryFetch source d p 0 p.budget none s

end UtilityCss.Remote
