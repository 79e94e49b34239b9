import UtilityCss.Remote.Retry

/-! The metadata of a page session: from the cache if both documents are there, else fetched. A page
whose metadata cannot be had goes on with none. -/
namespace UtilityCss.Remote

/-- The cache of a page session: texts under keys, none of them longer than a ceiling. -/
structure Cache where
  /-- The most bytes that an entry may have. -/
  ceiling : Nat := 5 * 1024 * 1024
  entries : List (String × String) := []
  deriving DecidableEq, Repr

namespace Cache

def get? (c : Cache) (key : String) : Option String := c.entries.lookup key

/-- Whether a text is short enough to be kept. -/
def fits (c : Cache) (value : String) : Bool := value.utf8ByteSize ≤ c.ceiling

/-- Stores `value` if it fits; an entry that is already there is replaced only then. -/
def put (key value : String) (c : Cache) : Cache × Log :=
  if c.fits value then
    ({ c with entries := (key, value) :: c.entries.filter (·.1 ≠ key) }, [])
  else
    (c, [.warn ("skipping cache write for " ++ key ++ ": " ++ toString value.utf8ByteSize ++
      " bytes")])

end Cache

/-- What came of loading metadata. -/
structure Load (σ : Type) where
  metadata : Metadata
  cache : Cache
  /-- The source afterwards. -/
  state : σ
  calls : List Document := []
  slept : List Duration := []
  log : Log := []

variable {σ : Type}

/-- The metadata in the cache; if its texts do not parse there is a warning instead. -/
def cached (c : Cache) : Option Metadata × Log :=
  match c.get? (key .icons), c.get? (key .styles) with
  | some icons, some styles =>
    match Metadata.ofJson icons styles with
    | .ok m => (some m, [])
    | .error e => (none, [.warn ("ignoring cached metadata: " ++ e.message)])
  | _, _ => (none, [])

def loadFailed (cause : String) : LogLine := .warn ("Failed to load meta data: " ++ cause)

/-- Reads two documents that were fetched together, and stores them if they can be read. -/
def accept (icons styles : String) (c : Cache) : Metadata × Cache × Log :=
  match Metadata.ofJson icons styles with
  | .error e => ({}, c, [loadFailed e.message])
  | .ok m =>
    let (c, log) := c.put (key .icons) icons
    let (c, log') := c.put (key .styles) styles
    (m, c, log ++ log')

/-- Fetches both documents, the icons first. -/
def fetchBoth (source : Source σ) (p : Policy) (c : Cache) (s : σ) : Load σ :=
  let first := fetch source .icons p s
  match first.result with
  | .error cause =>
    { metadata := {}, cache := c, state := first.state, calls := first.calls, slept := first.slept,
      log := first.log ++ [loadFailed cause] }
  | .ok icons =>
    let second := fetch source .styles p first.state
    let calls := first.calls ++ second.calls
    let slept := first.slept ++ second.slept
    let log := first.log ++ second.log
    match second.result with
    | .error cause =>
      { metadata := {}, cache := c, state := second.state, calls, slept,
        log := log ++ [loadFailed cause] }
    | .ok styles =>
      let (m, c, log') := accept icons styles c
      { metadata := m, cache := c, state := second.state, calls, slept, log := log ++ log' }

/-- Loads the metadata of a session. -/
def load (source : Source σ) (p : Policy) (c : Cache) (s : σ) : Load σ :=
  match cached c with
  | (some m, _) => { metadata := m, cache := c, state := s }
  | (none, log) =>
    let run := fetchBoth source p c s
    { run with log := log ++ run.log }

end UtilityCss.Remote
