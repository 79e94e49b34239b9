import UtilityCss.Page.Batch
import UtilityCss.Stylesheet.Aggregator

/-! A page while it is open: class attributes come in, stylesheet text goes out, and none of it is
ever taken back. The page reports changes and drives time. -/
namespace UtilityCss

structure Session where
  metadata : Metadata
  aggregator : Aggregator := {}
  batch : Batch := {}
  frames : FrameQueue := {}
  /-- The texts appended to the page's stylesheet, in order. -/
  sink : List String := []

namespace Session

/-- Opens a session; the preamble is written at once. -/
def start (m : Metadata) (family url : String) (batch : Batch := {}) : Session :=
  { metadata := m, batch, sink := [preamble family url] }

/-- Everything in the page's stylesheet so far. -/
def css (s : Session) : String := String.join s.sink

/-- The words of class attributes, in order. -/
def tokens (attrs : List String) : List String :=
  attrs.flatMap fun a => (Text.words a.toList).map String.ofList

/-- Takes in class attributes at once; also returns whether a frame has to be asked for. -/
def scan (attrs : List String) (s : Session) : Session × Bool :=
  let (aggregator, delta) := s.aggregator.absorb s.metadata (tokens attrs)
  let (frames, request) := s.frames.queue delta.css
  ({ s with aggregator, frames }, request)

/-- Takes in a change, to be looked at when its batch is due. -/
def observe (c : ClassChange) (now : Nat) (s : Session) : Session :=
  { s with batch := s.batch.push c now }

/-- Takes in the batch if it is due; also returns whether a frame has to be asked for. -/
def tick (now : Nat) (s : Session) : Session × Bool :=
  match s.batch.drain now with
  | (_, none) => (s, false)
  | (batch, some changes) => { s with batch }.scan (changes.map ClassChange.classes)

/-- The frame has come: what waits for it is appended. -/
def onFrame (s : Session) : Session :=
  let (frames, text) := s.frames.flush
  { s with frames, sink := s.sink ++ text.toList }

/-- Puts other metadata in place; what was written stays. -/
def reload (m : Metadata) (s : Session) : Session := { s with metadata := m }

end Session
end UtilityCss
