/-! What a page holds back: changes of class attributes until the window since the first of them has
passed, and stylesheet text until the next frame. Instants and windows count one unit of time, which is
the millisecond for the default window. -/
namespace UtilityCss

/-- A node of the page and its class attribute as it is now. -/
structure ClassChange where
  node : Nat
  classes : String
  deriving DecidableEq, Repr

structure Batch where
  window : Nat := 16
  /-- The latest change of each node, in the order of the first ones. -/
  pending : List ClassChange := []
  /-- When the first pending change came. -/
  firstAt : Option Nat := none
  deriving DecidableEq, Repr

namespace Batch

/-- A node that is already there keeps its place and takes the newer classes. -/
def put (c : ClassChange) : List ClassChange → List ClassChange
  | [] => [c]
  | d :: ds => if d.node = c.node then c :: ds else d :: put c ds

def push (c : ClassChange) (now : Nat) (b : Batch) : Batch :=
  { b with pending := put c b.pending, firstAt := some (b.firstAt.getD now) }

/-- Whether the window has passed; a clock that went backwards counts as no time at all. -/
def isReady (now : Nat) (b : Batch) : Bool :=
  b.firstAt.any fun first => b.window ≤ now - first

/-- Takes out what is pending, once the window has passed. -/
def drain (now : Nat) (b : Batch) : Batch × Option (List ClassChange) :=
  if b.isReady now then ({ window := b.window }, some b.pending) else (b, none)

end Batch

/-- Stylesheet text that waits for the next frame. -/
structure FrameQueue where
  pending : String := ""
  /-- Whether a frame was asked for and has not come yet. -/
  requested : Bool := false
  deriving DecidableEq, Repr

namespace FrameQueue

/-- Adds text; also returns whether a frame has to be asked for now. -/
def queue (css : String) (q : FrameQueue) : FrameQueue × Bool :=
  if css.isEmpty then (q, false)
  else ({ pending := q.pending ++ css, requested := true }, !q.requested)

def hasPending (q : FrameQueue) : Bool := !q.pending.isEmpty

/-- The frame has come: returns the text to append, if there is any. -/
def flush (q : FrameQueue) : FrameQueue × Option String :=
  ({}, if q.hasPending then some q.pending else none)

end FrameQueue

end UtilityCss
