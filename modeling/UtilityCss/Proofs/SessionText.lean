import UtilityCss.Page.Session
import UtilityCss.Proofs.Passes
import Mathlib.Data.List.Induction

/-!
# The text of a session

Whatever a page does with a session, and whenever: the text that was appended and the text that waits for a frame
are together the preamble and every delta so far, and exactly one frame is asked for as long as text waits.
-/

namespace UtilityCss

/-! ## The frame queue -/

namespace FrameQueue

variable {q : FrameQueue} {css : String}

theorem queue_empty (q : FrameQueue) : q.queue "" = (q, false) := rfl

theorem queue_of_ne (h : css ≠ "") (q : FrameQueue) :
    q.queue css = ({ pending := q.pending ++ css, requested := true }, !q.requested) := by
  unfold queue
  rw [if_neg fun he => h (String.isEmpty_iff.mp he)]

theorem pending_queue (css : String) (q : FrameQueue) : (q.queue css).1.pending = q.pending ++ css := by
  by_cases h : css = ""
  · rw [h, queue_empty, String.append_empty]
  · rw [queue_of_ne h]

/-- A frame is asked for as long as there is text for it. -/
def Coupled (q : FrameQueue) : Prop := q.requested = true ↔ q.pending ≠ ""

theorem coupled_empty : ({} : FrameQueue).Coupled := iff_of_false Bool.false_ne_true fun hp => hp rfl

theorem Coupled.queue (h : q.Coupled) (css : String) : (q.queue css).1.Coupled := by
  by_cases he : css = ""
  · rw [he, queue_empty]
    exact h
  · rw [queue_of_ne he]
    exact iff_of_true rfl fun hp => he (String.append_eq_empty_iff.mp hp).2

def needed (q : FrameQueue) : Nat := if q.pending = "" then 0 else 1

/-- The answer to new text counts the frame that it needs and that was not asked for. -/
theorem Coupled.needed_queue (h : q.Coupled) (css : String) :
    (q.queue css).1.needed = q.needed + (q.queue css).2.toNat := by
  by_cases he : css = ""
  · rw [he, queue_empty]
    rfl
  · have hn : (q.queue css).1.needed = 1 := by
      rw [queue_of_ne he]
      exact if_neg fun hp => he (String.append_eq_empty_iff.mp hp).2
    rw [hn, queue_of_ne he]
    by_cases hp : q.pending = ""
    · have hr : q.requested = false := Bool.eq_false_iff.mpr fun hr => h.mp hr hp
      simp [needed, hp, hr]
    · simp [needed, hp, h.mpr hp]

theorem hasPending_iff : q.hasPending = true ↔ q.pending ≠ "" := by
  simp [hasPending]

theorem flush_empty (h : q.pending = "") : q.flush = ({}, none) := by
  have hp : q.hasPending = false := Bool.eq_false_iff.mpr fun hp => hasPending_iff.mp hp h
  simp [flush, hp]

theorem flush_of_ne (h : q.pending ≠ "") : q.flush = ({}, some q.pending) := by
  simp [flush, hasPending_iff.mpr h]

theorem join_flush (q : FrameQueue) : String.join q.flush.2.toList = q.pending := by
  by_cases h : q.pending = ""
  · rw [flush_empty h, h]
    rfl
  · rw [flush_of_ne h]
    simp

end FrameQueue

/-- A delta that is written as the empty text is empty: none is lost because its text is not queued. -/
theorem Aggregator.css_delta_eq_empty (m : Metadata) (ts : List String) (a : Aggregator) :
    (a.absorb m ts).2.css = "" ↔ (a.absorb m ts).2 = {} := by
  refine Buckets.css_eq_empty fun p => ?_
  rw [absorb_eq, Buckets.media_ofTokens]
  exact nonEmpty?_ne_nil _

namespace Session

def found (s : Session) (attrs : List String) : Buckets := (s.aggregator.absorb s.metadata (tokens attrs)).2

theorem scan_eq (attrs : List String) (s : Session) :
    s.scan attrs =
      ({ s with
          aggregator := (s.aggregator.absorb s.metadata (tokens attrs)).1
          frames := (s.frames.queue (s.found attrs).css).1 },
        (s.frames.queue (s.found attrs).css).2) := by
  unfold scan found
  rfl

/-- A scan asks for a frame if it found something new and no frame is on its way. -/
theorem scan_requests (attrs : List String) (s : Session) :
    (s.scan attrs).2 = true ↔ s.frames.requested = false ∧ s.found attrs ≠ {} := by
  rw [scan_eq, ne_eq, found, ← Aggregator.css_delta_eq_empty, ← found]
  by_cases h : (s.found attrs).css = ""
  · simp [h, FrameQueue.queue_empty]
  · simp [h, FrameQueue.queue_of_ne h]

/-! ## Transcripts -/

inductive Call where
  | scan (attrs : List String)
  | observe (c : ClassChange) (now : Nat)
  | tick (now : Nat)
  | frame
  | reload (m : Metadata)

def call : Call → Session → Session × Bool
  | .scan attrs, s => s.scan attrs
  | .observe c now, s => (s.observe c now, false)
  | .tick now, s => s.tick now
  | .frame, s => (s.onFrame, false)
  | .reload m, s => (s.reload m, false)

/-- The class attributes that a call takes in. -/
def attributes? : Call → Session → Option (List String)
  | .scan attrs, _ => some attrs
  | .tick now, s => (s.batch.drain now).2.map (·.map ClassChange.classes)
  | _, _ => none

def delta? (c : Call) (s : Session) : Option Buckets := (s.attributes? c).map s.found

structure Transcript where
  session : Session
  deltas : List Buckets := []
  /-- How many calls asked for a frame since the last one came. -/
  requests : Nat := 0

def Transcript.next (t : Transcript) (c : Call) : Transcript where
  session := (t.session.call c).1
  deltas := t.deltas ++ (t.session.delta? c).toList
  requests :=
    match c with
    | .frame => 0
    | _ => t.requests + (t.session.call c).2.toNat

def transcript (s : Session) (cs : List Call) : Transcript := cs.foldl Transcript.next { session := s }

/-! ## What every call keeps -/

/-- No text is lost, doubled or out of order, and the frames that were asked for are those that are needed. -/
structure Transcript.Balanced (head : String) (t : Transcript) : Prop where
  text : t.session.css ++ t.session.frames.pending = head ++ String.join (t.deltas.map Buckets.css)
  requested : t.session.frames.Coupled
  requests : t.requests = t.session.frames.needed
  /-- The deltas are all that the aggregator holds. -/
  deltas : t.deltas.foldl (· ++ ·) {} = t.session.aggregator.buckets

variable {head : String} {t : Transcript}

theorem Transcript.Balanced.start (m : Metadata) (family url : String) (batch : Batch) :
    Transcript.Balanced (preamble family url) { session := Session.start m family url batch } where
  text := by simp [css, Session.start]
  requested := FrameQueue.coupled_empty
  requests := rfl
  deltas := rfl

theorem css_onFrame (s : Session) : s.onFrame.css = s.css ++ s.frames.pending := by
  have h : s.onFrame.css = String.join (s.sink ++ s.frames.flush.2.toList) := rfl
  rw [h, String.join_append, FrameQueue.join_flush, css]

/-- What the page wrote and what it asked for do not depend on the batch and the metadata. -/
theorem Transcript.Balanced.congr (h : t.Balanced head) {s : Session} (ha : s.aggregator = t.session.aggregator)
    (hf : s.frames = t.session.frames) (hk : s.sink = t.session.sink) :
    Transcript.Balanced head { t with session := s } where
  text := by rw [css, hk, hf]; exact h.text
  requested := by rw [hf]; exact h.requested
  requests := by rw [hf]; exact h.requests
  deltas := by rw [ha]; exact h.deltas

theorem Transcript.Balanced.scan (h : t.Balanced head) (attrs : List String) :
    Transcript.Balanced head {
      session := (t.session.scan attrs).1
      deltas := t.deltas ++ [t.session.found attrs]
      requests := t.requests + (t.session.scan attrs).2.toNat } := by
  rw [scan_eq]
  exact {
    text := by
      have hc : t.session.css ++ (t.session.frames.pending ++ (t.session.found attrs).css) =
          head ++ String.join ((t.deltas ++ [t.session.found attrs]).map Buckets.css) := by
        rw [← String.append_assoc, h.text]
        simp [String.append_assoc]
      rw [← FrameQueue.pending_queue] at hc
      exact hc
    requested := FrameQueue.Coupled.queue h.requested _
    requests := by
      rw [h.requests]
      exact (FrameQueue.Coupled.needed_queue h.requested _).symm
    deltas := by
      rw [List.foldl_append, h.deltas, List.foldl_cons, List.foldl_nil, found]
      exact (Aggregator.buckets_absorb t.session.metadata (tokens attrs) t.session.aggregator).symm }

theorem Transcript.Balanced.next (h : t.Balanced head) (c : Call) : (t.next c).Balanced head := by
  cases c with
  | scan attrs => exact h.scan attrs
  | observe c now =>
      have hn : t.next (.observe c now) = { t with session := t.session.observe c now } := by
        simp [Transcript.next, call, delta?, attributes?]
      rw [hn]
      exact h.congr rfl rfl rfl
  | tick now =>
      cases hd : t.session.batch.drain now with
      | mk batch changes =>
          cases changes with
          | none =>
              have hn : t.next (.tick now) = t := by
                simp [Transcript.next, call, delta?, attributes?, tick, hd]
              rw [hn]
              exact h
          | some changes =>
              -- A tick that is due is a scan on the session with an empty batch.
              have hs : t.session.tick now = { t.session with batch }.scan (changes.map ClassChange.classes) := by
                simp [tick, hd]
              have hn : t.next (.tick now) =
                  { t with session := { t.session with batch } }.next (.scan (changes.map ClassChange.classes)) := by
                simp [Transcript.next, call, delta?, attributes?, found, hs, hd]
              rw [hn]
              exact (h.congr (s := { t.session with batch }) rfl rfl rfl).scan (changes.map ClassChange.classes)
  | frame =>
      have hn : t.next .frame = { t with session := t.session.onFrame, requests := 0 } := by
        simp [Transcript.next, call, delta?, attributes?]
      rw [hn]
      exact {
        text := by
          rw [css_onFrame, h.text]
          exact String.append_empty
        requested := FrameQueue.coupled_empty
        requests := rfl
        deltas := h.deltas }
  | reload m =>
      have hn : t.next (.reload m) = { t with session := t.session.reload m } := by
        simp [Transcript.next, call, delta?, attributes?]
      rw [hn]
      exact h.congr rfl rfl rfl

/-! ## Runs -/

theorem transcript_snoc (s : Session) (cs : List Call) (c : Call) :
    transcript s (cs ++ [c]) = (transcript s cs).next c :=
  List.foldl_append

theorem balanced_transcript (m : Metadata) (family url : String) (batch : Batch) (cs : List Call) :
    (transcript (start m family url batch) cs).Balanced (preamble family url) := by
  induction cs using List.reverseRecOn with
  | nil => exact Transcript.Balanced.start m family url batch
  | append_singleton cs c ih =>
      rw [transcript_snoc]
      exact ih.next c

theorem sink_call (c : Call) (s : Session) : s.sink <+: (s.call c).1.sink := by
  cases c with
  | scan attrs => exact List.prefix_refl _
  | observe c now => exact List.prefix_refl _
  | tick now =>
      have h : (s.tick now).1.sink = s.sink := by
        unfold tick
        split <;> rfl
      exact h ▸ List.prefix_refl _
  | frame => exact List.prefix_append _ _
  | reload m => exact List.prefix_refl _

theorem sink_transcript (s : Session) (cs ds : List Call) :
    (transcript s cs).session.sink <+: (transcript s (cs ++ ds)).session.sink := by
  induction ds using List.reverseRecOn with
  | nil => simp
  | append_singleton ds d ih =>
      rw [← List.append_assoc, transcript_snoc]
      exact ih.trans (sink_call d _)

/-- After any calls to a session: nothing that was generated is missing from the text, the text that was appended
stays, and a frame that comes now leaves nothing behind. -/
theorem session_conserves_text (m : Metadata) (family url : String) (window : Nat) (cs : List Call) :
    let after := transcript (start m family url { window })
    (after cs).Balanced (preamble family url) ∧
      (∀ ds, (after cs).session.sink <+: (after (cs ++ ds)).session.sink) ∧
      (after (cs ++ [.frame])).session.frames = {} ∧
      (after (cs ++ [.frame])).session.css = preamble family url ++ String.join ((after cs).deltas.map Buckets.css) := by
  intro after
  have h : (after cs).Balanced (preamble family url) := balanced_transcript m family url { window } cs
  refine ⟨h, sink_transcript _ cs, ?_⟩
  have hf : (after (cs ++ [.frame])).session = (after cs).session.onFrame := by
    simp only [after, transcript_snoc]
    rfl
  rw [hf, css_onFrame]
  exact ⟨rfl, h.text⟩

end Session
end UtilityCss
