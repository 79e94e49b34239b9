import UtilityCss.Watch.Loop
import Mathlib.Data.List.Basic

/-!
# Runs of a watch

A watch goes through moments. Between the steps of the loop, and while it builds, the world puts signals into the queue,
changes the files, or takes the service away. A record counts the builds, and remembers of each signal when it came and
when it was taken off the queue.
-/

namespace UtilityCss.Watch

/-! ## Moments -/

inductive Moment where
  | signal (s : Signal)
  | hangUp
  /-- The files are others now. -/
  | files (t : FileTree)
  /-- The service loses sight of a path and of everything in it. -/
  | lose (p : Path)
  /-- The loop makes its next step. A build lasts from the step that starts it to the step behind it. -/
  | step

namespace Moment

end Moment

namespace Loop

def next (j : Job) (l : Loop) : Moment → Loop
  | .signal s => { l with queue := l.queue ++ [s] }
  | .hangUp => { l with hungUp := true }
  | .files t => { l with tree := t }
  | .lose p => l.unwatch (·.isWithin p)
  | .step => l.step j

def after (j : Job) (l : Loop) (ms : List Moment) : Loop := ms.foldl (next j) l

def isOver (l : Loop) : Bool :=
  match l.phase with
  | .ended _ | .closed => true
  | _ => false

/-- Whether the loop goes on to a build without a further signal. -/
def isDue (l : Loop) : Bool :=
  match l.phase with
  | .settling => true
  | .idle | .draining => l.pending
  | _ => false

/-! ## The steps of the loop as a relation -/

/-- What the next step of the loop can be. -/
inductive Turn (j : Job) (l : Loop) : Loop → Prop where
  | stay (h : l.isWaiting = true) : Turn j l l
  | close (hp : l.phase = .idle ∨ l.phase = .settling) (hq : l.queue = []) : Turn j l { l with phase := .closed }
  | resume (hp : l.phase = .idle) (hd : l.pending = true) : Turn j l { l with pending := false, phase := .settling }
  /-- The loop has waited for `s`. -/
  | wake {s : Signal} {ss : List Signal} (hp : l.phase = .idle) (hd : l.pending = false) (hq : l.queue = s :: ss) :
      Turn j l
        { l with
          queue := ss
          phase := if l.filter.wantsSignal s then .settling else .idle
          log := l.log ++ s.log }
  /-- The loop lets `s` pass. -/
  | pass {s : Signal} {ss : List Signal} (hp : l.phase = .settling) (hq : l.queue = s :: ss) :
      Turn j l { l with queue := ss }
  | start (hp : l.phase = .settling) (hq : l.queue = []) :
      Turn j l { l with phase := .building, log := l.log ++ [.info "change detected, rebuilding..."] }
  | finish (hp : l.phase = .building) : Turn j l (l.build j)
  /-- The loop finds `s` behind a build. -/
  | find {s : Signal} {ss : List Signal} (hp : l.phase = .draining) (hq : l.queue = s :: ss) :
      Turn j l { l with queue := ss, pending := l.pending || l.filter.wantsSignal s }
  | rest (hp : l.phase = .draining) (hq : l.queue = []) : Turn j l { l with phase := .idle }

theorem turn_step (j : Job) (l : Loop) : Turn j l (l.step j) := by
  unfold step
  split
  · rename_i hp
    exact .stay (by simp [isWaiting, hp])
  · rename_i hp
    exact .stay (by simp [isWaiting, hp])
  · rename_i hp
    split
    · exact .resume hp ‹_›
    · rename_i hd
      split
      · rename_i hq
        split
        · exact .close (.inl hp) hq
        · rename_i hup
          exact .stay (by simp [isWaiting, hp, hq, hd, hup])
      · exact .wake hp (Bool.eq_false_iff.mpr hd) ‹_›
  · rename_i hp
    split
    · rename_i hq
      split
      · exact .close (.inr hp) hq
      · exact .start hp hq
    · exact .pass hp ‹_›
  · exact .finish ‹_›
  · rename_i hp
    split
    · exact .rest hp ‹_›
    · exact .find hp ‹_›

variable {j : Job} {l l' : Loop}

theorem Turn.eq_of_isOver (h : Turn j l l') (hl : l.isOver = true) : l' = l := by
  cases h with
  | stay => rfl
  | close hp => rcases hp with hp | hp <;> simp [isOver, hp] at hl
  | resume hp | wake hp | pass hp | start hp | finish hp | find hp | rest hp => simp [isOver, hp] at hl

theorem next_of_isOver (hl : l.isOver = true) (m : Moment) : (l.next j m).isOver = true := by
  cases m with
  | step =>
      rw [next, (turn_step j l).eq_of_isOver hl]
      exact hl
  | _ => exact hl

/-! ## The way to the next build -/

end Loop

/-! ## Records -/

/-- A signal that came, and how many builds had started until then. -/
structure Arrival where
  signal : Signal
  builds : Nat

/-- A signal that was taken off the queue: in which phase, under which filter, and how many builds had started. -/
structure Taking where
  signal : Signal
  phase : Phase
  filter : Filter
  builds : Nat

namespace Taking

def arrival (k : Taking) : Arrival := ⟨k.signal, k.builds⟩

def isWanted (k : Taking) : Bool := k.filter.wantsSignal k.signal

/-- Whether a build has to follow: the filter in force wants the signal, or a build was about to start. -/
def counts (k : Taking) : Bool := k.isWanted || k.phase == .settling

end Taking

structure Record where
  loop : Loop
  arrivals : List Arrival := []
  takings : List Taking := []
  started : Nat := 0
  finished : Nat := 0

namespace Record

/-- What a step to `l'` takes off the queue. -/
def taken (r : Record) (l' : Loop) : List Taking :=
  if l'.queue.length < r.loop.queue.length then
    r.loop.queue.head?.toList.map fun s =>
      { signal := s, phase := r.loop.phase, filter := r.loop.filter, builds := r.started }
  else []

/-- The loop makes a step to `l'`. -/
def advance (r : Record) (l' : Loop) : Record :=
  { loop := l'
    arrivals := r.arrivals
    takings := r.takings ++ r.taken l'
    started := r.started + if l'.phase = .building then 1 else 0
    finished := r.finished + if r.loop.phase = .building then 1 else 0 }

def next (j : Job) (r : Record) (m : Moment) : Record :=
  match m with
  | .step => r.advance (r.loop.step j)
  | .signal s => { r with loop := r.loop.next j (.signal s), arrivals := r.arrivals ++ [⟨s, r.started⟩] }
  | m => { r with loop := r.loop.next j m }

def after (j : Job) (r : Record) (ms : List Moment) : Record := ms.foldl (next j) r

variable {j : Job} {r : Record}

structure Balanced (r : Record) : Prop where
  /-- A build that has started is over before another one starts. -/
  builds : r.started = r.finished + if r.loop.phase = .building then 1 else 0
  /-- What came was taken off in its order, each signal before another build started, or waits in the queue since the
  last build started. -/
  signals : r.arrivals = r.takings.map Taking.arrival ++ r.loop.queue.map (⟨·, r.started⟩)
  past : ∀ k ∈ r.takings, k.builds ≤ r.started
  answered : ∀ k ∈ r.takings, k.counts = true →
    r.loop.isOver = true ∨ r.loop.isDue = true ∨ k.builds < r.started
  due : r.loop.isDue = true → ∃ k ∈ r.takings, k.isWanted = true ∧ k.builds = r.started
  caused : ∀ b < r.started, ∃ k ∈ r.takings, k.isWanted = true ∧ k.builds = b

theorem taken_of_eq {l' : Loop} (hq : l'.queue = r.loop.queue) : r.taken l' = [] := by
  rw [taken, hq, if_neg (Nat.lt_irrefl _)]

theorem taken_of_cons {l' : Loop} {s : Signal} (hq : r.loop.queue = s :: l'.queue) :
    r.taken l' = [{ signal := s, phase := r.loop.phase, filter := r.loop.filter, builds := r.started }] := by
  rw [taken, hq, if_pos (by simp)]
  rfl

namespace Balanced

/-- A step that leaves the queue as it is. -/
theorem quiet {l' : Loop} (h : r.Balanced) (hq : l'.queue = r.loop.queue) (hp : r.loop.phase ≠ .building)
    (hp' : l'.phase ≠ .building)
    (hgo : r.loop.isOver = true ∨ r.loop.isDue = true → l'.isOver = true ∨ l'.isDue = true)
    (hdue : l'.isDue = true → r.loop.isDue = true) : (r.advance l').Balanced := by
  have heq : r.advance l' = { r with loop := l' } := by
    simp [advance, taken_of_eq hq, hp, hp']
  rw [heq]
  exact {
    builds := by rw [h.builds, if_neg hp, if_neg hp']
    signals := by rw [h.signals, hq]
    past := h.past
    answered := fun k hk hc => by
      have hk' := h.answered k hk hc
      rw [← or_assoc] at hk' ⊢
      exact hk'.imp_left hgo
    due := fun hd => h.due (hdue hd)
    caused := h.caused }

theorem take {l' : Loop} {s : Signal} (h : r.Balanced) (hq : r.loop.queue = s :: l'.queue)
    (hp : r.loop.phase ≠ .building) (hp' : l'.phase ≠ .building) (hover : r.loop.isOver = false)
    (hgo : r.loop.isDue = true → l'.isDue = true)
    (hcounts : r.loop.filter.wantsSignal s = true ∨ r.loop.phase = .settling → l'.isDue = true)
    (hdue : l'.isDue = true → r.loop.isDue = true ∨ r.loop.filter.wantsSignal s = true) :
    (r.advance l').Balanced := by
  have heq : r.advance l' =
      { r with
        loop := l'
        takings := r.takings ++
          [{ signal := s, phase := r.loop.phase, filter := r.loop.filter, builds := r.started }] } := by
    simp [advance, taken_of_cons hq, hp, hp']
  rw [heq]
  exact {
    builds := by rw [h.builds, if_neg hp, if_neg hp']
    signals := by
      rw [h.signals, hq]
      simp [Taking.arrival]
    past := fun k hk => by
      rcases List.mem_append.mp hk with hk | hk
      · exact h.past k hk
      · obtain rfl := List.mem_singleton.mp hk
        exact Nat.le_refl _
    answered := fun k hk hc => by
      rcases List.mem_append.mp hk with hk | hk
      · rcases h.answered k hk hc with ho | hd | hb
        · rw [hover] at ho
          cases ho
        · exact .inr (.inl (hgo hd))
        · exact .inr (.inr hb)
      · rw [List.mem_singleton.mp hk] at hc
        exact .inr (.inl (hcounts (by simpa [Taking.counts, Taking.isWanted] using hc)))
    due := fun hd => by
      rcases hdue hd with hd | hw
      · exact (h.due hd).imp fun k hk => ⟨List.mem_append_left _ hk.1, hk.2⟩
      · exact ⟨_, List.mem_append_right _ (List.mem_singleton.mpr rfl), hw, rfl⟩
    caused := fun b hb => (h.caused b hb).imp fun k hk => ⟨List.mem_append_left _ hk.1, hk.2⟩ }

/-- Nothing waits in the queue when a build starts, and something that was taken off it calls for the build. -/
theorem start {l' : Loop} (h : r.Balanced) (hp : r.loop.phase = .settling) (hq : r.loop.queue = [])
    (hq' : l'.queue = []) (hp' : l'.phase = .building) : (r.advance l').Balanced := by
  have heq : r.advance l' = { r with loop := l', started := r.started + 1 } := by
    simp [advance, taken_of_eq (hq'.trans hq.symm), hp, hp']
  rw [heq]
  exact {
    builds := by
      have := h.builds
      simp only [hp, reduceCtorEq, if_false] at this
      simp [hp', this]
    signals := by rw [h.signals, hq, hq', List.map_nil, List.map_nil]
    past := fun k hk => Nat.le_succ_of_le (h.past k hk)
    answered := fun k hk _ => .inr (.inr (Nat.lt_succ_of_le (h.past k hk)))
    due := fun hd => by simp [Loop.isDue, hp'] at hd
    caused := fun b hb => by
      rcases Nat.lt_succ_iff_lt_or_eq.mp hb with hb | rfl
      · exact h.caused b hb
      · exact h.due (by simp [Loop.isDue, hp]) }

theorem finish {l' : Loop} (h : r.Balanced) (hp : r.loop.phase = .building) (hq : l'.queue = r.loop.queue)
    (hn : l'.pending = false) (hp' : l'.phase = .draining ∨ ∃ e, l'.phase = .ended e) : (r.advance l').Balanced := by
  have hbuilding : l'.phase ≠ .building := by
    rcases hp' with hp' | ⟨e, hp'⟩ <;> simp [hp']
  have heq : r.advance l' = { r with loop := l', finished := r.finished + 1 } := by
    simp [advance, taken_of_eq hq, hp, hbuilding]
  rw [heq]
  exact {
    builds := by rw [h.builds, if_pos hp, if_neg hbuilding]
    signals := by rw [h.signals, hq]
    past := h.past
    answered := fun k hk hc => by
      -- While it builds, a loop is neither over nor due.
      rcases h.answered k hk hc with ho | hd | hb
      · simp [Loop.isOver, hp] at ho
      · simp [Loop.isDue, hp] at hd
      · exact .inr (.inr hb)
    due := fun hd => by
      rcases hp' with hp' | ⟨e, hp'⟩ <;> simp [Loop.isDue, hp', hn] at hd
    caused := h.caused }

theorem turn {l' : Loop} (h : r.Balanced) (ht : Loop.Turn j r.loop l') : (r.advance l').Balanced := by
  cases ht with
  | stay hw =>
      have hp : r.loop.phase ≠ .building := fun hp => by simp [Loop.isWaiting, hp] at hw
      exact h.quiet rfl hp hp id id
  | close hp hq =>
      have hp' : r.loop.phase ≠ .building := by
        rcases hp with hp | hp <;> simp [hp]
      exact h.quiet rfl hp' nofun (fun _ => .inl rfl) nofun
  | resume hp hd =>
      exact h.quiet rfl (by simp [hp]) nofun (fun _ => .inr rfl) fun _ => by simp [Loop.isDue, hp, hd]
  | wake hp hd hq =>
      refine h.take hq (by simp [hp]) ?_ (by simp [Loop.isOver, hp]) ?_ ?_ ?_
      · dsimp only
        split <;> exact nofun
      · simp [Loop.isDue, hp, hd]
      · rintro (hw | hs)
        · simp [Loop.isDue, hw]
        · simp [hp] at hs
      · intro hdue
        refine .inr ?_
        by_contra hw
        simp [Loop.isDue, hw, hd] at hdue
  | pass hp hq =>
      have hdue (l : Loop) (hl : l.phase = .settling) : l.isDue = true := by simp [Loop.isDue, hl]
      -- While the files settle a build is due, whatever passes.
      exact h.take hq (by simp [hp]) (by simp [hp]) (by simp [Loop.isOver, hp]) (fun _ => hdue _ hp)
        (fun _ => hdue _ hp) fun _ => .inl (hdue _ hp)
  | start hp hq => exact h.start hp hq hq rfl
  | finish hp => exact h.finish hp (Loop.build_queue _ _) (Loop.build_pending _ _) (Loop.build_phase _ _)
  | find hp hq =>
      refine h.take hq (by simp [hp]) (by simp [hp]) (by simp [Loop.isOver, hp]) ?_ ?_ ?_
      · intro hd
        have hpend : r.loop.pending = true := by simpa [Loop.isDue, hp] using hd
        simp [Loop.isDue, hp, hpend]
      · rintro (hw | hs)
        · simp [Loop.isDue, hp, hw]
        · simp [hp] at hs
      · intro hd
        simpa [Loop.isDue, hp] using hd
  | rest hp hq =>
      exact h.quiet rfl (by simp [hp]) nofun
        (Or.imp (by simp [Loop.isOver, hp]) (by simp [Loop.isDue, hp])) (by simp [Loop.isDue, hp])

theorem next (h : r.Balanced) (m : Moment) : (r.next j m).Balanced := by
  cases m with
  | step => exact h.turn (Loop.turn_step j r.loop)
  | signal s =>
      exact { h with
        signals := by simp [Record.next, Loop.next, h.signals] }
  | hangUp | files | lose => exact ⟨h.builds, h.signals, h.past, h.answered, h.due, h.caused⟩

theorem after (h : r.Balanced) (ms : List Moment) : (r.after j ms).Balanced := by
  induction ms generalizing r with
  | nil => exact h
  | cons m ms ih => exact ih (h.next m)

end Balanced

end Record
end UtilityCss.Watch
