import UtilityCss.Project.Build
import UtilityCss.Project.ConfigFile
import UtilityCss.Watch.Filter

/-! Watching a project: a build at the start, and one more after every change that calls for it.

The loop takes signals off a queue. A wanted event starts a pause in which more of them may come; all
of them are taken off unseen, since the build that follows sees what they did. What comes during that
build is looked at behind it, and calls for at most one more build. -/
namespace UtilityCss.Watch

/-- The service that keeps paths under watch. -/
structure Service where
  /-- Whether the watch on `p` ends when the watch on `dir` is taken away. -/
  ends : (dir p : Path) → Bool

/-- A service that watches each directory below a watched one by itself, and lets them all go together. -/
def Service.nested : Service := ⟨fun dir p => p.isWithin dir⟩

/-- What the service says. -/
inductive Signal where
  | event (e : Event)
  | fault (message : String)
  deriving DecidableEq, Repr

/-- What is watched and how it is built. -/
structure Job where
  root : Path
  configPath : Path
  /-- The pattern from the command line. -/
  glob : Option String
  subsetter : Font.Subsetter
  service : Service := .nested

inductive WatchError where
  | badPattern (e : Glob.PatternError)
  | cannotWatch (dir : Path) (e : FileError)
  deriving DecidableEq, Repr

def WatchError.message : WatchError → String
  | badPattern e => e.message
  | cannotWatch dir e => "failed to watch " ++ dir.text ++ ": " ++ e.message

inductive Phase where
  /-- Waits for a signal. -/
  | idle
  /-- Lets signals pass until they pause. -/
  | settling
  | building
  /-- Looks at what came during the build. -/
  | draining
  | ended (e : WatchError)
  /-- The service is gone. -/
  | closed
  deriving DecidableEq, Repr

structure Loop where
  tree : FileTree
  /-- The filter in force. -/
  filter : Filter
  /-- The directories under watch. -/
  watched : List Path
  /-- Whether the configuration file itself is under watch. -/
  watchesConfig : Bool
  queue : List Signal := []
  /-- Whether the service is gone, so that no more signals come. -/
  hungUp : Bool := false
  /-- Whether something that came during a build calls for another one. -/
  pending : Bool := false
  phase : Phase := .idle
  log : Log := []

namespace Job

/-- What a build in the loop leaves behind. -/
structure Rebuild where
  tree : FileTree
  config : Config
  log : Log

/-- Reads the configuration again and builds; a failure is only logged. -/
def rebuild (j : Job) (t : FileTree) : Rebuild :=
  let (config, warning) := Config.loadLeniently t j.configPath
  let run := Build.run
    { root := j.root, config, globs := config.globsFor j.glob, subsetter := j.subsetter } t
  let failure :=
    match run.result with
    | .ok _ => []
    | .error e => [.error ("build failed: " ++ e.message)]
  { tree := run.tree, config, log := warning ++ run.log ++ failure }

def filter (j : Job) (c : Config) : Except Glob.PatternError Filter :=
  Filter.ofConfig j.root j.configPath c j.glob

end Job

def contains (dirs : List Path) (d : Path) : Bool := dirs.any (·.same d)

/-- The directories that are not among the others. -/
def without (dirs others : List Path) : List Path := dirs.filter fun d => !contains others d

/-- A fault calls for nothing. -/
def Filter.wantsSignal (f : Filter) : Signal → Bool
  | .event e => f.wants e
  | .fault _ => false

/-- What the log says of a signal that the loop waited for. -/
def Signal.log : Signal → Log
  | .event _ => []
  | .fault m => [.warn ("watch error: " ++ m)]

/-- The first of the directories that cannot be watched. -/
def unwatchable? (t : FileTree) : List Path → Option WatchError
  | [] => none
  | d :: ds =>
    match t.node d with
    | .error e => some (.cannotWatch d e)
    | .ok _ => unwatchable? t ds

namespace Loop

/-- Whether the loop does nothing until an event comes. -/
def isWaiting (l : Loop) : Bool :=
  match l.phase with
  | .idle => l.queue.isEmpty && !l.pending && !l.hungUp
  | .ended _ | .closed => true
  | _ => false

/-- Ends the watch on the paths that are gone. -/
def unwatch (gone : Path → Bool) (l : Loop) : Loop :=
  { l with
    watched := l.watched.filter fun d => !gone d
    watchesConfig := l.watchesConfig && !gone l.filter.configPath }

/-- Puts a filter in force, and its directories under watch. Those that it has no more are let go first. -/
def adopt (s : Service) (f : Filter) (l : Loop) : Loop :=
  let new := without f.roots l.filter.roots
  let l := l.unwatch fun p => (without l.filter.roots f.roots).any (s.ends · p)
  match unwatchable? l.tree new with
  | some e => { l with phase := .ended e }
  | none => { l with filter := f, watched := l.watched ++ new, phase := .draining }

/-- Takes the filter of a configuration; where its patterns cannot be read, the old one stays. -/
def refilter (j : Job) (c : Config) (l : Loop) : Loop :=
  match j.filter c with
  | .ok f => l.adopt j.service f
  | .error e =>
    { l with
      log := l.log ++ [.warn ("keeping previous watch globs: " ++ e.message)]
      phase := .draining }

def build (j : Job) (l : Loop) : Loop :=
  let r := j.rebuild l.tree
  refilter j r.config { l with tree := r.tree, log := l.log ++ r.log, pending := false }

/-- One step. A loop that is waiting stays as it is. -/
def step (j : Job) (l : Loop) : Loop :=
  match l.phase with
  | .ended _ | .closed => l
  | .idle =>
    if l.pending then { l with pending := false, phase := .settling }
    else
      match l.queue with
      | [] => if l.hungUp then { l with phase := .closed } else l
      | s :: ss =>
        { l with
          queue := ss
          phase := if l.filter.wantsSignal s then .settling else .idle
          log := l.log ++ Signal.log s }
  | .settling =>
    match l.queue with
    | [] =>
      if l.hungUp then { l with phase := .closed }
      else { l with phase := .building, log := l.log ++ [.info "change detected, rebuilding..."] }
    | _ :: ss => { l with queue := ss }
  | .building => l.build j
  | .draining =>
    match l.queue with
    | [] => { l with phase := .idle }
    | s :: ss => { l with queue := ss, pending := l.pending || l.filter.wantsSignal s }

/-- How far a phase is from the next wait. -/
def Phase.rank : Phase → Nat
  | .settling => 4
  | .building => 3
  | .draining => 2
  | .idle => 1
  | .ended _ | .closed => 0

/-- How many steps a loop can make at most before it waits. -/
def distance (l : Loop) : Nat :=
  8 * l.queue.length + (if l.pending then 4 else 0) + Phase.rank l.phase

theorem adopt_queue (s : Service) (f : Filter) (l : Loop) : (l.adopt s f).queue = l.queue := by
  unfold adopt unwatch
  dsimp only
  split <;> rfl

theorem adopt_pending (s : Service) (f : Filter) (l : Loop) : (l.adopt s f).pending = l.pending := by
  unfold adopt unwatch
  dsimp only
  split <;> rfl

theorem adopt_phase (s : Service) (f : Filter) (l : Loop) :
    (l.adopt s f).phase = .draining ∨ ∃ e, (l.adopt s f).phase = .ended e := by
  unfold adopt
  dsimp only
  split
  · exact .inr ⟨_, rfl⟩
  · exact .inl rfl

theorem refilter_queue (j : Job) (c : Config) (l : Loop) : (l.refilter j c).queue = l.queue := by
  unfold refilter
  split
  · exact adopt_queue _ _ l
  · rfl

theorem refilter_pending (j : Job) (c : Config) (l : Loop) : (l.refilter j c).pending = l.pending := by
  unfold refilter
  split
  · exact adopt_pending _ _ l
  · rfl

theorem refilter_phase (j : Job) (c : Config) (l : Loop) :
    (l.refilter j c).phase = .draining ∨ ∃ e, (l.refilter j c).phase = .ended e := by
  unfold refilter
  split
  · exact adopt_phase _ _ l
  · exact .inl rfl

theorem build_queue (j : Job) (l : Loop) : (l.build j).queue = l.queue := refilter_queue j _ _

theorem build_pending (j : Job) (l : Loop) : (l.build j).pending = false := refilter_pending j _ _

theorem build_phase (j : Job) (l : Loop) :
    (l.build j).phase = .draining ∨ ∃ e, (l.build j).phase = .ended e := refilter_phase j _ _

theorem build_distance (j : Job) (l : Loop) : (l.build j).distance ≤ 8 * l.queue.length + 2 := by
  have hrank : Phase.rank (l.build j).phase ≤ 2 := by
    rcases build_phase j l with h | ⟨e, h⟩ <;> simp [h, Phase.rank]
  simp only [distance, build_queue, build_pending, Bool.false_eq_true, if_false]
  omega

theorem step_distance {j : Job} {l : Loop} (h : l.isWaiting = false) :
    (l.step j).distance < l.distance := by
  unfold isWaiting at h
  unfold step
  split
  · rename_i hp
    simp [hp] at h
  · rename_i hp
    simp [hp] at h
  · rename_i hp
    split
    · rename_i hpend
      simp [distance, hp, hpend, Phase.rank]
    · rename_i hpend
      split
      · rename_i hq
        have hup : l.hungUp = true := by simpa [hp, hq, hpend] using h
        simp [distance, hp, hq, hup, Phase.rank]
      · rename_i s ss hq
        have : Phase.rank (if l.filter.wantsSignal s then .settling else .idle) ≤ 4 := by
          split <;> simp [Phase.rank]
        simp only [distance, hp, hq, hpend, List.length_cons, Phase.rank] at this ⊢
        omega
  · rename_i hp
    split
    · rename_i hq
      split <;> simp [distance, hp, hq, Phase.rank]
    · rename_i hq
      simp only [distance, hp, hq, List.length_cons, Phase.rank]
      omega
  · rename_i hp
    have := build_distance j l
    simp only [distance, hp, Phase.rank] at this ⊢
    omega
  · rename_i hp
    split
    · rename_i hq
      simp [distance, hp, hq, Phase.rank]
    · rename_i hq
      simp only [distance, hp, hq, List.length_cons, Phase.rank]
      split <;> split <;> omega

/-- Steps until the loop waits. -/
def settle (j : Job) (l : Loop) : Loop :=
  if _h : l.isWaiting then l else settle j (l.step j)
termination_by l.distance
decreasing_by exact step_distance (by simpa using _h)

end Loop

/-- The start of a watch: a build, and then the directories under watch. -/
def start (j : Job) (t : FileTree) : Loop :=
  let r := j.rebuild t
  let off : Filter :=
    { root := j.root, configPath := j.configPath, outputDir := j.root, content := {}, roots := [] }
  let l : Loop :=
    { tree := r.tree, filter := off, watched := [], watchesConfig := false, log := r.log }
  match j.filter r.config with
  | .error e => { l with phase := .ended (.badPattern e) }
  | .ok f =>
    match unwatchable? r.tree f.roots with
    | some e => { l with phase := .ended e }
    | none =>
      { l with
        filter := f
        watched := f.roots
        watchesConfig := r.tree.exists? j.configPath
        log := l.log ++ [.info "watching for changes (press Ctrl+C to stop)..."] }

/-- Something that happened to a path of the project. -/
inductive Change where
  | write (path : Path)
  | remove (path : Path)
  deriving DecidableEq, Repr

/-- What is reported of a change to a tree: a write with the directories that it makes, a removal
with everything that goes with it. -/
def Change.events (t : FileTree) : Change → List Event
  | write p =>
    let made := (FileTree.above p.location).filter fun d => (t.get? d).isNone
    made.map (fun d => { kind := .create, paths := [d.path] }) ++
      [{ kind := .modify, paths := [p] }]
  | remove p =>
    (t.below p.location).map fun l => { kind := .remove, paths := [l.path] }

namespace Loop

/-- Whether an event happens where something is under watch. -/
def notices (l : Loop) (e : Event) : Bool :=
  e.paths.any fun p =>
    l.watched.any p.isWithin || (l.watchesConfig && p.same l.filter.configPath)

/-- Queues what is noticed of a change. What is removed is no longer under watch. -/
def note (l : Loop) (c : Change) : Loop :=
  let l := { l with queue := l.queue ++ ((c.events l.tree).filter l.notices).map .event }
  match c with
  | .write _ => l
  | .remove p => l.unwatch (·.isWithin p)

/-- Changes that happen at once, while the loop waits, and all that the loop does about them. They
lead to the tree `after`. -/
def change (j : Job) (changes : List Change) (after : FileTree) (l : Loop) : Loop :=
  settle j { changes.foldl note l with tree := after }

end Loop
end UtilityCss.Watch
