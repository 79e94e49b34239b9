import UtilityCss.Page.Batch
import UtilityCss.Proofs.Firsts
import Mathlib.Data.List.Induction

/-!
# What waits in a batch

What waits is told by the changes that were pushed since something was last taken out: every node stands where it was
pushed first, with the classes that it was pushed with last, and the window began with the first push.
-/

namespace UtilityCss
namespace Batch

/-! ## Putting -/

section

variable {c : ClassChange} {ds : List ClassChange}

theorem put_of_not_mem (h : c.node ∉ ds.map ClassChange.node) : put c ds = ds ++ [c] := by
  induction ds with
  | nil => rfl
  | cons d ds ih =>
      rw [List.map_cons, List.mem_cons, not_or] at h
      rw [put, if_neg (Ne.symm h.1), ih h.2, List.cons_append]

theorem put_of_mem (hn : (ds.map ClassChange.node).Nodup) (h : c.node ∈ ds.map ClassChange.node) :
    put c ds = ds.map fun d => if d.node = c.node then c else d := by
  induction ds with
  | nil => cases h
  | cons d ds ih =>
      rw [List.map_cons, List.nodup_cons] at hn
      by_cases hd : d.node = c.node
      · have hrest : ds.map (fun e => if e.node = c.node then c else e) = ds.map id := by
          refine List.map_congr_left fun e he => if_neg fun hec => hn.1 ?_
          rw [hd, ← hec]
          exact List.mem_map_of_mem he
        rw [put, if_pos hd, List.map_cons, if_pos hd, hrest, List.map_id]
      · rw [List.map_cons, List.mem_cons] at h
        rw [put, if_neg hd, List.map_cons, if_neg hd, ih hn.2 (h.resolve_left (Ne.symm hd))]

end

/-! ## What was pushed -/

structure Push where
  change : ClassChange
  now : Nat

def Push.node (p : Push) : Nat := p.change.node

/-- The nodes that were pushed, in the order of their first pushes. -/
def nodes (ps : List Push) : List Nat := (firstsBy Push.node [] ps).map Push.node

/-- The classes that a node was pushed with last. -/
def latest? (ps : List Push) (n : Nat) : Option String := (ps.filter (·.node = n)).getLast?.map (·.change.classes)

/-- One change for each node that was pushed, where it was pushed first and as it was pushed last. -/
def waiting (ps : List Push) : List ClassChange :=
  (nodes ps).filterMap fun n => (latest? ps n).map (ClassChange.mk n)

section

variable {ps : List Push} {p : Push} {n : Nat}

theorem mem_nodes : n ∈ nodes ps ↔ ∃ p ∈ ps, p.node = n := by
  rw [nodes, mem_map_firstsBy]
  simp

theorem nodup_nodes (ps : List Push) : (nodes ps).Nodup := nodup_map_firstsBy _ [] ps

theorem nodes_snoc_of_mem (h : p.node ∈ nodes ps) : nodes (ps ++ [p]) = nodes ps := by
  unfold nodes at h ⊢
  rw [firstsBy_append, List.nil_append, firstsBy_cons_of_mem h, firstsBy_nil, List.append_nil]

theorem nodes_snoc_of_not_mem (h : p.node ∉ nodes ps) : nodes (ps ++ [p]) = nodes ps ++ [p.node] := by
  unfold nodes at h ⊢
  rw [firstsBy_append, List.nil_append, firstsBy_cons_of_not_mem h, firstsBy_nil, List.map_append, List.map_singleton]

theorem latest?_snoc (ps : List Push) (p : Push) (n : Nat) :
    latest? (ps ++ [p]) n = if p.node = n then some p.change.classes else latest? ps n := by
  by_cases h : p.node = n <;> simp [latest?, h]

theorem exists_latest? (h : n ∈ nodes ps) : ∃ classes, latest? ps n = some classes := by
  obtain ⟨p, hp, hn⟩ := mem_nodes.mp h
  have hne : ps.filter (·.node = n) ≠ [] := List.ne_nil_of_mem (List.mem_filter.mpr ⟨hp, decide_eq_true hn⟩)
  exact ⟨_, by rw [latest?, List.getLast?_eq_some_getLast hne, Option.map_some]⟩

theorem map_node_waiting (ps : List Push) : (waiting ps).map ClassChange.node = nodes ps := by
  rw [waiting, List.map_filterMap]
  refine Eq.trans (List.filterMap_congr fun n hn => ?_) List.filterMap_some
  obtain ⟨classes, hc⟩ := exists_latest? hn
  rw [hc]
  rfl

theorem waiting_eq_nil : waiting ps = [] ↔ ps = [] := by
  constructor
  · intro h
    refine List.eq_nil_iff_forall_not_mem.mpr fun p hp => ?_
    have hn : p.node ∈ nodes ps := mem_nodes.mpr ⟨p, hp, rfl⟩
    rw [← map_node_waiting, h] at hn
    cases hn
  · rintro rfl
    rfl

/-- A push changes what waits as it changes a batch. -/
theorem waiting_snoc (ps : List Push) (p : Push) : waiting (ps ++ [p]) = put p.change (waiting ps) := by
  have hnode : p.change.node = p.node := rfl
  by_cases h : p.node ∈ nodes ps
  · rw [put_of_mem (by rw [map_node_waiting]; exact nodup_nodes ps) (by rw [map_node_waiting]; exact h), waiting,
      nodes_snoc_of_mem h, waiting, List.map_filterMap]
    refine List.filterMap_congr fun n hn => ?_
    obtain ⟨classes, hc⟩ := exists_latest? hn
    rw [latest?_snoc, hc]
    by_cases hp : p.node = n
    · subst hp
      simp [Push.node]
    · simp [hp, hnode, Ne.symm hp]
  · rw [put_of_not_mem (by rw [map_node_waiting]; exact h), waiting, nodes_snoc_of_not_mem h, List.filterMap_append,
      waiting]
    congr 1
    · refine List.filterMap_congr fun n hn => ?_
      have hp : p.node ≠ n := fun hp => h (hp ▸ hn)
      rw [latest?_snoc, if_neg hp]
    · rw [List.filterMap_cons, List.filterMap_nil, latest?_snoc, if_pos rfl]
      rfl

end

/-! ## Runs -/

inductive Call where
  | push (c : ClassChange) (now : Nat)
  | isReady (now : Nat)
  | drain (now : Nat)

def Call.now : Call → Nat
  | push _ now => now
  | isReady now => now
  | drain now => now

/-- A batch, and what was pushed since something was last taken out of it. -/
structure Run where
  batch : Batch
  since : List Push := []

def Run.next (r : Run) : Call → Run
  | .push c now => { batch := r.batch.push c now, since := r.since ++ [⟨c, now⟩] }
  | .isReady _ => r
  | .drain now =>
    { batch := (r.batch.drain now).1
      since := if (r.batch.drain now).2.isSome then [] else r.since }

def run (window : Nat) (cs : List Call) : Run := cs.foldl Run.next { batch := { window } }

theorem run_snoc (window : Nat) (cs : List Call) (c : Call) : run window (cs ++ [c]) = (run window cs).next c :=
  List.foldl_append

theorem drain_of_ready {b : Batch} {now : Nat} (h : b.isReady now = true) :
    b.drain now = ({ window := b.window }, some b.pending) := if_pos h

theorem drain_of_not_ready {b : Batch} {now : Nat} (h : ¬ b.isReady now = true) : b.drain now = (b, none) := if_neg h

/-- What a batch holds is told by the pushes since something was last taken out. -/
structure Run.Tracks (window : Nat) (r : Run) : Prop where
  span : r.batch.window = window
  firstAt : r.batch.firstAt = r.since.head?.map Push.now
  pending : r.batch.pending = waiting r.since

theorem Run.Tracks.start (window : Nat) : Run.Tracks window { batch := { window } } where
  span := rfl
  firstAt := rfl
  pending := rfl

theorem Run.Tracks.next {window : Nat} {r : Run} (h : r.Tracks window) (c : Call) : (r.next c).Tracks window := by
  cases c with
  | push c now =>
      exact {
        span := h.span
        firstAt := by
          simp only [Run.next, push, h.firstAt]
          cases r.since <;> rfl
        pending := by
          simp only [Run.next, push, h.pending]
          exact (waiting_snoc r.since ⟨c, now⟩).symm }
  | isReady now => exact h
  | drain now =>
      by_cases hr : r.batch.isReady now = true
      · simp only [Run.next, drain_of_ready hr, h.span]
        exact .start window
      · simp only [Run.next, drain_of_not_ready hr]
        exact h

theorem run_tracks (window : Nat) (cs : List Call) : (run window cs).Tracks window := by
  induction cs using List.reverseRecOn with
  | nil => exact .start window
  | append_singleton cs c ih =>
      rw [run_snoc]
      exact ih.next c

/-! ## Draining -/

/-- Something waits, and since the first push there was as much time as the window; a clock that went backwards counts
as no time. -/
def Due (b : Batch) (now : Nat) : Prop := b.pending ≠ [] ∧ ∃ first, b.firstAt = some first ∧ b.window ≤ now - first

theorem Run.Tracks.ready_iff {window : Nat} {r : Run} (h : r.Tracks window) (now : Nat) :
    r.batch.isReady now = true ↔ r.batch.Due now := by
  have hf := h.firstAt
  have hp := h.pending
  cases hs : r.since with
  | nil =>
      rw [hs] at hf hp
      refine iff_of_false ?_ fun hd => hd.1 hp
      simp [isReady, hf]
  | cons p ps =>
      have hne : r.batch.pending ≠ [] := by
        rw [hp, ne_eq, waiting_eq_nil, hs]
        exact List.cons_ne_nil p ps
      simp [isReady, Due, hf, hs, hne]

/-- What every run leaves behind. The pushes since something was last taken out say what waits and when it is due, and
all of it is taken out at once. -/
structure Run.Orderly (window : Nat) (r : Run) : Prop extends r.Tracks window where
  opened : r.batch.firstAt.isSome ↔ r.batch.pending ≠ []
  nodup : (r.batch.pending.map ClassChange.node).Nodup
  ready : ∀ now, r.batch.isReady now = true ↔ r.batch.Due now
  taken : ∀ now, r.batch.Due now → r.batch.drain now = ({ window }, some (waiting r.since))
  kept : ∀ now, ¬ r.batch.Due now → r.batch.drain now = (r.batch, none)

theorem Run.Tracks.orderly {window : Nat} {r : Run} (h : r.Tracks window) : r.Orderly window where
  toTracks := h
  opened := by
    rw [h.firstAt, h.pending, ne_eq, waiting_eq_nil]
    cases r.since <;> simp
  nodup := by
    rw [h.pending, map_node_waiting]
    exact nodup_nodes r.since
  ready := h.ready_iff
  taken := fun now hd => by rw [drain_of_ready ((h.ready_iff now).mpr hd), h.span, h.pending]
  kept := fun now hd => drain_of_not_ready (mt (h.ready_iff now).mp hd)

/-! ## When a node is taken out -/

/-- Whether `n` is among what a drain takes out now. -/
def Run.Releases (r : Run) (now n : Nat) : Prop :=
  ∃ changes, (r.batch.drain now).2 = some changes ∧ n ∈ changes.map ClassChange.node

variable {window : Nat} {r : Run}

theorem Run.Tracks.releases (h : r.Tracks window) {p : Push} {now : Nat} (hp : p ∈ r.since) (hd : r.batch.Due now) :
    r.Releases now p.node := by
  refine ⟨waiting r.since, by rw [h.orderly.taken now hd], ?_⟩
  rw [map_node_waiting]
  exact mem_nodes.mpr ⟨p, hp, rfl⟩

/-- A push is still there, or a drain took its node out. -/
theorem push_stays (window : Nat) (cs ds : List Call) (c : ClassChange) (t : Nat) :
    (∃ before t' after, ds = before ++ .drain t' :: after ∧
        (run window (cs ++ .push c t :: before)).Releases t' c.node) ∨
      ⟨c, t⟩ ∈ (run window (cs ++ .push c t :: ds)).since := by
  induction ds using List.reverseRecOn with
  | nil =>
      right
      rw [run_snoc]
      exact List.mem_append_right _ List.mem_cons_self
  | append_singleton ds d ih =>
      rcases ih with ⟨before, t', after, rfl, hr⟩ | hs
      · exact Or.inl ⟨before, t', after ++ [d], by simp, hr⟩
      · have hrun : run window (cs ++ .push c t :: (ds ++ [d])) = (run window (cs ++ .push c t :: ds)).next d := by
          rw [← run_snoc, List.append_assoc, List.cons_append]
        cases d with
        | push c' now =>
            right
            rw [hrun]
            exact List.mem_append_left _ hs
        | isReady now =>
            right
            rw [hrun]
            exact hs
        | drain now =>
            have htracks := run_tracks window (cs ++ .push c t :: ds)
            by_cases hd : (run window (cs ++ .push c t :: ds)).batch.Due now
            · exact Or.inl ⟨ds, now, [], rfl, htracks.releases hs hd⟩
            · right
              rw [hrun]
              simp only [Run.next, htracks.orderly.kept now hd]
              exact hs

theorem since_sublist (window : Nat) (cs : List Call) :
    ((run window cs).since.map Push.now).Sublist (cs.map Call.now) := by
  induction cs using List.reverseRecOn with
  | nil => exact List.Sublist.refl _
  | append_singleton cs c ih =>
      rw [run_snoc, List.map_append]
      cases c with
      | push c now =>
          rw [Run.next, List.map_append]
          exact ih.append (List.Sublist.refl _)
      | isReady now => exact ih.trans (List.sublist_append_left _ _)
      | drain now =>
          simp only [Run.next]
          split
          · exact List.nil_sublist _
          · exact ih.trans (List.sublist_append_left _ _)

/-- As long as the clock does not go backwards, the window began no later than any push that waits. -/
theorem due_of_push {cs : List Call} (hc : (cs.map Call.now).Pairwise (· ≤ ·)) {p : Push}
    (hp : p ∈ (run window cs).since) {now : Nat} (hn : p.now + window ≤ now) : (run window cs).batch.Due now := by
  have htracks := run_tracks window cs
  have hordered := hc.sublist (since_sublist window cs)
  have hf := htracks.firstAt
  have hw := htracks.span
  cases hs : (run window cs).since with
  | nil =>
      rw [hs] at hp
      cases hp
  | cons q qs =>
      rw [hs] at hp hordered hf
      have hq : q.now ≤ p.now := by
        rcases List.mem_cons.mp hp with rfl | hp
        · exact Nat.le_refl _
        · exact List.rel_of_pairwise_cons hordered (List.mem_map_of_mem hp)
      refine ⟨?_, q.now, hf, by omega⟩
      rw [htracks.pending, ne_eq, waiting_eq_nil, hs]
      exact List.cons_ne_nil q qs

/-! ## The theorem -/

/-- After any calls the batch is told by the pushes since something was last taken out. If the clock never goes
backwards, a drain that comes a window after a push, or later, takes out the node of the push, unless an earlier drain
did. -/
theorem run_releases_latest (window : Nat) (cs : List Call) :
    (run window cs).Orderly window ∧
      ∀ before c t after now, cs = before ++ .push c t :: after →
        (cs.map Call.now ++ [now]).Pairwise (· ≤ ·) → t + window ≤ now →
          (∃ between t' rest, after = between ++ .drain t' :: rest ∧
              (run window (before ++ .push c t :: between)).Releases t' c.node) ∨
            (run window cs).Releases now c.node := by
  refine ⟨(run_tracks window cs).orderly, ?_⟩
  rintro before c t after now rfl hclock hwindow
  refine (push_stays window before after c t).imp_right fun hs => ?_
  exact (run_tracks window _).releases hs (due_of_push (List.pairwise_append.mp hclock).1 hs hwindow)

/-- Two nodes, one of which is pushed again inside the window, and a drain that comes too early. -/
theorem run_releases_latest_overwritten :
    let cs := [Call.push ⟨1, "a"⟩ 5, .drain 9, .push ⟨2, "b"⟩ 10, .push ⟨1, "c"⟩ 12, .isReady 20]
    (cs.map Call.now ++ [26]).Pairwise (· ≤ ·) ∧ 10 + 16 ≤ 26 ∧ (run 16 cs).batch.firstAt = some 5 ∧
      (run 16 cs).batch.drain 26 = ({ window := 16 }, some [⟨1, "c"⟩, ⟨2, "b"⟩]) ∧ (run 16 cs).Releases 26 2 := by
  intro cs
  have hclock : (cs.map Call.now ++ [26]).Pairwise (· ≤ ·) := by decide
  obtain ⟨horderly, hreleases⟩ := run_releases_latest 16 cs
  have hf : (run 16 cs).batch.firstAt = some 5 := horderly.firstAt
  have hd : (run 16 cs).batch.Due 26 := ⟨by decide, 5, hf, by decide⟩
  refine ⟨hclock, by decide, hf, horderly.taken 26 hd, ?_⟩
  have h := hreleases [.push ⟨1, "a"⟩ 5, .drain 9] ⟨2, "b"⟩ 10 [.push ⟨1, "c"⟩ 12, .isReady 20] 26 rfl hclock (by decide)
  refine h.resolve_left fun ⟨between, t', rest, hafter, _⟩ => ?_
  have hm : Call.drain t' ∈ [Call.push ⟨1, "c"⟩ 12, .isReady 20] := by simp [hafter]
  simp at hm

end Batch
end UtilityCss
