import UtilityCss.Proofs.Absorb
import Mathlib.Data.List.Induction

/-!
# An aggregator over several calls

A pass is one call with its own metadata, so metadata may change from one call to the next. What an aggregator
holds is only ever added to.
-/

namespace UtilityCss

structure Pass where
  metadata : Metadata
  tokens : List String

namespace Aggregator

variable {a b c : Aggregator} {m : Metadata} {t : String}

/-- A fresh aggregator after passes, and the delta of each of them. -/
def afterPasses (ps : List Pass) : Aggregator × List Buckets :=
  ps.foldl (fun (a, deltas) p =>
    let (a', delta) := a.absorb p.metadata p.tokens
    (a', deltas ++ [delta])) ({}, [])

theorem afterPasses_snoc (ps : List Pass) (p : Pass) :
    afterPasses (ps ++ [p]) =
      (((afterPasses ps).1.absorb p.metadata p.tokens).1,
        (afterPasses ps).2 ++ [((afterPasses ps).1.absorb p.metadata p.tokens).2]) := by
  simp only [afterPasses, List.foldl_append, List.foldl_cons, List.foldl_nil]

/-! ## One call -/

theorem resolved_absorb (m : Metadata) (ts : List String) (a : Aggregator) :
    (a.absorb m ts).1.resolved = a.resolved ++ a.fresh m ts := by
  rw [absorb_eq]
  rfl

theorem buckets_absorb (m : Metadata) (ts : List String) (a : Aggregator) :
    (a.absorb m ts).1.buckets = a.buckets ++ (a.absorb m ts).2 := by
  rw [absorb_eq]

theorem rulesAt_absorb (m : Metadata) (ts : List String) (a : Aggregator) (place : Option Breakpoint) :
    (a.absorb m ts).1.buckets.rulesAt place = a.buckets.rulesAt place ++ ruleTextsAt m (a.fresh m ts) place := by
  rw [absorb_eq, Buckets.rulesAt_append, Buckets.rulesAt_ofTokens]

theorem not_mem_resolved_of_mem_fresh {ts : List String} (h : t ∈ a.fresh m ts) : t ∉ a.resolved :=
  (mem_of_mem_firstsBy h).2

/-! ## Growth -/

/-- Nothing of `a` is lost in `b`, and every bucket of `b` begins with that of `a`. -/
structure Grows (a b : Aggregator) : Prop where
  resolved : a.resolved <+: b.resolved
  keys : a.keyframeKeys <+: b.keyframeKeys
  icons : ∀ x ∈ a.usedIcons, x ∈ b.usedIcons
  keyframes : a.buckets.keyframes <+: b.buckets.keyframes
  plain : a.buckets.plain <+: b.buckets.plain
  media : ∀ p rules, a.buckets.media.get p = some rules →
    ∃ more, b.buckets.media.get p = some (rules ++ more)

theorem Grows.refl (a : Aggregator) : a.Grows a where
  resolved := List.prefix_rfl
  keys := List.prefix_rfl
  icons := fun _ hx => hx
  keyframes := List.prefix_rfl
  plain := List.prefix_rfl
  media := fun _ _ h => ⟨[], by rw [h, List.append_nil]⟩

theorem Grows.trans (h : a.Grows b) (h' : b.Grows c) : a.Grows c where
  resolved := h.resolved.trans h'.resolved
  keys := h.keys.trans h'.keys
  icons := fun x hx => h'.icons x (h.icons x hx)
  keyframes := h.keyframes.trans h'.keyframes
  plain := h.plain.trans h'.plain
  media := fun p rules hr => by
    obtain ⟨more, hb⟩ := h.media p rules hr
    obtain ⟨more', hc⟩ := h'.media p _ hb
    exact ⟨more ++ more', by rw [hc, List.append_assoc]⟩

theorem Grows.absorb (m : Metadata) (ts : List String) (a : Aggregator) : a.Grows (a.absorb m ts).1 := by
  rw [absorb_eq]
  exact {
    resolved := List.prefix_append _ _
    keys := List.prefix_append _ _
    icons := fun x hx => Text.NameSet.mem_foldl_insert.mpr (Or.inl hx)
    keyframes := List.prefix_append _ _
    plain := List.prefix_append _ _
    media := fun p rules hr => by
      rw [Buckets.media_append, hr]
      cases (Buckets.ofTokens m a.keyframeKeys (a.fresh m ts)).media.get p with
      | none => exact ⟨[], by simp⟩
      | some more => exact ⟨more, rfl⟩ }

theorem Grows.rulesAt (h : a.Grows b) (place : Option Breakpoint) :
    a.buckets.rulesAt place <+: b.buckets.rulesAt place := by
  cases place with
  | none => exact h.plain
  | some p =>
      simp only [Buckets.rulesAt]
      cases hr : a.buckets.media.get p with
      | none => exact List.nil_prefix
      | some rules =>
          obtain ⟨more, hb⟩ := h.media p rules hr
          rw [hb]
          exact List.prefix_append rules more

theorem Grows.afterPasses (ps qs : List Pass) : (afterPasses ps).1.Grows (afterPasses (ps ++ qs)).1 := by
  induction qs using List.reverseRecOn with
  | nil => rw [List.append_nil]; exact .refl _
  | append_singleton qs q ih =>
      rw [← List.append_assoc, afterPasses_snoc]
      exact ih.trans (.absorb q.metadata q.tokens _)

/-! ## The pass that resolved a token -/

/-- The pass over `m` is the one that resolved `t`. -/
def ResolvedUnder (ps : List Pass) (t : String) (m : Metadata) : Prop :=
  ∃ before p after, ps = before ++ p :: after ∧ p.metadata = m ∧
    t ∉ (afterPasses before).1.resolved ∧ t ∈ (afterPasses (before ++ [p])).1.resolved

theorem ResolvedUnder.append {ps : List Pass} (h : ResolvedUnder ps t m) (qs : List Pass) :
    ResolvedUnder (ps ++ qs) t m := by
  obtain ⟨before, p, after, rfl, hm, hn, ht⟩ := h
  exact ⟨before, p, after ++ qs, by simp, hm, hn, ht⟩

theorem mem_resolved_of_pass {before : List Pass} {p : Pass} (h : t ∈ (afterPasses (before ++ [p])).1.resolved)
    (after : List Pass) : t ∈ (afterPasses (before ++ p :: after)).1.resolved := by
  have hg := Grows.afterPasses (before ++ [p]) after
  rw [List.append_assoc] at hg
  exact hg.resolved.subset h

theorem ResolvedUnder.mem_resolved {ps : List Pass} (h : ResolvedUnder ps t m) : t ∈ (afterPasses ps).1.resolved := by
  obtain ⟨before, p, after, rfl, _, _, ht⟩ := h
  exact mem_resolved_of_pass ht after

/-- A token is resolved only once: in a later pass it is not new any more. -/
theorem ResolvedUnder.unique {ps : List Pass} {m' : Metadata} (h : ResolvedUnder ps t m)
    (h' : ResolvedUnder ps t m') : m = m' := by
  obtain ⟨before, p, after, rfl, rfl, hn, ht⟩ := h
  obtain ⟨before', p', after', heq, rfl, hn', ht'⟩ := h'
  rcases List.append_eq_append_iff.mp heq with ⟨between, hb, hp⟩ | ⟨between, hb, hp⟩
  · cases between with
    | nil => exact congrArg Pass.metadata (List.cons.inj hp).1
    | cons q between =>
        obtain ⟨rfl, -⟩ := List.cons.inj hp
        exact absurd (hb ▸ mem_resolved_of_pass ht between) hn'
  · cases between with
    | nil => exact congrArg Pass.metadata (List.cons.inj hp).1.symm
    | cons q between =>
        obtain ⟨rfl, -⟩ := List.cons.inj hp
        exact absurd (hb ▸ mem_resolved_of_pass ht' between) hn

theorem exists_resolvedUnder {ps : List Pass} (h : t ∈ (afterPasses ps).1.resolved) : ∃! m, ResolvedUnder ps t m := by
  have hm : ∃ m, ResolvedUnder ps t m := by
    induction ps using List.reverseRecOn with
    | nil => cases h
    | append_singleton ps p ih =>
        by_cases hn : t ∈ (afterPasses ps).1.resolved
        · obtain ⟨m, hu⟩ := ih hn
          exact ⟨m, hu.append [p]⟩
        · exact ⟨p.metadata, ps, p, [], rfl, rfl, hn, h⟩
  obtain ⟨m, hu⟩ := hm
  exact ⟨m, hu, fun _ hu' => hu'.unique hu⟩

/-- The rules of a place are those that the tokens there got when they were resolved. -/
theorem mem_rulesAt_afterPasses {ps : List Pass} {place : Option Breakpoint} {text : String} :
    text ∈ (afterPasses ps).1.buckets.rulesAt place ↔ ∃ t m, ResolvedUnder ps t m ∧
      (Token.parse t).variant.breakpoint = place ∧ (Token.synthesis t m).rule.map Rule.css = some text := by
  constructor
  · induction ps using List.reverseRecOn with
    | nil =>
        intro h
        rw [show afterPasses [] = ({}, []) from rfl, Buckets.rulesAt_empty] at h
        cases h
    | append_singleton ps p ih =>
        intro h
        rw [afterPasses_snoc, rulesAt_absorb, List.mem_append] at h
        rcases h with h | h
        · obtain ⟨t, m, hu, hplace, htext⟩ := ih h
          exact ⟨t, m, hu.append [p], hplace, htext⟩
        · obtain ⟨t, ht, hplace, htext⟩ := mem_ruleTextsAt.mp h
          refine ⟨t, p.metadata, ⟨ps, p, [], rfl, rfl, not_mem_resolved_of_mem_fresh ht, ?_⟩, hplace, htext⟩
          rw [afterPasses_snoc, resolved_absorb]
          exact List.mem_append_right _ ht
  · rintro ⟨t, m, ⟨before, p, after, rfl, rfl, hn, ht⟩, hplace, htext⟩
    have hg := Grows.afterPasses (before ++ [p]) after
    rw [List.append_assoc] at hg
    refine (hg.rulesAt place).subset ?_
    rw [afterPasses_snoc, resolved_absorb] at ht
    rw [afterPasses_snoc, rulesAt_absorb]
    have hf := (List.mem_append.mp ht).resolve_left hn
    exact List.mem_append_right _ (mem_ruleTextsAt.mpr ⟨t, hf, hplace, htext⟩)

end Aggregator
end UtilityCss
