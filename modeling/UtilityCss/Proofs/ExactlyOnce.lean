import UtilityCss.Proofs.Passes
import UtilityCss.Proofs.RuleText
import Mathlib.Data.List.Nodup

/-!
# Every rule is written exactly once

Over any passes, with any changes of metadata between them, each resolved token owns at most one rule text, and no
two tokens own the same one.
-/

namespace UtilityCss.Aggregator

/-! ## Rules -/

theorem nodup_fresh (m : Metadata) (ts : List String) (a : Aggregator) : (a.fresh m ts).Nodup := by
  have h := nodup_map_firstsBy id a.resolved (ts.filter (Token.contributes m))
  rwa [List.map_id] at h

theorem nodup_ruleTextsAt {m : Metadata} {ts : List String} (h : ts.Nodup) (place : Option Breakpoint) :
    (ruleTextsAt m ts place).Nodup := by
  refine h.filterMap fun t t' text ht ht' => ?_
  have hmem (u : String) (hu : text ∈ Token.ruleTextAt? m place u) :
      (Token.synthesis u m).rule.map Rule.css = some text := by
    unfold Token.ruleTextAt? at hu
    split at hu
    · exact hu
    · cases hu
  exact Token.eq_of_rule_css_eq (hmem t ht) (hmem t' ht')

theorem nodup_rulesAt_afterPasses (ps : List Pass) (place : Option Breakpoint) :
    ((afterPasses ps).1.buckets.rulesAt place).Nodup := by
  induction ps using List.reverseRecOn with
  | nil => simp [afterPasses]
  | append_singleton ps p ih =>
      rw [afterPasses_snoc, rulesAt_absorb, List.nodup_append']
      refine ⟨ih, nodup_ruleTextsAt (nodup_fresh _ _ _) place, fun text hold hnew => ?_⟩
      -- A text that was there belongs to a token that is not new.
      obtain ⟨t, m, hu, _, ht⟩ := mem_rulesAt_afterPasses.mp hold
      obtain ⟨t', hf, _, ht'⟩ := mem_ruleTextsAt.mp hnew
      obtain rfl := Token.eq_of_rule_css_eq ht ht'
      exact not_mem_resolved_of_mem_fresh hf hu.mem_resolved

theorem nodup_rules_afterPasses (ps : List Pass) : (afterPasses ps).1.buckets.rules.Nodup := by
  refine List.nodup_flatMap.mpr ⟨fun place _ => nodup_rulesAt_afterPasses ps place, ?_⟩
  have hplaces : (none :: Breakpoint.all.map some).Nodup := by decide
  refine hplaces.imp fun hne text h h' => ?_
  obtain ⟨t, m, _, hplace, ht⟩ := mem_rulesAt_afterPasses.mp h
  obtain ⟨t', m', _, hplace', ht'⟩ := mem_rulesAt_afterPasses.mp h'
  obtain rfl := Token.eq_of_rule_css_eq ht ht'
  exact hne (hplace.symm.trans hplace')

/-! ## Keyframes -/

theorem keys_afterPasses (ps : List Pass) :
    (afterPasses ps).1.keyframeKeys = (afterPasses ps).1.buckets.keyframes.map Keyframes.key ∧
      (afterPasses ps).1.keyframeKeys.Nodup := by
  induction ps using List.reverseRecOn with
  | nil => exact ⟨rfl, List.nodup_nil⟩
  | append_singleton ps p ih =>
      rw [afterPasses_snoc, absorb_eq]
      refine ⟨?_, List.nodup_append'.mpr ⟨ih.2, nodup_map_firstsBy _ _ _, fun k hold hnew => ?_⟩⟩
      · simp only [resolve, Buckets.keyframes_append, List.map_append, ih.1]
      · exact (mem_map_firstsBy.mp hnew).1 hold

/-! ## Deltas -/

theorem deltas_afterPasses (ps : List Pass) :
    (afterPasses ps).2.foldl (· ++ ·) {} = (afterPasses ps).1.buckets := by
  induction ps using List.reverseRecOn with
  | nil => rfl
  | append_singleton ps p ih =>
      rw [afterPasses_snoc, List.foldl_append, ih, List.foldl_cons, List.foldl_nil, buckets_absorb]

/-! ## The theorem -/

/-- What passes leave in an aggregator, and how it came there. -/
structure EmitsOnce (ps : List Pass) : Prop where
  distinct : (afterPasses ps).1.buckets.rules.Nodup
  owner : ∀ text ∈ (afterPasses ps).1.buckets.rules, ∃! t, t ∈ (afterPasses ps).1.resolved ∧
    ∃ m, ResolvedUnder ps t m ∧ (Token.synthesis t m).rule.map Rule.css = some text
  resolver : ∀ t ∈ (afterPasses ps).1.resolved, ∃! m, ResolvedUnder ps t m
  /-- The rule that a token got when it was resolved is in the bucket of its breakpoint. -/
  emitted : ∀ t m text, ResolvedUnder ps t m → (Token.synthesis t m).rule.map Rule.css = some text →
    text ∈ (afterPasses ps).1.buckets.rulesAt (Token.parse t).variant.breakpoint
  deltas : (afterPasses ps).2.foldl (· ++ ·) {} = (afterPasses ps).1.buckets
  blocks : ((afterPasses ps).1.buckets.keyframes.map Keyframes.key).Nodup
  keys : ∀ k, k ∈ (afterPasses ps).1.keyframeKeys ↔ k ∈ (afterPasses ps).1.buckets.keyframes.map Keyframes.key
  grows : ∀ qs, (afterPasses ps).1.Grows (afterPasses (ps ++ qs)).1

theorem passes_emit_once (ps : List Pass) : EmitsOnce ps where
  distinct := nodup_rules_afterPasses ps
  owner := fun text h => by
    obtain ⟨place, hp⟩ := Buckets.mem_rules.mp h
    obtain ⟨t, m, hu, _, ht⟩ := mem_rulesAt_afterPasses.mp hp
    refine ⟨t, ⟨hu.mem_resolved, m, hu, ht⟩, ?_⟩
    rintro t' ⟨_, m', _, ht'⟩
    exact Token.eq_of_rule_css_eq ht' ht
  resolver := fun _ => exists_resolvedUnder
  emitted := fun t m text hu ht => mem_rulesAt_afterPasses.mpr ⟨t, m, hu, rfl, ht⟩
  deltas := deltas_afterPasses ps
  blocks := (keys_afterPasses ps).1 ▸ (keys_afterPasses ps).2
  keys := fun k => by rw [(keys_afterPasses ps).1]
  grows := Grows.afterPasses ps

end UtilityCss.Aggregator
