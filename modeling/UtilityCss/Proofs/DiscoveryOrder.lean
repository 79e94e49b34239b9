import UtilityCss.Proofs.ExactlyOnce
import UtilityCss.Proofs.IconGlyphs
import Mathlib.Data.List.Sort

/-!
# The order in which tokens are found

Token lists with the same tokens, in any order and however often repeated, lead a fresh aggregator to states that differ
in nothing but the order of the rules and in which text stands for an animation. The font does not depend on the order.
-/

namespace UtilityCss

variable {m : Metadata} {ts us : List String}

theorem Text.NameSet.ext_mem {s t : Text.NameSet} (h : ∀ x, x ∈ s ↔ x ∈ t) : s = t := by
  have hlist : s.toList = t.toList := s.ascending.eq_of_mem_iff t.ascending h
  cases s
  cases t
  exact NameSet.mk.injEq _ _ _ _ ▸ hlist

theorem contributors_perm (m : Metadata) (h : ∀ t, t ∈ ts ↔ t ∈ us) : (contributors m ts).Perm (contributors m us) := by
  have hnodup (vs : List String) : (contributors m vs).Nodup := fresh_empty m vs ▸ Aggregator.nodup_fresh m vs {}
  refine (List.perm_ext_iff_of_nodup (hnodup ts) (hnodup us)).mpr fun t => ?_
  simp only [contributors, List.mem_eraseDups, List.mem_filter, h]

/-! ## Buckets -/

/-- Buckets that hold the same rules, place by place, and keyframes under the same keys. -/
structure Buckets.SameRules (a b : Buckets) : Prop where
  plain : a.plain.Perm b.plain
  media : ∀ p, Option.Rel List.Perm (a.media.get p) (b.media.get p)
  keyframes : (a.keyframes.map Keyframes.key).Perm (b.keyframes.map Keyframes.key)

theorem nonEmpty?_rel {α : Type} {xs ys : List α} (h : xs.Perm ys) :
    Option.Rel List.Perm (nonEmpty? xs) (nonEmpty? ys) := by
  cases xs with
  | nil =>
      obtain rfl : ys = [] := List.nil_perm.mp h
      exact .none
  | cons x xs =>
      cases ys with
      | nil => exact absurd h.symm (List.not_perm_nil_cons x xs)
      | cons y ys => exact .some h

theorem Buckets.ofTokens_sameRules (m : Metadata) (keys : List String) (h : ts.Perm us) :
    (ofTokens m keys ts).SameRules (ofTokens m keys us) where
  plain := h.filterMap _
  media := fun p => by
    rw [media_ofTokens, media_ofTokens]
    exact nonEmpty?_rel (h.filterMap _)
  keyframes := by
    refine (List.perm_ext_iff_of_nodup (nodup_map_firstsBy _ _ _) (nodup_map_firstsBy _ _ _)).mpr fun k => ?_
    simp only [mem_map_firstsBy, keyframesOf, (h.filterMap _).mem_iff]

theorem Buckets.SameRules.ruleCount {a b : Buckets} (h : a.SameRules b) : a.ruleCount = b.ruleCount := by
  have hmedia (p : Breakpoint) : ((a.media.get p).getD []).length = ((b.media.get p).getD []).length := by
    have hp := h.media p
    generalize a.media.get p = rules, b.media.get p = rules' at hp
    cases hp with
    | none => rfl
    | some hp => exact hp.length_eq
  simp only [Buckets.ruleCount, h.plain.length_eq, hmedia]

/-! ## The aggregator -/

/-- Aggregators that differ in nothing but the order of what they hold. -/
structure Aggregator.SameButOrder (a b : Aggregator) : Prop where
  resolved : a.resolved.Perm b.resolved
  keys : a.keyframeKeys.Perm b.keyframeKeys
  icons : a.usedIcons = b.usedIcons
  buckets : a.buckets.SameRules b.buckets

theorem Aggregator.absorb_sameButOrder (m : Metadata) (h : ∀ t, t ∈ ts ↔ t ∈ us) :
    (({} : Aggregator).absorb m ts).1.SameButOrder (({} : Aggregator).absorb m us).1 := by
  have hperm := contributors_perm m h
  have hbuckets := Buckets.ofTokens_sameRules m [] hperm
  rw [absorb_eq, absorb_eq, fresh_empty, fresh_empty]
  exact {
    resolved := hperm
    keys := hbuckets.keyframes
    icons := by
      refine Text.NameSet.ext_mem fun b => ?_
      simp only [resolve, Text.NameSet.mem_foldl_insert, mem_iconsOf, hperm.mem_iff]
    buckets := by
      rw [Buckets.empty_append, Buckets.empty_append]
      exact hbuckets }

/-- Two token lists with the same tokens give the same rules, place by place, the same number of rules, the same text
of icons, and so the same font, whatever the subsetter does with it. -/
theorem Aggregator.absorb_order (m : Metadata) {ts us : List String} (h : ∀ t, t ∈ ts ↔ t ∈ us) :
    let a := (({} : Aggregator).absorb m ts).1
    let b := (({} : Aggregator).absorb m us).1
    a.SameButOrder b ∧ a.buckets.ruleCount = b.buckets.ruleCount ∧
      Font.iconText m a.usedIcons.toList = Font.iconText m b.usedIcons.toList ∧
      ∀ font subsetter, Font.subset font m a.usedIcons.toList subsetter =
        Font.subset font m b.usedIcons.toList subsetter := by
  intro a b
  have hsame : a.SameButOrder b := absorb_sameButOrder m h
  refine ⟨hsame, hsame.buckets.ruleCount, ?_, fun font subsetter => ?_⟩
  · rw [hsame.icons]
  · rw [hsame.icons]

/-- Two pulses with one key but different texts, and two icons, found from both ends. -/
theorem Aggregator.absorb_order_pulses :
    let m : Metadata :=
      { icons := [("if-home", { declarations := some "content: '\\e900';" }),
          ("if-star", { declarations := some "content: '\\e901';" })]
        styles := [("is-pulse", { keyframes := some "@keyframes pulse\x7b\x7d" }),
          ("is-slow", { declarations := some "animation: pulse 3s", keyframes := some "@keyframes pulse \x7bto\x7b\x7d\x7d" })] }
    let ts := ["if-star", "is-pulse", "foo", "md:is-slow", "md:if-home"]
    let us := ["md:if-home", "md:is-slow", "is-pulse", "foo", "md:is-slow", "if-star"]
    let a := (({} : Aggregator).absorb m ts).1
    let b := (({} : Aggregator).absorb m us).1
    (∀ t, t ∈ ts ↔ t ∈ us) ∧ a.SameButOrder b ∧ a.buckets.keyframes ≠ b.buckets.keyframes ∧
      a.buckets.media.get .md ≠ b.buckets.media.get .md ∧ a.buckets.ruleCount = 3 ∧
      Font.iconText m b.usedIcons.toList = "\ue900\ue901" := by
  intro m ts us a b
  have h : ∀ t, t ∈ ts ↔ t ∈ us := by
    intro t
    simp only [ts, us, List.mem_cons, List.not_mem_nil, or_false]
    tauto
  obtain ⟨hsame, -, hicons, -⟩ := absorb_order m h
  exact ⟨h, hsame, by decide +kernel, by decide +kernel, by decide +kernel, hicons ▸ by decide +kernel⟩

end UtilityCss
