import UtilityCss.Proofs.SessionUpdates
import Mathlib.Data.List.Infix

/-!
# Animations and the sharing of keyframes

Of the keyframes texts with one key only the first is written. Which animations are still defined then depends on the
metadata alone: none is lost exactly if texts that share a key define the same animations.
-/

namespace UtilityCss

/-! ## What a keyframes text defines -/

namespace Keyframes

variable {block n : String}

/-- Somewhere in `block` stands `@keyframes`, and behind it the name `n`. -/
def Defines (block n : String) : Prop :=
  n ≠ "" ∧ ∃ before after, block.toList = before ++ "@keyframes".toList ++ after ∧ name after = n.toList

/-- The names behind each `@keyframes`, from the left. -/
def animations (block : String) : List String :=
  ((block.toList.tails.filterMap (Text.rest? "@keyframes".toList)).map fun after => String.ofList (name after)).filter
    (· ≠ "")

theorem mem_animations : n ∈ animations block ↔ Defines block n := by
  simp only [animations, List.mem_filter, List.mem_map, List.mem_filterMap, List.mem_tails, Text.rest?_eq_some,
    decide_eq_true_eq, Defines]
  constructor
  · rintro ⟨⟨after, ⟨_, ⟨before, hblock⟩, rfl⟩, rfl⟩, hne⟩
    refine ⟨hne, before, after, ?_, String.toList_ofList.symm⟩
    rw [← hblock, List.append_assoc]
  · rintro ⟨hne, before, after, hblock, hname⟩
    refine ⟨⟨after, ⟨_, ⟨before, ?_⟩, rfl⟩, ?_⟩, hne⟩
    · rw [hblock, List.append_assoc]
    · rw [hname, String.ofList_toList]

instance : Decidable (Defines block n) := decidable_of_iff _ mem_animations

end Keyframes

/-! ## What a token brings -/

section

variable {m : Metadata} {t u block block' : String}

/-- The style entry that `t` is resolved from carries the keyframes text `block`. A value in brackets is resolved from
no entry. -/
def Token.Brings (m : Metadata) (t block : String) : Prop :=
  (parse t).isEligible = true ∧ Arbitrary.declarationsOf? (baseOf t) = none ∧
    ∃ source, m.style? (baseOf t) = some source ∧ source.keyframes = some block

theorem Token.brings_iff :
    Brings m t block ↔ (parse t).isEligible = true ∧ (synthesis t m).keyframes = some block := by
  refine and_congr_right fun _ => ?_
  simp only [synthesis, synthesize, baseOf]
  cases Arbitrary.declarationsOf? (parse t).base with
  | some ds => simp
  | none =>
      cases m.style? (parse t).base with
      | some source => simp
      | none => cases m.icon? (parse t).base <;> simp

instance : Decidable (Token.Brings m t block) := decidable_of_iff _ Token.brings_iff.symm

theorem Token.Brings.contributes (h : Brings m t block) : Token.contributes m t = true := by
  obtain ⟨he, hk⟩ := brings_iff.mp h
  simp [Token.contributes, Synthesis.isEmpty, he, hk]

theorem mem_keyframesOf {ts : List String} (h : ∀ t ∈ ts, Token.contributes m t = true) :
    block ∈ keyframesOf m ts ↔ ∃ t ∈ ts, Token.Brings m t block := by
  rw [keyframesOf, List.mem_filterMap]
  refine exists_congr fun t => and_congr_right fun ht => ?_
  rw [Token.brings_iff, and_iff_right (Bool.and_eq_true_iff.mp (h t ht)).1]

/-! ## What is left of it -/

namespace Aggregator

theorem contributes_of_mem_fresh {a : Aggregator} {ts : List String} (h : t ∈ a.fresh m ts) :
    t ∈ ts ∧ Token.contributes m t = true :=
  List.mem_filter.mp (mem_of_mem_firstsBy h).1

theorem absorb_empty (m : Metadata) (ts : List String) :
    let a := (({} : Aggregator).absorb m ts).1
    a.resolved = ({} : Aggregator).fresh m ts ∧
      a.buckets.keyframes = firstsBy Keyframes.key [] (keyframesOf m (({} : Aggregator).fresh m ts)) := by
  rw [absorb_eq, Buckets.empty_append]
  exact ⟨List.nil_append _, rfl⟩

/-- The text that stands for the key of what a resolved token brings came with a token too. -/
theorem exists_keyframes_of_brings {ts : List String} (ht : t ∈ (({} : Aggregator).absorb m ts).1.resolved)
    (hb : Token.Brings m t block) :
    ∃ kept ∈ (({} : Aggregator).absorb m ts).1.buckets.keyframes, Keyframes.key kept = Keyframes.key block ∧
      ∃ u, Token.Brings m u kept := by
  obtain ⟨hresolved, hkeyframes⟩ := absorb_empty m ts
  have hbrought : ∀ b, b ∈ keyframesOf m (({} : Aggregator).fresh m ts) ↔ _ := fun b =>
    mem_keyframesOf fun u hu => (contributes_of_mem_fresh hu).2
  rw [hresolved] at ht
  rw [hkeyframes]
  have hblock := (hbrought block).mpr ⟨t, ht, hb⟩
  have hkey : Keyframes.key block ∈ [] ∨ _ := key_mem_firstsBy hblock
  obtain ⟨kept, hkept, hsame⟩ := List.mem_map.mp (hkey.resolve_left List.not_mem_nil)
  obtain ⟨u, -, hu⟩ := (hbrought kept).mp (mem_of_mem_firstsBy hkept).1
  exact ⟨kept, hkept, hsame, u, hu⟩

/-- Of two tokens that bring texts with one key, the one found first decides. -/
theorem keyframes_absorb_pair (hu : Token.Brings m u block') (ht : Token.Brings m t block)
    (hkey : Keyframes.key block = Keyframes.key block') :
    t ∈ (({} : Aggregator).absorb m [u, t]).1.resolved ∧
      (({} : Aggregator).absorb m [u, t]).1.buckets.keyframes = [block'] := by
  obtain ⟨hresolved, hkeyframes⟩ := absorb_empty m [u, t]
  have hfirst : (Token.synthesis u m).keyframes = some block' := (Token.brings_iff.mp hu).2
  have hsecond : (Token.synthesis t m).keyframes = some block := (Token.brings_iff.mp ht).2
  refine ⟨?_, ?_⟩
  · exact (looked_at m {} (by simp)).resolve_right (by simp [ht.contributes])
  · rw [hkeyframes, fresh_cons_new List.not_mem_nil hu.contributes, keyframesOf, List.filterMap_cons, hfirst,
      firstsBy_cons_of_not_mem List.not_mem_nil]
    refine congrArg _ (firstsBy_eq_nil fun b hb => ?_)
    obtain ⟨v, hv, hvb⟩ := List.mem_filterMap.mp hb
    obtain rfl := List.mem_singleton.mp (contributes_of_mem_fresh hv).1
    obtain rfl : block = b := Option.some.inj (hsecond.symm.trans hvb)
    simp [hkey]

end Aggregator

end

/-! ## The theorem -/

namespace Metadata

/-- After any calls with `m`, every animation that a resolved token brings is defined by a text that was written. -/
def KeepsAnimations (m : Metadata) : Prop :=
  ∀ calls : List (List String), let a := (Aggregator.afterPasses (calls.map (Pass.mk m))).1
    ∀ t ∈ a.resolved, ∀ block, Token.Brings m t block → ∀ n, Keyframes.Defines block n →
      ∃ kept ∈ a.buckets.keyframes, Keyframes.Defines kept n

/-- Texts that are taken for one another define the same animations. -/
def KeysAgree (m : Metadata) : Prop :=
  ∀ t u block block', Token.Brings m t block → Token.Brings m u block' → Keyframes.key block = Keyframes.key block' →
    ∀ n, Keyframes.Defines block n → Keyframes.Defines block' n

variable {m : Metadata}

theorem KeysAgree.keepsAnimations (h : m.KeysAgree) : m.KeepsAnimations := by
  intro calls a t ht block hb n hn
  simp only [a, Aggregator.afterPasses_same] at ht ⊢
  obtain ⟨kept, hkept, hkey, u, hu⟩ := Aggregator.exists_keyframes_of_brings ht hb
  exact ⟨kept, hkept, h t u block kept hb hu hkey.symm n hn⟩

theorem KeepsAnimations.keysAgree (h : m.KeepsAnimations) : m.KeysAgree := by
  intro t u block block' ht hu hkey n hn
  obtain ⟨hres, hkeyframes⟩ := Aggregator.keyframes_absorb_pair hu ht hkey
  have hone := h [[u, t]] t
  simp only [Aggregator.afterPasses_same, List.flatten_cons, List.flatten_nil, List.append_nil, hkeyframes] at hone
  obtain ⟨kept, hkept, hdefines⟩ := hone hres block ht n hn
  exact List.mem_singleton.mp hkept ▸ hdefines

theorem keysAgree_of_single
    (h : ∀ t block, Token.Brings m t block → ∀ n, Keyframes.Defines block n ↔ n = Keyframes.key block) :
    m.KeysAgree := by
  intro t u block block' ht hu hkey n hn
  rw [h t block ht n] at hn
  rw [h u block' hu n, hn, hkey]

/-- Sharing loses no animation exactly if texts with one key define the same animations, as they do if each text
defines one animation and has its name for a key. -/
theorem keepsAnimations_iff (m : Metadata) :
    (m.KeepsAnimations ↔ m.KeysAgree) ∧
      ((∀ t block, Token.Brings m t block → ∀ n, Keyframes.Defines block n ↔ n = Keyframes.key block) →
        m.KeepsAnimations) :=
  ⟨⟨KeepsAnimations.keysAgree, KeysAgree.keepsAnimations⟩, fun h => (keysAgree_of_single h).keepsAnimations⟩

/-- A text with two animations is dropped for a text with the first of them. -/
theorem keepsAnimations_second_lost :
    ¬ Metadata.KeepsAnimations
      { styles := [("is-spin", { keyframes := some "@keyframes spin\x7b\x7d" }),
          ("is-both", { keyframes := some "@keyframes spin\x7b\x7d @keyframes fade\x7b\x7d" })] } := by
  intro h
  have hfade : Keyframes.Defines "@keyframes spin\x7b\x7d" "fade" :=
    h.keysAgree "is-both" "is-spin" "@keyframes spin\x7b\x7d @keyframes fade\x7b\x7d" "@keyframes spin\x7b\x7d"
      (by decide +kernel) (by decide +kernel) (by decide +kernel) "fade" (by decide +kernel)
  exact absurd hfade (by decide +kernel)

end Metadata
end UtilityCss
