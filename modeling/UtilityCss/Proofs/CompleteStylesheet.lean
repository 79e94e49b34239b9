import UtilityCss.Proofs.Absorb
import UtilityCss.Proofs.RuleText

/-!
# The stylesheet of a token list

What a fresh aggregator holds after a list of tokens, said without the loop: everything is read off the tokens that
can be resolved, each at its first occurrence.
-/

namespace UtilityCss

/-- The tokens of `ts` with an icon or style base that contribute something, each at its first occurrence. -/
def contributors (m : Metadata) (ts : List String) : List String :=
  (ts.filter fun t => (Text.startsWith "if-" (baseOf t) || Text.startsWith "is-" (baseOf t)) &&
    !(Token.synthesis t m).isEmpty).eraseDups

/-- The state and the stylesheet that the tokens `ts` ask for, none of them twice. -/
structure Aggregator.Shows (m : Metadata) (ts : List String) (a : Aggregator) : Prop where
  resolved : ∀ t, t ∈ a.resolved ↔ t ∈ ts
  plain : a.buckets.plain = ruleTextsAt m ts none
  media : ∀ p, a.buckets.media.get p =
    if ruleTextsAt m ts (some p) = [] then none else some (ruleTextsAt m ts (some p))
  /-- What is in the bucket of a breakpoint carries its media query. -/
  queries : ∀ t ∈ ts, ∀ p r, (Token.parse t).variant.breakpoint = some p → (Token.synthesis t m).rule = some r →
    r.mediaQuery = some ("@media " ++ p.condition)
  keyframes : a.buckets.keyframes = (keyframesOf m ts).eraseDupsBy fun x y => Keyframes.key x == Keyframes.key y
  keys : ∀ k, k ∈ a.keyframeKeys ↔ ∃ block ∈ keyframesOf m ts, Keyframes.key block = k
  icons : ∀ b, b ∈ a.usedIcons ↔ ∃ t ∈ ts, baseOf t = b ∧ ∃ r, (Token.synthesis t m).rule = some r ∧ r.kind = .icon
  text : a.stylesheet =
    String.join (a.buckets.keyframes.map (· ++ "\n")) ++ String.join ((ruleTextsAt m ts none).map (· ++ "\n")) ++
      String.join ([Breakpoint.xs, .sm, .md, .lg, .xl].map fun p =>
        if ruleTextsAt m ts (some p) = [] then "" else
          "@media " ++ p.condition ++ " \x7b\n" ++
            String.join ((ruleTextsAt m ts (some p)).map fun r => "  " ++ r ++ "\n") ++ "\x7d\n")

theorem mem_iconsOf {m : Metadata} {ts : List String} {b : String} :
    b ∈ iconsOf m ts ↔ ∃ t ∈ ts, baseOf t = b ∧ ∃ r, (Token.synthesis t m).rule = some r ∧ r.kind = .icon := by
  simp only [iconsOf, List.mem_map, List.mem_filter, Token.isIcon, Option.any_eq_true, decide_eq_true_eq]
  constructor
  · rintro ⟨t, ⟨ht, r, hr, hk⟩, hb⟩
    exact ⟨t, ht, hb, r, hr, hk⟩
  · rintro ⟨t, ht, hb, r, hr, hk⟩
    exact ⟨t, ⟨ht, r, hr, hk⟩, hb⟩

theorem Token.mediaQuery_of_rule {m : Metadata} {t : String} {p : Breakpoint} {r : Rule}
    (hp : (Token.parse t).variant.breakpoint = some p) (hr : (Token.synthesis t m).rule = some r) :
    r.mediaQuery = some p.mediaQuery := by
  obtain ⟨kind, ds, rfl⟩ := Token.synthesis_rule hr
  simp [Rule.ofToken, Variant.mediaQuery, hp]

theorem Buckets.css_ofTokens (m : Metadata) (keys ts : List String) :
    (Buckets.ofTokens m keys ts).css =
      String.join ((Buckets.ofTokens m keys ts).keyframes.map (· ++ "\n")) ++
        String.join ((ruleTextsAt m ts none).map (· ++ "\n")) ++
        String.join ([Breakpoint.xs, .sm, .md, .lg, .xl].map fun p =>
          if ruleTextsAt m ts (some p) = [] then "" else
            "@media " ++ p.condition ++ " \x7b\n" ++
              String.join ((ruleTextsAt m ts (some p)).map fun r => "  " ++ r ++ "\n") ++ "\x7d\n") := by
  simp only [css, media_ofTokens, getD_nonEmpty?, mediaBlock_eq]
  rfl

theorem fresh_empty (m : Metadata) (ts : List String) : ({} : Aggregator).fresh m ts = contributors m ts := by
  unfold Aggregator.fresh
  rw [firstsBy_id_nil]
  rfl

/-- A fresh aggregator that took in `ts` holds, and writes, exactly what the contributing tokens ask for. -/
theorem absorb_shows (m : Metadata) (ts : List String) :
    (({} : Aggregator).absorb m ts).1.Shows m (contributors m ts) := by
  rw [Aggregator.absorb_eq, fresh_empty, Buckets.empty_append]
  generalize contributors m ts = T
  have hkeys : (Buckets.ofTokens m [] T).keyframes =
      (keyframesOf m T).eraseDupsBy fun x y => Keyframes.key x == Keyframes.key y :=
    firstsBy_nil_seen _ _
  exact {
    resolved := fun t => by simp [Aggregator.resolve]
    plain := rfl
    media := fun p => by simp [nonEmpty?]
    queries := fun t _ p r hp hr => Token.mediaQuery_of_rule hp hr
    keyframes := hkeys
    keys := fun k => by
      have h : k ∈ (Buckets.ofTokens m [] T).keyframes.map Keyframes.key ↔ _ := mem_map_firstsBy
      simpa [Aggregator.resolve] using h
    icons := fun b => by
      have hb : b ∉ Text.NameSet.empty := List.not_mem_nil
      exact Text.NameSet.mem_foldl_insert.trans ((or_iff_right hb).trans mem_iconsOf)
    text := Buckets.css_ofTokens m [] T }

end UtilityCss
