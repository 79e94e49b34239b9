import UtilityCss.Font.Subset
import UtilityCss.Proofs.CompleteStylesheet

/-!
# The glyphs of the icons in use

The rule of an icon and the request for its glyph are made apart from each other, from the same declarations. What the
stylesheet shows by an `if-` class and a readable code point stays in the font.
-/

namespace UtilityCss

/-! ## The request -/

namespace Font

/-- An icon class with a readable code point, which is that of `c`. -/
def HasGlyph (m : Metadata) (base : String) (c : Char) : Prop :=
  Text.startsWith "if-" base = true ∧
    ∃ source ds, m.icon? base = some source ∧ source.declarations = some ds ∧ codePoint? ds = some c

theorem glyph?_eq_some {m : Metadata} {base : String} {c : Char} : glyph? m base = some c ↔ HasGlyph m base c := by
  unfold glyph? guard HasGlyph
  by_cases hb : Text.startsWith "if-" base = true
  · rw [if_pos hb]
    simp [hb, Option.bind_eq_some_iff]
  · rw [if_neg hb]
    simp [hb]

theorem mem_iconText {m : Metadata} {used : List String} {c : Char} :
    c ∈ (iconText m used).toList ↔ ∃ base ∈ used, Text.startsWith "if-" base = true ∧
      ∃ source ds, m.icon? base = some source ∧ source.declarations = some ds ∧ codePoint? ds = some c := by
  rw [iconText, String.toList_ofList, List.mem_filterMap]
  exact exists_congr fun base => and_congr_right fun _ => glyph?_eq_some

/-- Every end of a subset: without a glyph nothing is asked for, and what fails or is empty leaves the full font. -/
theorem subset_cases (font : ByteArray) (m : Metadata) (used : List String) (subsetter : Subsetter) :
    let s := subset font m used subsetter
    let request : Request := { text := iconText m used }
    (iconText m used = "" ∧ s.request = none ∧ s.outcome = .noIcons ∧ s.bytes = font) ∨
      (iconText m used ≠ "" ∧ s.request = some request ∧ (∃ reason, s.outcome = .fallback reason) ∧ s.bytes = font) ∨
      (iconText m used ≠ "" ∧ s.request = some request ∧ s.outcome = .subsetted font.size s.bytes.size ∧
        subsetter font request = .ok s.bytes) := by
  intro s request
  unfold s subset subsetWith
  by_cases he : iconText m used = ""
  · simp [he]
  · have hne : (iconText m used).isEmpty = false := by simpa [String.isEmpty_iff] using he
    simp only [hne, Bool.false_eq_true, ↓reduceIte, he, false_and, false_or, ne_eq, not_false_eq_true, true_and]
    cases hs : subsetter font request with
    | error reason => exact Or.inl ⟨rfl, ⟨reason, rfl⟩, rfl⟩
    | ok bytes =>
        cases hb : bytes.isEmpty with
        | true =>
            simp only [ofAnswer, hb, ↓reduceIte]
            exact Or.inl ⟨rfl, ⟨_, rfl⟩, rfl⟩
        | false =>
            simp only [ofAnswer, hb, Bool.false_eq_true, ↓reduceIte]
            exact Or.inr ⟨rfl, trivial, trivial⟩

end Font

/-! ## The rules -/

/-- An icon's rule has the declarations of its source. -/
theorem Token.icon?_of_rule {m : Metadata} {t : String} {r : Rule} (h : (Token.synthesis t m).rule = some r)
    (hk : r.kind = .icon) : ∃ source, m.icon? (baseOf t) = some source ∧ source.declarations = some r.declarations := by
  simp only [Token.synthesis, synthesize] at h
  split at h
  · cases h
    cases hk
  · split at h
    · obtain ⟨ds, _, rfl⟩ := Option.map_eq_some_iff.mp h
      cases hk
    · split at h
      · rename_i source hs
        obtain ⟨ds, hds, rfl⟩ := Option.map_eq_some_iff.mp h
        exact ⟨source, hs, hds⟩
      · cases h

namespace Aggregator

variable {m : Metadata} {ts : List String}

theorem mem_rules_absorb {text : String} :
    text ∈ (({} : Aggregator).absorb m ts).1.buckets.rules ↔
      ∃ t ∈ contributors m ts, (Token.synthesis t m).rule.map Rule.css = some text := by
  rw [absorb_eq, fresh_empty, Buckets.empty_append, Buckets.mem_rules]
  simp only [Buckets.rulesAt_ofTokens, mem_ruleTextsAt]
  constructor
  · rintro ⟨_, t, ht, _, htext⟩
    exact ⟨t, ht, htext⟩
  · rintro ⟨t, ht, htext⟩
    exact ⟨_, t, ht, rfl, htext⟩

/-- An icon is in use exactly if a rule in the buckets was made for a token with its base. -/
theorem mem_usedIcons_absorb {base : String} :
    base ∈ (({} : Aggregator).absorb m ts).1.usedIcons ↔
      ∃ t r, (Token.synthesis t m).rule = some r ∧ r.kind = .icon ∧
        r.css ∈ (({} : Aggregator).absorb m ts).1.buckets.rules ∧ baseOf t = base := by
  simp only [(absorb_shows m ts).icons, mem_rules_absorb]
  constructor
  · rintro ⟨t, ht, hb, r, hr, hk⟩
    exact ⟨t, r, hr, hk, ⟨t, ht, by rw [hr]; rfl⟩, hb⟩
  · rintro ⟨t, r, hr, hk, ⟨t', ht', htext⟩, hb⟩
    obtain rfl := Token.eq_of_rule_css_eq (by rw [hr]; rfl) htext
    exact ⟨t, ht', hb, r, hr, hk⟩

end Aggregator

/-! ## The theorem -/

namespace Font

/-- A subset `s` of `font` for the stylesheet of `a`. An icon has a glyph if its class starts with `if-` and its
declarations have a readable code point. -/
structure KeepsGlyphs (m : Metadata) (a : Aggregator) (font : ByteArray) (subsetter : Subsetter) (s : Subset) :
    Prop where
  /-- Every rule in the buckets is the rule of a token. -/
  rules : ∀ text ∈ a.buckets.rules, ∃ t r, (Token.synthesis t m).rule = some r ∧ r.css = text
  /-- A subset was asked for with the glyph of every icon that has a rule, and with no other one. -/
  glyphs : ∀ full sub, s.outcome = .subsetted full sub → ∃ request, s.request = some request ∧
    subsetter font request = .ok s.bytes ∧ ∀ c, c ∈ request.text.toList ↔
      ∃ t r, (Token.synthesis t m).rule = some r ∧ r.kind = .icon ∧ r.css ∈ a.buckets.rules ∧
        Text.startsWith "if-" (baseOf t) = true ∧ codePoint? r.declarations = some c
  full : (∀ full sub, s.outcome ≠ .subsetted full sub) → s.bytes = font
  withoutGlyphs : (∀ t r, (Token.synthesis t m).rule = some r → r.kind = .icon → r.css ∈ a.buckets.rules →
    Text.startsWith "if-" (baseOf t) = true → codePoint? r.declarations = none) → s.bytes = font

/-- The characters that are asked for are the code points of the icons whose rules are in the buckets. -/
theorem mem_iconText_absorb {m : Metadata} {ts : List String} {c : Char} :
    let a := (({} : Aggregator).absorb m ts).1
    c ∈ (iconText m a.usedIcons.toList).toList ↔
      ∃ t r, (Token.synthesis t m).rule = some r ∧ r.kind = .icon ∧ r.css ∈ a.buckets.rules ∧
        Text.startsWith "if-" (baseOf t) = true ∧ codePoint? r.declarations = some c := by
  intro a
  rw [mem_iconText]
  constructor
  · rintro ⟨base, hb, hif, source, ds, hs, hds, hc⟩
    obtain ⟨t, r, hr, hk, hmem, rfl⟩ := Aggregator.mem_usedIcons_absorb.mp hb
    obtain ⟨source', hs', hds'⟩ := Token.icon?_of_rule hr hk
    obtain rfl : source = source' := Option.some.inj (hs.symm.trans hs')
    obtain rfl : ds = r.declarations := Option.some.inj (hds.symm.trans hds')
    exact ⟨t, r, hr, hk, hmem, hif, hc⟩
  · rintro ⟨t, r, hr, hk, hmem, hif, hc⟩
    obtain ⟨source, hs, hds⟩ := Token.icon?_of_rule hr hk
    exact ⟨baseOf t, Aggregator.mem_usedIcons_absorb.mpr ⟨t, r, hr, hk, hmem, rfl⟩, hif, source, r.declarations,
      hs, hds, hc⟩

theorem subset_keeps_glyphs (m : Metadata) (ts : List String) (font : ByteArray) (subsetter : Subsetter) :
    let a := (({} : Aggregator).absorb m ts).1
    KeepsGlyphs m a font subsetter (subset font m a.usedIcons.toList subsetter) := by
  intro a
  have hcases := subset_cases font m a.usedIcons.toList subsetter
  exact {
    rules := fun text htext => by
      obtain ⟨t, -, ht⟩ := Aggregator.mem_rules_absorb.mp htext
      obtain ⟨r, hr, hcss⟩ := Option.map_eq_some_iff.mp ht
      exact ⟨t, r, hr, hcss⟩
    glyphs := fun full sub ho => by
      rcases hcases with ⟨-, -, h, -⟩ | ⟨-, -, ⟨_, h⟩, -⟩ | ⟨-, hreq, -, hok⟩
      · rw [h] at ho
        cases ho
      · rw [h] at ho
        cases ho
      · exact ⟨_, hreq, hok, fun c => mem_iconText_absorb⟩
    full := fun hno => by
      rcases hcases with ⟨-, -, -, h⟩ | ⟨-, -, -, h⟩ | ⟨-, -, h, -⟩
      · exact h
      · exact h
      · exact (hno _ _ h).elim
    withoutGlyphs := fun hnone => by
      have hempty : iconText m a.usedIcons.toList = "" := by
        refine String.toList_eq_nil_iff.mp (List.eq_nil_iff_forall_not_mem.mpr fun c hc => ?_)
        obtain ⟨t, r, hr, hk, hmem, hif, hcp⟩ := mem_iconText_absorb.mp hc
        rw [hnone t r hr hk hmem hif] at hcp
        cases hcp
      rcases hcases with ⟨-, -, -, h⟩ | ⟨hne, -⟩ | ⟨hne, -⟩
      · exact h
      · exact (hne hempty).elim
      · exact (hne hempty).elim }

/-- A home icon with a glyph, a blank one without, and a star whose class starts with `is-`. -/
def mixedIcons : Metadata where
  icons := [("if-home", { declarations := some "content: '\\e900';" }),
    ("if-blank", { declarations := some "color: red;" }), ("is-star", { declarations := some "content: '\\e901';" })]

/-- The subset has the glyph of the home icon alone, though the buckets have a rule for each of the three. -/
theorem subset_passes_over_icons :
    let a := (({} : Aggregator).absorb mixedIcons ["if-home", "if-blank", "is-star"]).1
    let font : ByteArray := ⟨#[0, 1]⟩
    let s := subset font mixedIcons a.usedIcons.toList fun _ request => .ok request.text.toUTF8
    s.outcome = .subsetted 2 3 ∧ s.bytes ≠ font ∧
      (∃ r, (Token.synthesis "if-blank" mixedIcons).rule = some r ∧ r.kind = .icon ∧ r.css ∈ a.buckets.rules ∧
        codePoint? r.declarations = none) ∧
      ∃ r c, (Token.synthesis "is-star" mixedIcons).rule = some r ∧ r.kind = .icon ∧ r.css ∈ a.buckets.rules ∧
        codePoint? r.declarations = some c ∧ ∀ request, s.request = some request → c ∉ request.text.toList := by
  intro a font s
  refine ⟨by decide +kernel, by decide +kernel, ?_, ?_⟩
  · exact ⟨.ofToken .icon "if-blank" {} "color: red;", by decide +kernel, rfl, by decide +kernel, by decide +kernel⟩
  · exact ⟨.ofToken .icon "is-star" {} "content: '\\e901';", '\ue901', by decide +kernel, rfl, by decide +kernel,
      by decide +kernel, by decide +kernel⟩

end Font

end UtilityCss
