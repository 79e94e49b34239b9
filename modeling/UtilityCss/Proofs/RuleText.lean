import UtilityCss.Rule
import Mathlib.Data.List.Basic

/-!
# A rule text determines its token

The class name stands escaped in the selector, and what follows it is a character that an escaped name never
contains bare. So the name can be read back, whatever the declarations are.
-/

namespace UtilityCss

/-! ## Reading a name back -/

namespace Selector

/-- The class name in front of a selector text, its escapes undone, and what follows it: a name ends at a
significant character that is not escaped. -/
def readName : List Char → List Char × List Char
  | [] => ([], [])
  | '\\' :: c :: rest => ((c :: (readName rest).1), (readName rest).2)
  | c :: rest => if isSignificant c then ([], c :: rest) else ((c :: (readName rest).1), (readName rest).2)

theorem readName_of_significant {c : Char} (h : isSignificant c = true) (hb : c ≠ '\\') (rest : List Char) :
    readName (c :: rest) = ([], c :: rest) := by
  unfold readName
  split
  · simp_all
  · simp_all
  · simp_all

theorem readName_of_not_significant {c : Char} (h : isSignificant c = false) (rest : List Char) :
    readName (c :: rest) = (c :: (readName rest).1, (readName rest).2) := by
  have hb : c ≠ '\\' := by
    rintro rfl
    revert h
    decide
  conv_lhs => unfold readName
  split <;> simp_all

theorem readName_escape (s : List Char) {c : Char} (h : isSignificant c = true) (hb : c ≠ '\\') (rest : List Char) :
    readName (s.flatMap escapeChar ++ c :: rest) = (s, c :: rest) := by
  induction s with
  | nil => exact readName_of_significant h hb rest
  | cons d s ih =>
      rw [List.flatMap_cons, List.append_assoc]
      cases hd : isSignificant d with
      | true =>
          have he : escapeChar d = ['\\', d] := by simp [escapeChar, hd]
          rw [he, List.cons_append, List.cons_append, List.nil_append, readName, ih]
      | false =>
          have he : escapeChar d = [d] := by simp [escapeChar, hd]
          rw [he, List.cons_append, List.nil_append, readName_of_not_significant hd, ih]

end Selector

/-! ## Rules -/

theorem Token.synthesis_rule {m : Metadata} {t : String} {r : Rule} (h : (Token.synthesis t m).rule = some r) :
    ∃ kind declarations, r = Rule.ofToken kind t (Token.parse t).variant declarations := by
  simp only [Token.synthesis, synthesize] at h
  split at h
  · rename_i ds _
    exact ⟨.arbitrary, ds, (Option.some.inj h).symm⟩
  · split at h
    · obtain ⟨ds, _, hr⟩ := Option.map_eq_some_iff.mp h
      exact ⟨.style, ds, hr.symm⟩
    · split at h
      · obtain ⟨ds, _, hr⟩ := Option.map_eq_some_iff.mp h
        exact ⟨.icon, ds, hr.symm⟩
      · cases h

theorem Variant.stateSelectors_cases (v : Variant) :
    v.stateSelectors.toList = [] ∨ ∃ rest, v.stateSelectors.toList = ':' :: rest := by
  unfold Variant.stateSelectors
  cases v.states with
  | nil => exact Or.inl (by simp)
  | cons s ss => exact Or.inr ⟨s.name.toList ++ (String.join (ss.map PseudoState.selector)).toList, by
      simp [PseudoState.selector]⟩

theorem Variant.ancestor_cases (v : Variant) : v.ancestor = "" ∨ v.ancestor = ".dark " := by
  unfold Variant.ancestor
  cases v.dark with
  | false => exact Or.inl rfl
  | true => exact Or.inr rfl

/-- What ends the name in a rule text, and what follows it. -/
def Rule.EndsName (c : Char) (rest : List Char) : Prop := c = ':' ∨ c = ' ' ∧ ∃ body, rest = '\x7b' :: body

theorem Rule.EndsName.readName {c : Char} {rest : List Char} (h : Rule.EndsName c rest) (s : List Char) :
    Selector.readName (s.flatMap Selector.escapeChar ++ c :: rest) = (s, c :: rest) := by
  rcases h with rfl | ⟨rfl, _⟩
  · exact Selector.readName_escape s (by decide) (by decide) rest
  · exact Selector.readName_escape s (by decide) (by decide) rest

/-- A selector with the dark ancestor is no selector without it: `dark` would be a name with a selector behind it. -/
theorem Rule.dark_ne_plain {c : Char} {rest : List Char} (h : Rule.EndsName c rest) (s selector : List Char) :
    ".dark ".toList ++ '.' :: selector ≠ '.' :: (s.flatMap Selector.escapeChar ++ c :: rest) := by
  intro heq
  have htail : "dark".toList.flatMap Selector.escapeChar ++ ' ' :: '.' :: selector =
      s.flatMap Selector.escapeChar ++ c :: rest := (List.cons.inj heq).2
  have hread := Selector.readName_escape "dark".toList (c := ' ') (by decide) (by decide) ('.' :: selector)
  rw [htail, h.readName s] at hread
  obtain ⟨hc, hrest⟩ := List.cons.inj (Prod.mk.inj hread).2
  rcases h with rfl | ⟨_, body, hb⟩
  · exact absurd hc (by decide)
  · rw [hb] at hrest
    exact absurd (List.cons.inj hrest).1 (by decide)

/-- Behind the name comes a pseudo-class, a pseudo-element, or a blank and the opening brace. -/
theorem Rule.css_ofToken (kind : RuleKind) (t : String) (v : Variant) (ds : String) :
    ∃ c rest, (Rule.ofToken kind t v ds).css.toList =
        v.ancestor.toList ++ '.' :: (t.toList.flatMap Selector.escapeChar ++ c :: rest) ∧
      Rule.EndsName c rest := by
  have hcss : (Rule.ofToken kind t v ds).css.toList =
      v.ancestor.toList ++ '.' :: (t.toList.flatMap Selector.escapeChar ++ (v.stateSelectors.toList ++
        ((if kind = .icon then ":before" else "").toList ++ ' ' :: '\x7b' :: ' ' :: (ds ++ " \x7d").toList))) := by
    simp [Rule.css, Rule.ofToken, Selector.ofToken, Selector.escape]
  rw [hcss]
  rcases v.stateSelectors_cases with hs | ⟨rest, hs⟩
  · rw [hs, List.nil_append]
    by_cases hk : kind = .icon
    · rw [if_pos hk]
      exact ⟨':', _, rfl, Or.inl rfl⟩
    · rw [if_neg hk]
      exact ⟨' ', _, rfl, Or.inr ⟨rfl, _, rfl⟩⟩
  · rw [hs]
    exact ⟨':', _, rfl, Or.inl rfl⟩

theorem Rule.eq_of_css_eq {kind kind' : RuleKind} {t t' ds ds' : String} {v v' : Variant}
    (h : (Rule.ofToken kind t v ds).css = (Rule.ofToken kind' t' v' ds').css) : t = t' := by
  obtain ⟨c, rest, hcss, hc⟩ := Rule.css_ofToken kind t v ds
  obtain ⟨c', rest', hcss', hc'⟩ := Rule.css_ofToken kind' t' v' ds'
  have heq := hcss.symm.trans ((congrArg String.toList h).trans hcss')
  have hname (hs : t.toList.flatMap Selector.escapeChar ++ c :: rest =
      t'.toList.flatMap Selector.escapeChar ++ c' :: rest') : t = t' := by
    have hread := hc.readName t.toList
    rw [hs, hc'.readName t'.toList] at hread
    exact (String.toList_injective (Prod.mk.inj hread).1).symm
  rcases v.ancestor_cases with ha | ha <;> rcases v'.ancestor_cases with ha' | ha' <;> rw [ha, ha'] at heq
  · exact hname (List.cons.inj heq).2
  · exact absurd heq.symm (Rule.dark_ne_plain hc t.toList _)
  · exact absurd heq (Rule.dark_ne_plain hc' t'.toList _)
  · exact hname (List.cons.inj (List.append_cancel_left heq)).2

/-- Two tokens with the same rule text are the same token, even under different metadata. -/
theorem Token.eq_of_rule_css_eq {m m' : Metadata} {t t' text : String}
    (h : (Token.synthesis t m).rule.map Rule.css = some text)
    (h' : (Token.synthesis t' m').rule.map Rule.css = some text) : t = t' := by
  obtain ⟨r, hr, hcss⟩ := Option.map_eq_some_iff.mp h
  obtain ⟨r', hr', hcss'⟩ := Option.map_eq_some_iff.mp h'
  obtain ⟨kind, ds, rfl⟩ := Token.synthesis_rule hr
  obtain ⟨kind', ds', rfl⟩ := Token.synthesis_rule hr'
  exact Rule.eq_of_css_eq (hcss.trans hcss'.symm)

end UtilityCss
