import UtilityCss.Proofs.RuleText
import UtilityCss.Text.Reading

/-!
# Selectors identify tokens

An escaped name is read backslash by backslash: what is escaped are just the significant characters, none of which a
reader takes for a hex digit, and no backslash is left over. So the name can be read back, and no two tokens have one
selector or one rule text, however their rules came about.
-/

namespace UtilityCss

namespace Selector

/-! ## Reading escapes -/

/-- A character of a selector as it is read: behind a backslash, or alone. -/
structure Glyph where
  escaped : Bool
  char : Char

/-- Reads a text from the left. A backslash takes the character behind it; only the last one can stand alone. -/
def glyphs : List Char → List Glyph
  | [] => []
  | '\\' :: c :: rest => ⟨true, c⟩ :: glyphs rest
  | c :: rest => ⟨false, c⟩ :: glyphs rest

/-- The text without its escapes. -/
def unescape (s : String) : String := String.ofList ((glyphs s.toList).map Glyph.char)

theorem glyphs_cons_of_ne {c : Char} (h : c ≠ '\\') (rest : List Char) :
    glyphs (c :: rest) = ⟨false, c⟩ :: glyphs rest := by
  conv_lhs => unfold glyphs
  split <;> simp_all

/-- An escaped text shows its characters, each significant one behind a backslash. -/
theorem glyphs_escape (s : String) : glyphs (escape s).toList = s.toList.map fun c => ⟨isSignificant c, c⟩ := by
  rw [escape, String.toList_ofList]
  induction s.toList with
  | nil => rfl
  | cons c cs ih =>
      rw [List.flatMap_cons, List.map_cons]
      cases hc : isSignificant c with
      | true =>
          have he : escapeChar c = ['\\', c] := by simp [escapeChar, hc]
          rw [he, List.cons_append, List.cons_append, List.nil_append, glyphs, ih]
      | false =>
          have hne : c ≠ '\\' := by
            rintro rfl
            revert hc
            decide
          have he : escapeChar c = [c] := by simp [escapeChar, hc]
          rw [he, List.cons_append, List.nil_append, glyphs_cons_of_ne hne, ih]

theorem unescape_escape (s : String) : unescape (escape s) = s := by
  rw [unescape, glyphs_escape, List.map_map]
  exact (congrArg String.ofList (List.map_id s.toList)).trans String.ofList_toList

theorem escaped_eq_isSignificant {s : String} {g : Glyph} (h : g ∈ glyphs (escape s).toList) :
    g.escaped = isSignificant g.char := by
  rw [glyphs_escape] at h
  obtain ⟨c, -, rfl⟩ := List.mem_map.mp h
  rfl

theorem of_isSignificant (p : Char → Bool) (hp : " !\"#$%&'()*+,./:;<=>?@[\\]^`\x7b|\x7d~".toList.all p = true)
    {c : Char} (h : isSignificant c = true) : p c = true :=
  List.all_eq_true.mp hp c (List.contains_iff_mem.mp h)

/-- Behind a backslash, a hex digit would begin the number of a character. -/
theorem not_isHexDigit {c : Char} (h : isSignificant c = true) : Text.isHexDigit c = false :=
  Bool.not_eq_true' _ |>.mp (of_isSignificant (!Text.isHexDigit ·) (by decide) h)

end Selector

/-! ## Selectors -/

/-- The declarations are no part of a selector, so two rules with one selector could have one text. -/
theorem Rule.eq_of_selector_eq {kind kind' : RuleKind} {t t' ds ds' : String} {v v' : Variant}
    (h : (Rule.ofToken kind t v ds).selector = (Rule.ofToken kind' t' v' ds').selector) : t = t' := by
  have hcss : (Rule.ofToken kind t v "").css = (Rule.ofToken kind' t' v' "").css :=
    congrArg (fun selector => selector ++ " \x7b " ++ "" ++ " \x7d") h
  exact Rule.eq_of_css_eq hcss

/-- An escaped name reads back, its significant characters and no others are escaped, none of them is a hex digit, and no
backslash is left over. Other tokens have other selectors and other rule texts. -/
theorem Selector.escape_identifies (s : String) :
    unescape (escape s) = s ∧
      (∀ g ∈ glyphs (escape s).toList, g.escaped = false → isSignificant g.char = false) ∧
      ⟨false, '\\'⟩ ∉ glyphs (escape s).toList ∧
      (∀ g ∈ glyphs (escape s).toList, g.escaped = true → Text.isHexDigit g.char = false) ∧
      ∀ t, t ≠ s → ∀ kind kind' v v' ds ds',
        (Rule.ofToken kind t v ds).selector ≠ (Rule.ofToken kind' s v' ds').selector ∧
        (Rule.ofToken kind t v ds).css ≠ (Rule.ofToken kind' s v' ds').css := by
  refine ⟨unescape_escape s, fun g hg he => (escaped_eq_isSignificant hg).symm.trans he, fun hg => ?_,
    fun g hg he => not_isHexDigit ((escaped_eq_isSignificant hg).symm.trans he), fun t ht kind kind' v v' ds ds' => ?_⟩
  · exact absurd (escaped_eq_isSignificant hg) (by decide)
  · exact ⟨fun h => ht (Rule.eq_of_selector_eq h), fun h => ht (Rule.eq_of_css_eq h)⟩

end UtilityCss
