import UtilityCss.Arbitrary
import Mathlib.Data.List.Basic

/-!
# Classes with a value of their own

A class is taken apart as `is-<keyword>-[<value>]` exactly if it has this form, and there is one way to do so: the
keyword has no bracket, so the first one opens the value, and the last character closes it. The declarations are the
template of the keyword with the value filled in.
-/

namespace UtilityCss.Arbitrary

variable {base keyword value keyword' value' : String}

/-! ## The form of a class -/

/-- The class is `is-<keyword>-[<value>]`. Dashes may stand in both parts, brackets only in the value. -/
structure Form (base keyword value : String) : Prop where
  eq : base = "is-" ++ keyword ++ "-[" ++ value ++ "]"
  keyword_ne : keyword ≠ ""
  unbracketed : '[' ∉ keyword.toList
  value_ne : value ≠ ""

theorem dropLast?_eq_some {c : Char} {s r : List Char} : dropLast? c s = some r ↔ s = r ++ [c] := by
  unfold dropLast?
  split
  · rename_i hlast
    obtain ⟨t, rfl⟩ := List.getLast?_eq_some_iff.mp hlast
    simp
  · rename_i hlast
    simp only [reduceCtorEq, false_iff]
    rintro rfl
    exact hlast (by simp)

theorem toList_form (keyword value : String) : ("is-" ++ keyword ++ "-[" ++ value ++ "]").toList =
    "is-".toList ++ ((keyword.toList ++ ['-']) ++ '[' :: (value.toList ++ [']'])) := by
  simp

theorem split?_eq_some : split? base = some (keyword, value) ↔ Form base keyword value := by
  simp only [split?, bind, Option.bind_eq_some_iff]
  constructor
  · rintro ⟨rest, hrest, ⟨before, after⟩, hcut, k, hk, v, hv, h⟩
    rw [Text.rest?_eq_some] at hrest
    obtain ⟨rfl, hbracket⟩ := Text.cutAt?_eq_some.mp hcut
    obtain rfl := dropLast?_eq_some.mp hk
    obtain rfl := dropLast?_eq_some.mp hv
    split at h
    · cases h
    · rename_i hempty
      cases h
      simp only [Bool.or_eq_true, List.isEmpty_iff, not_or] at hempty
      refine ⟨String.toList_inj.mp ?_, ?_, ?_, ?_⟩
      · simp only [hrest, toList_form, String.toList_ofList]
      · simpa using hempty.1
      · rw [String.toList_ofList]
        exact fun hmem => hbracket (List.mem_append_left _ hmem)
      · simpa using hempty.2
  · rintro ⟨rfl, hk, hbracket, hv⟩
    refine ⟨_, Text.rest?_eq_some.mpr (toList_form keyword value), (keyword.toList ++ ['-'], value.toList ++ [']']), ?_,
      keyword.toList, dropLast?_eq_some.mpr rfl, value.toList, dropLast?_eq_some.mpr rfl, ?_⟩
    · exact Text.cutAt?_eq_some.mpr ⟨rfl, by simpa using hbracket⟩
    · have hempty : (keyword.toList.isEmpty || value.toList.isEmpty) = false := by simp [hk, hv]
      simp [hempty]

theorem Form.unique (h : Form base keyword value) (h' : Form base keyword' value') :
    keyword = keyword' ∧ value = value' := by
  have hsplit : some (keyword, value) = some (keyword', value') :=
    (split?_eq_some.mpr h).symm.trans (split?_eq_some.mpr h')
  cases hsplit
  exact ⟨rfl, rfl⟩

/-! ## Templates -/

/-- The property keywords. -/
def keywords : List String := templates.map Prod.fst

theorem mem_keywords : keyword ∈ keywords ↔ ∃ t, (keyword, t) ∈ templates := by
  simp [keywords]

theorem nodup_keywords : keywords.Nodup := by decide +kernel

/-- A keyword has one template. -/
theorem lookup_templates {t : Template} : templates.lookup keyword = some t ↔ (keyword, t) ∈ templates := by
  rw [List.lookup_eq_some_iff]
  constructor
  · rintro ⟨before, after, heq, -⟩
    rw [heq]
    exact List.mem_append_right _ List.mem_cons_self
  · intro hmem
    obtain ⟨before, after, heq⟩ := List.append_of_mem hmem
    refine ⟨before, after, heq, fun p hp => bne_iff_ne.mpr ?_⟩
    have hnodup := nodup_keywords
    rw [keywords, heq, List.map_append, List.map_cons, List.nodup_append] at hnodup
    exact Ne.symm (hnodup.2.2 p.1 (List.mem_map_of_mem hp) keyword List.mem_cons_self)

theorem declarations?_eq_some {ds : String} :
    declarations? keyword value = some ds ↔ ∃ t, (keyword, t) ∈ templates ∧ t.fill value = ds := by
  simp only [declarations?, Option.map_eq_some_iff, lookup_templates]

/-- Every keyword can stand in a class. -/
theorem form_of_mem_keywords (hk : keyword ∈ keywords) (hv : value ≠ "") :
    Form ("is-" ++ keyword ++ "-[" ++ value ++ "]") keyword value := by
  have hplain : ∀ k ∈ keywords, k ≠ "" ∧ '[' ∉ k.toList := by decide +kernel
  exact ⟨rfl, (hplain keyword hk).1, (hplain keyword hk).2, hv⟩

theorem declarationsOf?_eq_some {ds : String} : declarationsOf? base = some ds ↔
    ∃ keyword value t, Form base keyword value ∧ (keyword, t) ∈ templates ∧ t.fill value = ds := by
  simp only [declarationsOf?, bind, Option.bind_eq_some_iff, Prod.exists, split?_eq_some, declarations?_eq_some,
    exists_and_left]

/-! ## The theorem -/

/-- A class is taken apart exactly if it has the form, in one way. It has declarations exactly if its keyword is one of
the property keywords, each of which has one template and goes with every value; they are the template filled in. -/
theorem split_accepts_form (base : String) :
    (∀ keyword value, split? base = some (keyword, value) ↔ Form base keyword value) ∧
      (∀ keyword keyword' value value', Form base keyword value → Form base keyword' value' →
        keyword = keyword' ∧ value = value') ∧
      ((declarationsOf? base).isSome = true ↔ ∃ keyword value, Form base keyword value ∧ keyword ∈ keywords) ∧
      (∀ ds, declarationsOf? base = some ds ↔
        ∃ keyword value t, Form base keyword value ∧ (keyword, t) ∈ templates ∧ t.fill value = ds) ∧
      (∀ keyword ∈ keywords, (∃! t, (keyword, t) ∈ templates) ∧
        ∀ value, value ≠ "" → Form ("is-" ++ keyword ++ "-[" ++ value ++ "]") keyword value) := by
  refine ⟨fun _ _ => split?_eq_some, fun _ _ _ _ => Form.unique, ?_, fun _ => declarationsOf?_eq_some,
    fun keyword hk => ⟨?_, fun _ => form_of_mem_keywords hk⟩⟩
  · simp only [Option.isSome_iff_exists, declarationsOf?_eq_some, mem_keywords]
    constructor
    · rintro ⟨ds, keyword, value, t, hform, hmem, -⟩
      exact ⟨keyword, value, hform, t, hmem⟩
    · rintro ⟨keyword, value, hform, t, hmem⟩
      exact ⟨t.fill value, keyword, value, t, hform, hmem, rfl⟩
  · obtain ⟨t, hmem⟩ := mem_keywords.mp hk
    refine ⟨t, hmem, fun t' hmem' => ?_⟩
    exact Option.some.inj ((lookup_templates.mpr hmem').symm.trans (lookup_templates.mpr hmem))

/-- The keyword holds a dash and begins like another keyword, the value holds brackets and a dash. -/
example : declarationsOf? "is-border-t-[calc(a[1]-[2])]" =
    some "border-top-width: calc(a[1]-[2]); border-style: solid;" := by
  decide +kernel

end UtilityCss.Arbitrary
