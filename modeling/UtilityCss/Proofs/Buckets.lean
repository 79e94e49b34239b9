import UtilityCss.Stylesheet.Buckets
import Mathlib.Data.List.Basic

/-!
# Appending buckets

Buckets with their append form a monoid, and every bucket of an append is the append of the buckets. What is in a
bucket is written in the text.
-/

namespace UtilityCss

/-- `t` is written somewhere in `s`. -/
def Holds (s t : String) : Prop := ∃ l r, s = l ++ t ++ r

theorem Holds.refl (s : String) : Holds s s := ⟨"", "", by simp⟩

theorem Holds.trans {s t u : String} (h : Holds s t) (h' : Holds t u) : Holds s u := by
  obtain ⟨l, r, rfl⟩ := h
  obtain ⟨l', r', rfl⟩ := h'
  exact ⟨l ++ l', r' ++ r, by simp only [String.append_assoc]⟩

theorem Holds.append_left {s t : String} (h : Holds s t) (u : String) : Holds (u ++ s) t := by
  obtain ⟨l, r, rfl⟩ := h
  exact ⟨u ++ l, r, by simp only [String.append_assoc]⟩

theorem Holds.append_right {s t : String} (h : Holds s t) (u : String) : Holds (s ++ u) t := by
  obtain ⟨l, r, rfl⟩ := h
  exact ⟨l, r ++ u, by simp only [String.append_assoc]⟩

theorem Holds.join {ts : List String} {t : String} (h : t ∈ ts) : Holds (String.join ts) t := by
  obtain ⟨before, after, rfl⟩ := List.append_of_mem h
  exact ⟨String.join before, String.join after, by simp [String.append_assoc]⟩

theorem ByBreakpoint.ext_get {α : Type} {m n : ByBreakpoint α} (h : ∀ p, m.get p = n.get p) : m = n := by
  cases m
  cases n
  simp only [ByBreakpoint.mk.injEq]
  exact ⟨h .xs, h .sm, h .md, h .lg, h .xl⟩

namespace Buckets

variable {a b c : Buckets}

theorem ext_get (hk : a.keyframes = b.keyframes) (hp : a.plain = b.plain)
    (hm : ∀ p, a.media.get p = b.media.get p) : a = b := by
  cases a
  cases b
  simp only [Buckets.mk.injEq]
  exact ⟨hk, hp, ByBreakpoint.ext_get hm⟩

@[simp] theorem keyframes_append (a b : Buckets) : (a ++ b).keyframes = a.keyframes ++ b.keyframes := rfl

@[simp] theorem plain_append (a b : Buckets) : (a ++ b).plain = a.plain ++ b.plain := rfl

@[simp] theorem media_append (a b : Buckets) (p : Breakpoint) :
    (a ++ b).media.get p = (a.media.get p).merge (· ++ ·) (b.media.get p) :=
  ByBreakpoint.get_ofFn _ p

@[simp] theorem keyframes_empty : ({} : Buckets).keyframes = [] := rfl

@[simp] theorem plain_empty : ({} : Buckets).plain = [] := rfl

@[simp] theorem media_empty (p : Breakpoint) : ({} : Buckets).media.get p = none :=
  ByBreakpoint.get_fill none p

@[simp] theorem append_empty (a : Buckets) : a ++ {} = a :=
  ext_get (by simp) (by simp) (by simp)

@[simp] theorem empty_append (a : Buckets) : {} ++ a = a :=
  ext_get (by simp) (by simp) (by simp)

theorem append_assoc (a b c : Buckets) : a ++ b ++ c = a ++ (b ++ c) := by
  refine ext_get ?_ ?_ fun p => ?_
  · simp only [keyframes_append, List.append_assoc]
  · simp only [plain_append, List.append_assoc]
  · simp only [media_append]
    exact Std.Associative.assoc (a.media.get p) (b.media.get p) (c.media.get p)

/-! ## Rules by their place -/

/-- The rules of one place: those for any width, or those of a breakpoint. -/
def rulesAt (b : Buckets) : Option Breakpoint → List String
  | none => b.plain
  | some p => (b.media.get p).getD []

def rules (b : Buckets) : List String := (none :: Breakpoint.all.map some).flatMap b.rulesAt

@[simp] theorem rulesAt_empty (place : Option Breakpoint) : ({} : Buckets).rulesAt place = [] := by
  cases place with
  | none => rfl
  | some p => simp [rulesAt]

@[simp] theorem rulesAt_append (a b : Buckets) (place : Option Breakpoint) :
    (a ++ b).rulesAt place = a.rulesAt place ++ b.rulesAt place := by
  cases place with
  | none => rfl
  | some p =>
      simp only [rulesAt, media_append]
      cases a.media.get p <;> cases b.media.get p <;> simp

theorem mem_places (place : Option Breakpoint) : place ∈ none :: Breakpoint.all.map some := by
  cases place with
  | none => exact List.mem_cons_self
  | some p => cases p <;> decide

theorem mem_rules {b : Buckets} {text : String} : text ∈ b.rules ↔ ∃ place, text ∈ b.rulesAt place := by
  simp only [rules, List.mem_flatMap]
  exact ⟨fun ⟨place, _, h⟩ => ⟨place, h⟩, fun ⟨place, h⟩ => ⟨place, mem_places place, h⟩⟩

/-! ## The text -/

theorem mediaBlock_eq (p : Breakpoint) (rules : List String) :
    mediaBlock p rules = if rules = [] then "" else
      p.mediaQuery ++ " \x7b\n" ++ String.join (rules.map fun r => "  " ++ r ++ "\n") ++ "\x7d\n" := by
  cases rules with
  | nil => rfl
  | cons r rs => simp [mediaBlock, lines, Function.comp_def]

theorem lines_eq_empty {ls : List String} : lines ls = "" ↔ ls = [] := by
  cases ls with
  | nil => simp [lines]
  | cons l ls =>
      refine iff_of_false (fun h => ?_) (List.cons_ne_nil l ls)
      rw [lines, List.map_cons, String.join_cons] at h
      have hl := (String.append_eq_empty_iff.mp h).1
      exact absurd (String.append_eq_empty_iff.mp hl).2 (by decide)

theorem mediaBlock_eq_empty {p : Breakpoint} {rules : List String} : mediaBlock p rules = "" ↔ rules = [] := by
  cases rules with
  | nil => exact iff_of_true rfl rfl
  | cons r rs =>
      refine iff_of_false (fun h => ?_) (List.cons_ne_nil r rs)
      exact absurd (String.append_eq_empty_iff.mp h).2 (by decide)

theorem get_eq_of_join_eq_empty {f : Breakpoint → String} (h : String.join (Breakpoint.all.map f) = "")
    (p : Breakpoint) : f p = "" := by
  simp only [Breakpoint.all, List.map_cons, String.join_cons, String.append_eq_empty_iff] at h
  cases p with
  | xs => exact h.1
  | sm => exact h.2.1
  | md => exact h.2.2.1
  | lg => exact h.2.2.2.1
  | xl => exact h.2.2.2.2.1

/-- Only empty buckets are written as the empty text, if no breakpoint has a block without rules. -/
theorem css_eq_empty (h : ∀ p, b.media.get p ≠ some []) : b.css = "" ↔ b = {} := by
  constructor
  · intro hc
    simp only [css, String.append_eq_empty_iff, lines_eq_empty] at hc
    obtain ⟨⟨hk, hp⟩, hm⟩ := hc
    refine ext_get hk hp fun p => ?_
    have hrules := mediaBlock_eq_empty.mp (get_eq_of_join_eq_empty hm p)
    rw [media_empty]
    cases hg : b.media.get p with
    | none => rfl
    | some rules =>
        rw [hg] at hrules
        exact absurd (hrules ▸ hg) (h p)
  · rintro rfl
    rfl

/-! ## Rules in the text -/

variable {text : String}

theorem lines_holds {ls : List String} {l : String} (h : l ∈ ls) : Holds (lines ls) (l ++ "\n") :=
  Holds.join (List.mem_map_of_mem h)

theorem mediaBlock_holds {p : Breakpoint} {rules : List String} (h : text ∈ rules) :
    Holds (mediaBlock p rules) (text ++ "\n") := by
  have hline : Holds (lines (rules.map ("  " ++ ·))) (text ++ "\n") :=
    (lines_holds (List.mem_map_of_mem h)).trans ⟨"  ", "", by simp [String.append_assoc]⟩
  cases rules with
  | nil => cases h
  | cons r rs => exact (hline.append_left _).append_right _

theorem css_holds (h : text ∈ b.rules) : Holds b.css (text ++ "\n") := by
  obtain ⟨place, hp⟩ := mem_rules.mp h
  cases place with
  | none => exact ((lines_holds hp).append_left _).append_right _
  | some p =>
      have hall : p ∈ Breakpoint.all := by cases p <;> decide
      exact ((Holds.join (List.mem_map_of_mem hall)).trans (mediaBlock_holds hp)).append_left _

/-! ## How often a rule is written -/

theorem count_rules_append (a b : Buckets) (text : String) :
    (a ++ b).rules.count text = a.rules.count text + b.rules.count text := by
  simp only [rules, Breakpoint.all, List.map_cons, List.map_nil, List.flatMap_cons, List.flatMap_nil, List.count_append,
    rulesAt_append, List.append_nil]
  omega

theorem count_rules_foldl (ds : List Buckets) (a : Buckets) (text : String) :
    (ds.foldl (· ++ ·) a).rules.count text = a.rules.count text + (ds.flatMap rules).count text := by
  induction ds generalizing a with
  | nil => simp
  | cons d ds ih =>
      rw [List.foldl_cons, ih, count_rules_append, List.flatMap_cons, List.count_append, Nat.add_assoc]

/-- If buckets write a rule text once in all, then exactly one of them writes it. -/
theorem exists_only_writer {ds : List Buckets} (h : (ds.flatMap rules).count text = 1) :
    ∃ d, ds.filter (text ∈ ·.rules) = [d] ∧ d.rules.count text = 1 := by
  induction ds with
  | nil => cases h
  | cons d ds ih =>
      rw [List.flatMap_cons, List.count_append] at h
      by_cases hd : text ∈ d.rules
      · have hpos := List.count_pos_iff.mpr hd
        have hrest : text ∉ ds.flatMap rules := List.count_eq_zero.mp (by omega)
        have hnone : ds.filter (text ∈ ·.rules) = [] :=
          List.filter_eq_nil_iff.mpr fun e he hmem =>
            hrest (List.mem_flatMap.mpr ⟨e, he, of_decide_eq_true hmem⟩)
        exact ⟨d, by rw [List.filter_cons_of_pos (by simpa using hd), hnone], by omega⟩
      · rw [List.count_eq_zero.mpr hd, Nat.zero_add] at h
        rw [List.filter_cons_of_neg (by simpa using hd)]
        exact ih h

end Buckets
end UtilityCss
