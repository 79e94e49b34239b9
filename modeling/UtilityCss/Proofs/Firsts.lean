import UtilityCss.Path
import Mathlib.Data.List.Basic

/-!
# First occurrences

The entries of a list whose key was not met before, one for each key, in their order.
-/

namespace UtilityCss

variable {α κ : Type} [DecidableEq κ]

/-- The entries of `xs` with a key that is not in `seen`, the first one for each key. -/
def firstsBy (key : α → κ) (seen : List κ) (xs : List α) : List α :=
  (xs.filter fun x => !seen.contains (key x)).eraseDupsBy fun x y => key x == key y

@[simp] theorem firstsBy_nil (key : α → κ) (seen : List κ) : firstsBy key seen [] = [] := rfl

theorem firstsBy_cons_of_mem {key : α → κ} {seen : List κ} {x : α} (h : key x ∈ seen) (xs : List α) :
    firstsBy key seen (x :: xs) = firstsBy key seen xs := by
  simp [firstsBy, h]

theorem firstsBy_cons_of_not_mem {key : α → κ} {seen : List κ} {x : α} (h : key x ∉ seen) (xs : List α) :
    firstsBy key seen (x :: xs) = x :: firstsBy key (seen ++ [key x]) xs := by
  unfold firstsBy
  rw [List.filter_cons_of_pos (by simpa using h), List.eraseDupsBy_cons, List.filter_filter]
  congr 2
  refine List.filter_congr fun y _ => ?_
  by_cases hy : key y = key x <;> simp [hy]

theorem firstsBy_id_nil (xs : List κ) : firstsBy id [] xs = xs.eraseDups := by
  simp [firstsBy, List.eraseDups]

theorem firstsBy_nil_seen (key : α → κ) (xs : List α) :
    firstsBy key [] xs = xs.eraseDupsBy fun x y => key x == key y := by
  simp [firstsBy]

/-- Keys that were met before take out their entries and change nothing else. -/
theorem firstsBy_eq_filter (key : α → κ) (seen : List κ) (xs : List α) :
    firstsBy key seen xs = (firstsBy key [] xs).filter fun x => !seen.contains (key x) := by
  induction xs generalizing seen with
  | nil => rfl
  | cons x xs ih =>
      rw [firstsBy_cons_of_not_mem List.not_mem_nil, List.nil_append, ih [key x], List.filter_cons,
        List.filter_filter]
      by_cases h : key x ∈ seen
      · rw [firstsBy_cons_of_mem h, ih seen, if_neg (by simpa using h)]
        refine List.filter_congr fun y _ => ?_
        by_cases hy : key y = key x <;> simp [hy, h]
      · rw [firstsBy_cons_of_not_mem h, ih (seen ++ [key x]), if_pos (by simpa using h)]
        refine congrArg (x :: ·) (List.filter_congr fun y _ => ?_)
        simp

/-- Going through a list in two parts: the second part knows the keys that the first one added. -/
theorem firstsBy_append (key : α → κ) (seen : List κ) (xs ys : List α) :
    firstsBy key seen (xs ++ ys) =
      firstsBy key seen xs ++ firstsBy key (seen ++ (firstsBy key seen xs).map key) ys := by
  induction xs generalizing seen with
  | nil => simp
  | cons x xs ih =>
      by_cases h : key x ∈ seen
      · rw [List.cons_append, firstsBy_cons_of_mem h, firstsBy_cons_of_mem h, ih]
      · rw [List.cons_append, firstsBy_cons_of_not_mem h, firstsBy_cons_of_not_mem h, ih]
        simp only [List.map_cons, List.cons_append, List.append_assoc, List.nil_append]

theorem firstsBy_eq_nil {key : α → κ} {seen : List κ} {xs : List α} (h : ∀ x ∈ xs, key x ∈ seen) :
    firstsBy key seen xs = [] := by
  induction xs with
  | nil => rfl
  | cons x xs ih =>
      rw [firstsBy_cons_of_mem (h x List.mem_cons_self)]
      exact ih fun y hy => h y (List.mem_cons_of_mem _ hy)

theorem mem_of_mem_firstsBy {key : α → κ} {seen : List κ} {xs : List α} {x : α}
    (h : x ∈ firstsBy key seen xs) : x ∈ xs ∧ key x ∉ seen := by
  induction xs generalizing seen with
  | nil => cases h
  | cons y xs ih =>
      by_cases hy : key y ∈ seen
      · rw [firstsBy_cons_of_mem hy] at h
        exact ⟨List.mem_cons_of_mem _ (ih h).1, (ih h).2⟩
      · rw [firstsBy_cons_of_not_mem hy] at h
        rcases List.mem_cons.mp h with rfl | h
        · exact ⟨List.mem_cons_self, hy⟩
        · exact ⟨List.mem_cons_of_mem _ (ih h).1, fun hs => (ih h).2 (List.mem_append_left _ hs)⟩

theorem key_mem_firstsBy {key : α → κ} {seen : List κ} {xs : List α} {x : α} (h : x ∈ xs) :
    key x ∈ seen ∨ key x ∈ (firstsBy key seen xs).map key := by
  induction xs generalizing seen with
  | nil => cases h
  | cons y xs ih =>
      by_cases hy : key y ∈ seen
      · rw [firstsBy_cons_of_mem hy]
        rcases List.mem_cons.mp h with rfl | h
        · exact Or.inl hy
        · exact ih h
      · rw [firstsBy_cons_of_not_mem hy, List.map_cons]
        rcases List.mem_cons.mp h with rfl | h
        · exact Or.inr List.mem_cons_self
        · have hs : key x ∈ seen ++ [key y] ∨ _ := ih h
          rcases hs with hs | hs
          · rcases List.mem_append.mp hs with hs | hs
            · exact Or.inl hs
            · exact Or.inr (List.mem_singleton.mp hs ▸ List.mem_cons_self)
          · exact Or.inr (List.mem_cons_of_mem _ hs)

theorem mem_map_firstsBy {key : α → κ} {seen : List κ} {xs : List α} {k : κ} :
    k ∈ (firstsBy key seen xs).map key ↔ k ∉ seen ∧ ∃ x ∈ xs, key x = k := by
  constructor
  · intro h
    obtain ⟨x, hx, rfl⟩ := List.mem_map.mp h
    obtain ⟨hm, hs⟩ := mem_of_mem_firstsBy hx
    exact ⟨hs, x, hm, rfl⟩
  · rintro ⟨hs, x, hx, rfl⟩
    exact (key_mem_firstsBy hx).resolve_left hs

theorem nodup_map_firstsBy (key : α → κ) (seen : List κ) (xs : List α) :
    ((firstsBy key seen xs).map key).Nodup := by
  induction xs generalizing seen with
  | nil => exact List.nodup_nil
  | cons x xs ih =>
      by_cases h : key x ∈ seen
      · rw [firstsBy_cons_of_mem h]
        exact ih seen
      · rw [firstsBy_cons_of_not_mem h, List.map_cons, List.nodup_cons]
        refine ⟨fun hx => ?_, ih _⟩
        obtain ⟨y, hy, hxy⟩ := List.mem_map.mp hx
        have hnew := (mem_of_mem_firstsBy hy).2
        rw [hxy] at hnew
        exact hnew (List.mem_append_right _ List.mem_cons_self)

theorem Path.distinct_eq_firstsBy (ps : List Path) : distinct ps = firstsBy components [] ps := by
  induction ps with
  | nil => rfl
  | cons p ps ih =>
      rw [distinct, ih, firstsBy_cons_of_not_mem List.not_mem_nil, List.nil_append, firstsBy_eq_filter _ [p.components]]
      refine congrArg (p :: ·) (List.filter_congr fun q _ => ?_)
      simp [same, beq_eq_decide, eq_comm]

end UtilityCss
