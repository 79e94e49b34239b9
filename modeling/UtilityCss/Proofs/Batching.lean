import UtilityCss.Proofs.Absorb

/-!
# Cutting token lists and taking them in again

The state after a list of tokens does not depend on where the list is cut into calls, and what was looked at
before adds nothing under the same metadata.
-/

namespace UtilityCss.Aggregator

variable {m : Metadata} {a : Aggregator}

/-! ## Cutting -/

theorem fresh_append (m : Metadata) (xs ys : List String) (a : Aggregator) :
    a.fresh m (xs ++ ys) = a.fresh m xs ++ (a.resolve m (a.fresh m xs)).fresh m ys := by
  simp only [fresh, resolve, List.filter_append, firstsBy_append, List.map_id]

theorem absorb_append (m : Metadata) (xs ys : List String) (a : Aggregator) :
    a.absorb m (xs ++ ys) =
      (((a.absorb m xs).1.absorb m ys).1, (a.absorb m xs).2 ++ ((a.absorb m xs).1.absorb m ys).2) := by
  rw [absorb_eq m (xs ++ ys) a, fresh_append, ← resolve_append, Buckets.ofTokens_append, ← Buckets.append_assoc,
    absorb_eq m xs a, absorb_eq m ys]
  rfl

/-! ## Taking in again -/

theorem looked_at (m : Metadata) (a : Aggregator) {xs : List String} {z : String} (hz : z ∈ xs) :
    z ∈ (a.absorb m xs).1.resolved ∨ Token.contributes m z = false := by
  by_cases hc : Token.contributes m z = true
  · left
    have hx : z ∈ xs.filter (Token.contributes m) := List.mem_filter.mpr ⟨hz, hc⟩
    rw [absorb_eq]
    have h : id z ∈ a.resolved ∨ id z ∈ (a.fresh m xs).map id := key_mem_firstsBy hx
    rw [List.map_id] at h
    exact List.mem_append.mpr h
  · exact Or.inr (by simpa using hc)

theorem fresh_eq_nil {zs : List String} (h : ∀ z ∈ zs, z ∈ a.resolved ∨ Token.contributes m z = false) :
    a.fresh m zs = [] := by
  refine firstsBy_eq_nil fun z hz => ?_
  obtain ⟨hz, hc⟩ := List.mem_filter.mp hz
  exact (h z hz).resolve_right (by simp [hc])

theorem absorb_of_fresh_eq_nil {zs : List String} (h : a.fresh m zs = []) : a.absorb m zs = (a, {}) := by
  simp [absorb_eq, h, resolve_nil]

/-! ## The theorem -/

/-- Token lists may be cut anywhere: the state is the same, and the delta of the whole is that of the parts, bucket
by bucket. Tokens of a list that was taken in, in any order and any number, then add nothing and change nothing. -/
theorem absorb_batches (m : Metadata) (a : Aggregator) (xs ys : List String) :
    let first := a.absorb m xs
    let second := first.1.absorb m ys
    a.absorb m (xs ++ ys) = (second.1, first.2 ++ second.2) ∧
      ∀ zs : List String, (∀ z ∈ zs, z ∈ xs) →
        (first.1.absorb m zs).2.isEmpty = true ∧ (first.1.absorb m zs).2.css = "" ∧
          (first.1.absorb m zs).1 = first.1 := by
  intro first second
  refine ⟨absorb_append m xs ys a, fun zs hzs => ?_⟩
  have h : first.1.absorb m zs = (first.1, {}) :=
    absorb_of_fresh_eq_nil (fresh_eq_nil fun z hz => looked_at m a (hzs z hz))
  rw [h]
  exact ⟨rfl, rfl, rfl⟩

/-- A pulse that is written in two variants, taken in again by an aggregator that saw other metadata before. -/
theorem absorb_batches_pulse :
    let pulse : RuleSource := { declarations := some "animation:pulse 1s", keyframes := some "@keyframes pulse\x7b\x7d" }
    let m : Metadata := { styles := [("is-pulse", pulse)] }
    let a := (({} : Aggregator).absorb {} ["is-p-[4px]", "is-pulse"]).1
    let xs := ["foo", "is-pulse", "md:is-pulse", "is-p-[4px]", "if-home"]
    let zs := ["md:is-pulse", "if-home", "is-pulse", "md:is-pulse", "foo"]
    (∀ z ∈ zs, z ∈ xs) ∧ (((a.absorb m xs).1.absorb m zs).2.isEmpty = true ∧
      ((a.absorb m xs).1.absorb m zs).2.css = "" ∧ ((a.absorb m xs).1.absorb m zs).1 = (a.absorb m xs).1) := by
  intro pulse m a xs zs
  have h : ∀ z ∈ zs, z ∈ xs := by decide
  exact ⟨h, (absorb_batches m a xs []).2 zs h⟩

end UtilityCss.Aggregator
