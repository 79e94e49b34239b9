/-! Sets of names, kept in ascending order. -/
namespace UtilityCss.Text

/-- Puts a name at its place in an ascending list, once. -/
def insertName (x : String) : List String → List String
  | [] => [x]
  | y :: ys => if x < y then x :: y :: ys else if x = y then y :: ys else y :: insertName x ys

theorem mem_insertName {a x : String} {ys : List String} :
    a ∈ insertName x ys ↔ a = x ∨ a ∈ ys := by
  induction ys with
  | nil => simp [insertName]
  | cons y ys ih =>
    simp only [insertName]
    split
    · simp
    · split
      · rename_i h
        simp [h]
      · simp only [List.mem_cons, ih]
        exact or_left_comm

theorem insertName_ascending {x : String} {ys : List String} (h : ys.Pairwise (· < ·)) :
    (insertName x ys).Pairwise (· < ·) := by
  induction ys with
  | nil => simp [insertName]
  | cons y ys ih =>
    have hy := List.pairwise_cons.mp h
    simp only [insertName]
    split
    · rename_i hxy
      refine List.pairwise_cons.mpr ⟨?_, h⟩
      intro b hb
      rcases List.mem_cons.mp hb with rfl | hb
      · exact hxy
      · exact String.lt_trans hxy (hy.1 b hb)
    · split
      · exact h
      · rename_i hxy hne
        have hyx : y < x := Std.lt_of_le_of_ne (String.not_lt.mp hxy) (Ne.symm hne)
        refine List.pairwise_cons.mpr ⟨?_, ih hy.2⟩
        intro b hb
        rcases mem_insertName.mp hb with rfl | hb
        · exact hyx
        · exact hy.1 b hb

/-- A set of names; the order is by code point. -/
structure NameSet where
  toList : List String
  ascending : toList.Pairwise (· < ·)

namespace NameSet

def empty : NameSet := ⟨[], .nil⟩

instance : Membership String NameSet where
  mem s x := x ∈ s.toList

def insert (s : NameSet) (x : String) : NameSet :=
  ⟨insertName x s.toList, insertName_ascending s.ascending⟩

@[simp] theorem mem_insert {s : NameSet} {a x : String} : a ∈ s.insert x ↔ a = x ∨ a ∈ s :=
  mem_insertName

end NameSet
end UtilityCss.Text
