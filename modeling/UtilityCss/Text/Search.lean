/-! Searching from the left: what a text begins with, where it is cut, and what a table has under a key. -/
namespace UtilityCss

namespace Text

variable {α : Type} [DecidableEq α]

/-- What follows `p`, if `s` begins with it. -/
def rest? : List α → List α → Option (List α)
  | [], s => some s
  | _ :: _, [] => none
  | c :: p, d :: s => if c = d then rest? p s else none

theorem rest?_eq_some {p s r : List α} : rest? p s = some r ↔ s = p ++ r := by
  induction p generalizing s with
  | nil => simp [rest?]
  | cons c p ih =>
    cases s with
    | nil => simp [rest?]
    | cons d s =>
      by_cases h : c = d
      · simp [rest?, h, ih]
      · simp [rest?, h, Ne.symm h]

theorem rest?_length {p s r : List α} (h : rest? p s = some r) : r.length ≤ s.length := by
  rw [rest?_eq_some.mp h, List.length_append]
  omega

/-- Whether `s` begins with `p`. -/
def startsWith (p s : String) : Bool := (rest? p.toList s.toList).isSome

/-- The text before the first `c`, and the text after it. -/
def cutAt? (c : Char) : List Char → Option (List Char × List Char)
  | [] => none
  | d :: s => if d = c then some ([], s) else (cutAt? c s).map fun (b, a) => (d :: b, a)

/-- What follows the first occurrence of `p`. -/
def after? (p : List Char) (s : List Char) : Option (List Char) :=
  match rest? p s with
  | some rest => some rest
  | none =>
    match s with
    | [] => none
    | _ :: t => after? p t

/-- Cuts `s` at every `c`: as many pieces as there are cuts, and one more. -/
def pieces (c : α) : List α → List (List α)
  | [] => [[]]
  | d :: s =>
    if d = c then [] :: pieces c s
    else match pieces c s with
      | [] => [[d]]
      | p :: ps => (d :: p) :: ps

/-- The pieces with `c` between them. -/
def joinPieces (c : Char) : List (List Char) → List Char
  | [] => []
  | [p] => p
  | p :: ps => p ++ c :: joinPieces c ps

theorem cutAt?_eq_some {c : Char} {s b a : List Char} :
    cutAt? c s = some (b, a) ↔ s = b ++ c :: a ∧ c ∉ b := by
  induction s generalizing b with
  | nil => simp [cutAt?]
  | cons d s ih =>
    by_cases hd : d = c
    · rw [cutAt?, if_pos hd]
      cases b with
      | nil => simp [hd, eq_comm]
      | cons e b =>
        simp only [Option.some.injEq, Prod.mk.injEq, List.nil_eq, reduceCtorEq, false_and, false_iff, not_and]
        intro hs hc
        rw [List.cons_append, List.cons.injEq, hd] at hs
        exact hc (hs.1 ▸ List.mem_cons_self)
    · rw [cutAt?, if_neg hd]
      cases b with
      | nil => simp [hd]
      | cons e b =>
        simp only [Option.map_eq_some_iff, Prod.mk.injEq, List.cons_append, List.cons.injEq, List.mem_cons, not_or]
        constructor
        · rintro ⟨⟨b', a'⟩, hs, ⟨rfl, rfl⟩, rfl⟩
          exact ⟨⟨rfl, (ih.mp hs).1⟩, Ne.symm hd, (ih.mp hs).2⟩
        · rintro ⟨⟨rfl, hs⟩, -, hb⟩
          exact ⟨(b, a), ih.mpr ⟨hs, hb⟩, ⟨rfl, rfl⟩, rfl⟩

theorem cutAt?_eq_none {c : Char} {s : List Char} : cutAt? c s = none ↔ c ∉ s := by
  constructor
  · intro h hc
    obtain ⟨b, a, hs, hb⟩ := List.eq_append_cons_of_mem hc
    rw [cutAt?_eq_some.mpr ⟨hs, hb⟩] at h
    cases h
  · intro h
    refine Option.eq_none_iff_forall_ne_some.mpr fun ⟨b, a⟩ hs => h ?_
    rw [(cutAt?_eq_some.mp hs).1]
    exact List.mem_append_right _ List.mem_cons_self

end Text

variable {κ β : Type} [DecidableEq κ] [BEq κ] [LawfulBEq κ] {k l : κ}

theorem lookup_filter_ne {es : List (κ × β)} (h : l ≠ k) : (es.filter (·.1 ≠ k)).lookup l = es.lookup l := by
  induction es with
  | nil => rfl
  | cons e es ih =>
    obtain ⟨k', v⟩ := e
    by_cases hk : k' = k
    · have hne : (l == k') = false := beq_eq_false_iff_ne.mpr (hk ▸ h)
      rw [List.filter_cons_of_neg (by simp [hk]), ih, List.lookup_cons, hne]
    · rw [List.filter_cons_of_pos (by simpa using hk), List.lookup_cons, List.lookup_cons, ih]

/-- What a table has under a key after an entry took the place of all others with its key. -/
theorem lookup_put (k l : κ) (v : β) (es : List (κ × β)) :
    ((k, v) :: es.filter (·.1 ≠ k)).lookup l = if l = k then some v else es.lookup l := by
  rw [List.lookup_cons]
  by_cases h : l = k
  · rw [if_pos h, beq_iff_eq.mpr h]
  · rw [if_neg h, beq_eq_false_iff_ne.mpr h]
    exact lookup_filter_ne h

end UtilityCss
