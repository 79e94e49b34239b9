import UtilityCss.Glob.Match
import Mathlib.Data.List.Basic

/-!
# Where marks stand

A move takes marks from some positions to others. Said by positions, the moves over literal characters only pass over
their bytes, so that a pattern of characters asks for a prefix of the path.
-/

namespace UtilityCss.Glob

/-! ## Moves -/

namespace Marks

/-- Whether a position is marked. -/
def At (ms : Marks) (i : Nat) : Prop := ms[i]? = some true

variable {p : UInt8 → Bool} {s : Bytes} {ms : Marks} {i : Nat}

theorem at_start : (start s).At i ↔ i = 0 := by
  cases i with
  | zero => simp [At, start]
  | succ i =>
      refine iff_of_false (fun h => ?_) (Nat.succ_ne_zero i)
      have hmem : true ∈ List.replicate s.length false := List.mem_of_getElem? (by simpa [At, start] using h)
      cases List.eq_of_mem_replicate hmem

theorem at_advance : (advance p s ms).At i ↔ ∃ j b, i = j + 1 ∧ ms.At j ∧ s[j]? = some b ∧ p b = true := by
  cases i with
  | zero => simp [At, advance]
  | succ i =>
      simp only [At, advance, List.getElem?_cons_succ, List.getElem?_zipWith, Nat.add_right_cancel_iff]
      constructor
      · intro h
        split at h
        · rename_i b m hb hm
          have hand : (m && p b) = true := by simpa using h
          obtain ⟨rfl, hp⟩ := Bool.and_eq_true_iff.mp hand
          exact ⟨i, b, rfl, hm, hb, hp⟩
        · cases h
      · rintro ⟨_, b, rfl, hm, hb, hp⟩
        simp [hm, hb, hp]

/-- Whether `p` holds of the bytes from position `j` up to position `i`. -/
def Between (p : UInt8 → Bool) (s : Bytes) (j i : Nat) : Prop := ∀ k, j ≤ k → k < i → ∃ b, s[k]? = some b ∧ p b = true

theorem between_cons_succ {b : UInt8} {j : Nat} : Between p (b :: s) (j + 1) (i + 1) ↔ Between p s j i := by
  constructor
  · intro h k hj hi
    simpa using h (k + 1) (by omega) (by omega)
  · intro h k hj hi
    obtain ⟨k, rfl⟩ : ∃ k', k = k' + 1 := ⟨k - 1, by omega⟩
    simpa using h k (by omega) (by omega)

theorem between_cons_zero {b : UInt8} : Between p (b :: s) 0 (i + 1) ↔ p b = true ∧ Between p s 0 i := by
  constructor
  · intro h
    exact ⟨by simpa using h 0 (Nat.le_refl _) (Nat.succ_pos i),
      between_cons_succ.mp fun k _ hi => h k (Nat.zero_le k) hi⟩
  · rintro ⟨hp, h⟩ k - hi
    cases k with
    | zero => exact ⟨b, rfl, hp⟩
    | succ k => exact between_cons_succ.mpr h (k + 1) (by omega) hi

/-- A mark is carried over the bytes that satisfy `p`, up to the first one that does not. -/
theorem at_spread {reached : Bool} (h : ms.length = s.length + 1) :
    (spread p reached s ms).At i ↔
      i ≤ s.length ∧ ∃ j ≤ i, (ms.At j ∨ j = 0 ∧ reached = true) ∧ Between p s j i := by
  induction s generalizing ms reached i with
  | nil =>
      obtain ⟨m, rfl⟩ := List.length_eq_one_iff.mp h
      cases i <;> cases m <;> cases reached <;> simp [At, spread, Between]
  | cons b s ih =>
      obtain ⟨m, ms, rfl⟩ := List.exists_cons_of_length_eq_add_one h
      have hfront (j : Nat) : At (m :: ms) (j + 1) ↔ At ms j := by simp [At]
      have hzero : (At (m :: ms) 0 ∨ 0 = 0 ∧ reached = true) ↔ (m || reached) = true := by
        cases m <;> simp [At]
      cases i with
      | zero =>
          have hl : (spread p reached (b :: s) (m :: ms)).At 0 ↔ (m || reached) = true := by simp [At, spread]
          rw [hl, ← hzero]
          constructor
          · exact fun hm => ⟨Nat.zero_le _, 0, Nat.le_refl _, hm, fun k _ hk => absurd hk (Nat.not_lt_zero k)⟩
          · rintro ⟨-, j, hj, hm, -⟩
            obtain rfl := Nat.le_zero.mp hj
            exact hm
      | succ i =>
          have hl : (spread p reached (b :: s) (m :: ms)).At (i + 1) ↔
              (spread p ((m || reached) && p b) s ms).At i := by simp [At, spread]
          rw [hl, ih (by simpa using h), List.length_cons, Nat.add_le_add_iff_right]
          refine and_congr_right fun _ => ⟨?_, ?_⟩
          · rintro ⟨j, hj, hm | ⟨rfl, hm⟩, hp⟩
            · exact ⟨j + 1, Nat.succ_le_succ hj, Or.inl ((hfront j).mpr hm), between_cons_succ.mpr hp⟩
            · obtain ⟨hm, hb⟩ := Bool.and_eq_true_iff.mp hm
              exact ⟨0, Nat.zero_le _, hzero.mpr hm, between_cons_zero.mpr ⟨hb, hp⟩⟩
          · rintro ⟨j, hj, hm, hp⟩
            cases j with
            | zero =>
                obtain ⟨hb, hp⟩ := between_cons_zero.mp hp
                exact ⟨0, Nat.zero_le _, Or.inr ⟨rfl, Bool.and_eq_true_iff.mpr ⟨hzero.mp hm, hb⟩⟩, hp⟩
            | succ j =>
                have hm : At ms j := (hfront j).mp (hm.resolve_right fun h => Nat.succ_ne_zero j h.1)
                exact ⟨j, Nat.le_of_succ_le_succ hj, Or.inl hm, between_cons_succ.mp hp⟩

theorem cons_isPrefix_drop {b : UInt8} {bs s : Bytes} {j : Nat} :
    b :: bs <+: s.drop j ↔ s[j]? = some b ∧ bs <+: s.drop (j + 1) := by
  by_cases hj : j < s.length
  · rw [List.drop_eq_getElem_cons hj, List.cons_prefix_cons, List.getElem?_eq_getElem hj, Option.some_inj,
      eq_comm]
  · have hnil : s.drop j = [] := List.drop_eq_nil_of_le (Nat.le_of_not_lt hj)
    simp [hnil, List.getElem?_eq_none (Nat.le_of_not_lt hj)]

/-- Moves over bytes one by one pass over a part of the text. -/
theorem at_foldl_advance {bs : Bytes} :
    (bs.foldl (fun ms b => advance (· == b) s ms) ms).At i ↔ ∃ j, i = j + bs.length ∧ ms.At j ∧ bs <+: s.drop j := by
  induction bs generalizing ms with
  | nil => simp [At]
  | cons b bs ih =>
      rw [List.foldl_cons, ih]
      simp only [at_advance, beq_iff_eq, cons_isPrefix_drop, List.length_cons]
      constructor
      · rintro ⟨_, rfl, ⟨j, _, rfl, hm, hb, rfl⟩, hpre⟩
        exact ⟨j, by omega, hm, hb, hpre⟩
      · rintro ⟨j, rfl, hm, hb, hpre⟩
        exact ⟨j + 1, by omega, ⟨j, b, rfl, hm, hb, rfl⟩, hpre⟩

theorem length_foldl_advance (bs : Bytes) (h : ms.length = s.length + 1) :
    (bs.foldl (fun ms b => advance (· == b) s ms) ms).length = s.length + 1 := by
  induction bs generalizing ms with
  | nil => exact h
  | cons b bs ih => exact ih (length_advance h)

end Marks

/-! ## Characters -/

/-- The bytes of characters tell which of two texts is at the front of the other. -/
theorem encoded_isPrefix_iff {cs ds : List Char} :
    cs.flatMap String.utf8EncodeChar <+: ds.flatMap String.utf8EncodeChar ↔ cs <+: ds := by
  constructor
  · rintro ⟨bs, h⟩
    refine List.isPrefix_of_utf8Encode_append_eq_utf8Encode bs.toByteArray ?_
    rw [List.utf8Encode, List.utf8Encode, ← List.toByteArray_append, h]
  · rintro ⟨es, rfl⟩
    exact ⟨es.flatMap String.utf8EncodeChar, List.flatMap_append.symm⟩

theorem moveAll_literals (o : Options) (s : Bytes) (ms : Marks) (cs : List Char) (ts : List Token) :
    moveAll o s ms (cs.map .literal ++ ts) =
      moveAll o s ((cs.flatMap String.utf8EncodeChar).foldl (fun ms b => Marks.advance (· == b) s ms) ms) ts := by
  induction cs generalizing ms with
  | nil => rfl
  | cons c cs ih => rw [List.map_cons, List.cons_append, moveAll, ih, Token.move, List.flatMap_cons, List.foldl_append]

end UtilityCss.Glob
