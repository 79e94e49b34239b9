import UtilityCss.Remote.Retry
import Mathlib.Algebra.Order.Ring.Nat

/-!
# The pauses between attempts

A pause doubles from one retry to the next as long as its factor goes into 32 bits and the pause itself into a duration.
Behind either bound it stays as it is.
-/

namespace UtilityCss

/-! ## Multiples of a duration -/

namespace Duration

/-- A multiple as it is computed in words: the nanoseconds carry over into the seconds, which must not need more than
64 bits. -/
def product? (k : Nat) (d : Duration) : Option (Nat × Nat) :=
  let nanos := d.subsecond * k
  let seconds := d.seconds * k + nanos / nanosPerSecond
  if seconds < 0x10000000000000000 then some (seconds, nanos % nanosPerSecond) else none

theorem nanos_scale (k : Nat) (d : Duration) : (d.scale k).nanos = min (d.nanos * k) maxNanos := rfl

theorem subsecond_lt (d : Duration) : d.subsecond < nanosPerSecond := Nat.mod_lt _ (by decide)

theorem nanos_mul (k : Nat) (d : Duration) :
    d.nanos * k = d.subsecond * k + d.seconds * k * nanosPerSecond := by
  have hsplit : d.nanos = d.subsecond + d.seconds * nanosPerSecond := by
    rw [subsecond, seconds, Nat.mul_comm, Nat.mod_add_div]
  calc d.nanos * k = (d.subsecond + d.seconds * nanosPerSecond) * k := by rw [← hsplit]
    _ = d.subsecond * k + d.seconds * k * nanosPerSecond := by rw [Nat.add_mul, Nat.mul_right_comm]

theorem nanos_mul_div (k : Nat) (d : Duration) :
    d.nanos * k / nanosPerSecond = d.seconds * k + d.subsecond * k / nanosPerSecond := by
  rw [nanos_mul, Nat.add_mul_div_right _ _ (by decide), Nat.add_comm]

theorem nanos_mul_mod (k : Nat) (d : Duration) :
    d.nanos * k % nanosPerSecond = d.subsecond * k % nanosPerSecond := by
  rw [nanos_mul, Nat.add_mul_mod_self_right]

/-- The carry loses nothing: a multiple is the product of the words, or the longest duration where they overflow. -/
theorem words_scale (k : Nat) (d : Duration) :
    ((d.scale k).seconds, (d.scale k).subsecond) = (d.product? k).getD (0xFFFFFFFFFFFFFFFF, 999999999) := by
  have hfits : d.seconds * k + d.subsecond * k / nanosPerSecond < 0x10000000000000000 ↔ d.nanos * k ≤ maxNanos := by
    rw [← nanos_mul_div, Nat.div_lt_iff_lt_mul (by decide), maxNanos, Nat.le_sub_one_iff_lt (by decide)]
  rw [seconds, subsecond, nanos_scale, product?]
  by_cases h : d.nanos * k ≤ maxNanos
  · rw [Nat.min_eq_left h, nanos_mul_div, nanos_mul_mod]
    simp only [if_pos (hfits.mpr h), Option.getD_some]
  · rw [Nat.min_eq_right (Nat.le_of_not_le h)]
    simp only [if_neg (mt hfits.mp h), Option.getD_none]
    decide

end Duration

/-! ## The factor -/

namespace Remote.Policy

variable {r s : Nat}

theorem growth_eq (r : Nat) : growth r = min (2 ^ r) (2 ^ 32 - 1) := by
  unfold growth
  split
  · rename_i h
    have hle : 2 ^ r ≤ 2 ^ 31 := Nat.pow_le_pow_right (by decide) (Nat.le_of_lt_succ h)
    rw [Nat.min_eq_left (hle.trans (by decide))]
    rfl
  · rename_i h
    have hle : 2 ^ 32 ≤ 2 ^ r := Nat.pow_le_pow_right (by decide) (Nat.le_of_not_lt h)
    rw [Nat.min_eq_right (Nat.le_trans (by decide) hle)]
    rfl

theorem growth_of_lt (h : r < 32) : growth r = 2 ^ r := if_pos h

theorem growth_of_le (h : 32 ≤ r) : growth r = 2 ^ 32 - 1 := if_neg (Nat.not_lt_of_le h)

theorem growth_mono (h : r ≤ s) : growth r ≤ growth s := by
  rw [growth_eq, growth_eq]
  exact min_le_min_right _ (Nat.pow_le_pow_right (by decide) h)

theorem growth_lt (r : Nat) : growth r < 2 ^ 32 := by
  rw [growth_eq]
  exact Nat.lt_of_le_of_lt (Nat.min_le_right _ _) (by decide)

/-! ## The pause -/

theorem nanos_backoff (p : Policy) (r : Nat) :
    (p.backoff r).nanos = min (p.initial.nanos * min (2 ^ r) (2 ^ 32 - 1)) Duration.maxNanos := by
  rw [backoff, Duration.nanos_scale, growth_eq]

theorem backoff_mono (p : Policy) (h : r ≤ s) : (p.backoff r).nanos ≤ (p.backoff s).nanos :=
  min_le_min_right _ (Nat.mul_le_mul_left _ (growth_mono h))

theorem backoff_of_le (p : Policy) (h : 32 ≤ r) : p.backoff r = p.backoff 32 := by
  rw [backoff, backoff, growth_of_le h, growth_of_le (Nat.le_refl 32)]

theorem backoff_succ (p : Policy) (h : r < 31) :
    (p.backoff (r + 1)).nanos = min (2 * (p.backoff r).nanos) Duration.maxNanos := by
  simp only [backoff, Duration.nanos_scale, growth_of_lt (Nat.succ_lt_succ h), growth_of_lt (Nat.lt_succ_of_lt h)]
  have htwice : p.initial.nanos * 2 ^ (r + 1) = 2 * (p.initial.nanos * 2 ^ r) := by
    rw [Nat.pow_succ, ← Nat.mul_assoc, Nat.mul_comm]
  rw [htwice]
  omega

/-- The factor is cut off too early exactly if the pause is neither nothing nor too long for a duration. -/
theorem nanos_backoff_iff (p : Policy) (r : Nat) :
    (p.backoff r).nanos = min (p.initial.nanos * 2 ^ r) Duration.maxNanos ↔
      r < 32 ∨ p.initial.nanos = 0 ∨ Duration.maxNanos ≤ p.initial.nanos * (2 ^ 32 - 1) := by
  by_cases hr : r < 32
  · rw [backoff, Duration.nanos_scale, growth_of_lt hr]
    exact iff_of_true rfl (Or.inl hr)
  · rw [backoff, Duration.nanos_scale, growth_of_le (Nat.le_of_not_lt hr)]
    have hpow : 2 ^ 32 ≤ 2 ^ r := Nat.pow_le_pow_right (by decide) (Nat.le_of_not_lt hr)
    have hgrows : p.initial.nanos = 0 ∨ p.initial.nanos * (2 ^ 32 - 1) < p.initial.nanos * 2 ^ r := by
      rcases Nat.eq_zero_or_pos p.initial.nanos with h | h
      · exact Or.inl h
      · exact Or.inr (Nat.mul_lt_mul_of_pos_left (Nat.lt_of_lt_of_le (by decide) hpow) h)
    constructor
    · intro h
      refine Or.inr (hgrows.imp_right fun hlt => ?_)
      omega
    · rintro (h | h | h)
      · exact absurd h hr
      · simp only [h, Nat.zero_mul]
      · have hle : p.initial.nanos * (2 ^ 32 - 1) ≤ p.initial.nanos * 2 ^ r :=
          Nat.mul_le_mul_left _ (Nat.le_trans (by decide) hpow)
        rw [Nat.min_eq_right h, Nat.min_eq_right (Nat.le_trans h hle)]

/-! ## The theorem -/

/-- A pause is the initial one times a power of two, where the power is cut off at the greatest factor of 32 bits and the
product at the longest duration. It doubles up to retry 31 and from retry 32 on stays as it is. Nothing on the way there
overflows: the factor goes into 32 bits, the product of the nanoseconds into 64, and the carry loses nothing. -/
theorem backoff_saturates (p : Policy) :
    (∀ r, (p.backoff r).nanos = min (p.initial.nanos * min (2 ^ r) (2 ^ 32 - 1)) Duration.maxNanos) ∧
      (∀ r, (p.backoff r).nanos = min (p.initial.nanos * 2 ^ r) Duration.maxNanos ↔
        r < 32 ∨ p.initial.nanos = 0 ∨ Duration.maxNanos ≤ p.initial.nanos * (2 ^ 32 - 1)) ∧
      (∀ r < 31, (p.backoff (r + 1)).nanos = min (2 * (p.backoff r).nanos) Duration.maxNanos) ∧
      (∀ r, 32 ≤ r → p.backoff r = p.backoff 32) ∧
      (∀ r s, r ≤ s → (p.backoff r).nanos ≤ (p.backoff s).nanos) ∧
      ∀ r, growth r < 2 ^ 32 ∧ p.initial.subsecond * growth r < 2 ^ 64 ∧
        ((p.backoff r).seconds, (p.backoff r).subsecond) =
          (p.initial.product? (growth r)).getD (2 ^ 64 - 1, nanosPerSecond - 1) := by
  refine ⟨p.nanos_backoff, p.nanos_backoff_iff, fun r => p.backoff_succ, fun r => p.backoff_of_le,
    fun r s => p.backoff_mono, fun r => ⟨growth_lt r, ?_, Duration.words_scale (growth r) p.initial⟩⟩
  have hproduct : p.initial.subsecond * growth r ≤ nanosPerSecond * 2 ^ 32 :=
    Nat.mul_le_mul (Nat.le_of_lt p.initial.subsecond_lt) (Nat.le_of_lt (growth_lt r))
  exact Nat.lt_of_le_of_lt hproduct (by decide)

/-- A second doubles up to retry 31; half the longest duration is as long as can be at the first retry. -/
theorem backoff_saturates_second :
    let p : Policy := {}
    let long : Policy := { initial := .ofSeconds 0x8000000000000000 }
    p.backoff 31 = .ofSeconds 2147483648 ∧ (p.backoff 6).nanos = min (2 * (p.backoff 5).nanos) Duration.maxNanos ∧
      p.backoff 4294967295 = p.backoff 32 ∧ (p.backoff 31).nanos ≤ (p.backoff 32).nanos ∧
      (long.backoff 1).nanos = Duration.maxNanos ∧
      (long.backoff 64).nanos = min (long.initial.nanos * 2 ^ 64) Duration.maxNanos := by
  intro p long
  obtain ⟨-, -, hdoubles, hstays, hmono, -⟩ := backoff_saturates p
  obtain ⟨-, hexact, -⟩ := backoff_saturates long
  exact ⟨by decide, hdoubles 5 (by decide), hstays _ (by decide), hmono 31 32 (by decide), by decide,
    (hexact 64).mpr (Or.inr (Or.inr (by decide)))⟩

/-- At retry 32 a second is no longer doubled, though twice the pause before it would go into a duration. -/
theorem backoff_cut_off :
    let p : Policy := {}
    p.backoff 31 = .ofSeconds 2147483648 ∧ p.backoff 32 = .ofSeconds 4294967295 ∧
      min (p.initial.nanos * 2 ^ 32) Duration.maxNanos = (Duration.ofSeconds 4294967296).nanos ∧
      (p.backoff 32).nanos ≠ min (p.initial.nanos * 2 ^ 32) Duration.maxNanos := by
  decide

end Remote.Policy

end UtilityCss
