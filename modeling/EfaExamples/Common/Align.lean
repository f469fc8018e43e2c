import Mathlib.Algebra.Order.Ring.Nat
import Mathlib.Order.Bounds.Basic
/-!
# Rounding by a mask

Clearing the low bits of a machine word rounds it down to a multiple of a
power of two, and adding one less than that power before rounds it up, to the
least multiple that is not less. That one need not be a word; as long as it is,
the sum does not wrap.
-/

namespace EfaExamples

variable {k m n x : ℕ}

/-! ## Multiples -/

/-- What `n` lacks to a multiple of `m`. -/
def padTo (m n : ℕ) : ℕ := (m - n % m) % m

theorem padTo_lt (hm : 0 < m) : padTo m n < m := Nat.mod_lt _ hm

theorem dvd_add_padTo (hm : 0 < m) : m ∣ n + padTo m n := by
  have hlt : n % m < m := Nat.mod_lt n hm
  have hsum : n + (m - n % m) = m * (n / m + 1) := by
    have := Nat.div_add_mod n m
    rw [Nat.mul_succ]
    omega
  rw [Nat.dvd_iff_mod_eq_zero, padTo, Nat.add_mod_mod, hsum, Nat.mul_mod_right]

theorem add_padTo_le (hm : 0 < m) (hx : m ∣ x) (hn : n ≤ x) : n + padTo m n ≤ x := by
  -- the two multiples differ by less than `m`
  by_contra hlt
  have hdvd : m ∣ n + padTo m n - x := Nat.dvd_sub (dvd_add_padTo hm) hx
  have hle : m ≤ n + padTo m n - x := Nat.le_of_dvd (by omega) hdvd
  have hpad : padTo m n < m := padTo_lt hm
  omega

/-- **The next multiple is the least one that is not less.** -/
theorem isLeast_add_padTo (hm : 0 < m) : IsLeast {x | m ∣ x ∧ n ≤ x} (n + padTo m n) :=
  ⟨⟨dvd_add_padTo hm, Nat.le_add_right _ _⟩, fun _ hx => add_padTo_le hm hx.1 hx.2⟩

theorem padTo_eq_zero_iff (hm : 0 < m) : padTo m n = 0 ↔ m ∣ n := by
  constructor
  · intro h
    simpa [h] using dvd_add_padTo (n := n) hm
  · intro h
    have := add_padTo_le hm h le_rfl
    omega

/-- Rounding down what is one less than a multiple further. -/
theorem add_pred_div_mul (hm : 0 < m) : (n + (m - 1)) / m * m = n + padTo m n := by
  obtain ⟨q, hq⟩ := dvd_add_padTo (n := n) hm
  have hpad : padTo m n < m := padTo_lt hm
  have hdiv : (n + (m - 1)) / m = q := by
    rw [Nat.div_eq_iff hm]
    rw [Nat.mul_comm] at hq
    omega
  rw [hdiv, hq, Nat.mul_comm]

/-! ## Words -/

/-- The power as a word. -/
theorem toNat_ofNat_two_pow (hk : k < 64) : (UInt64.ofNat (2 ^ k)).toNat = 2 ^ k :=
  UInt64.toNat_ofNat_of_lt (Nat.pow_lt_pow_right (by decide) hk)

/-- One less than the power, as a word. -/
theorem toNat_two_pow_sub_one (hk : k < 64) : (UInt64.ofNat (2 ^ k) - 1).toNat = 2 ^ k - 1 := by
  have hpos : 0 < 2 ^ k := Nat.two_pow_pos k
  have hle : (1 : UInt64) ≤ UInt64.ofNat (2 ^ k) := by
    rw [UInt64.le_iff_toNat_le, toNat_ofNat_two_pow hk]
    exact hpos
  rw [UInt64.toNat_sub_of_le _ _ hle, toNat_ofNat_two_pow hk]
  rfl

/-- **The mask rounds down.** -/
theorem toNat_and_not_mask (x : UInt64) (hk : k < 64) :
    (x &&& ~~~(UInt64.ofNat (2 ^ k) - 1)).toNat = x.toNat / 2 ^ k * 2 ^ k := by
  have hlt : 2 ^ k < 2 ^ 64 := Nat.pow_lt_pow_right (by decide) hk
  have hpos : 0 < 2 ^ k := Nat.two_pow_pos k
  have hnot : (~~~(UInt64.ofNat (2 ^ k) - 1)).toNat = 2 ^ 64 - (2 ^ k - 1 + 1) := by
    rw [UInt64.toNat_not, toNat_two_pow_sub_one hk]
    have hsize : UInt64.size = 2 ^ 64 := rfl
    omega
  refine Nat.eq_of_testBit_eq fun i => ?_
  rw [UInt64.toNat_and, Nat.testBit_and, hnot, Nat.testBit_two_pow_sub_succ (by omega),
    Nat.testBit_two_pow_sub_one, Nat.testBit_mul_two_pow, Nat.testBit_div_two_pow]
  rcases Nat.lt_or_ge i k with hi | hi
  · simp [hi, Nat.not_le.mpr hi]
  · rw [Nat.sub_add_cancel hi]
    rcases Nat.lt_or_ge i 64 with h64 | h64
    · simp [hi, h64, Nat.not_lt.mpr hi]
    · -- a bit above the word is clear
      have hx : x.toNat < 2 ^ i :=
        Nat.lt_of_lt_of_le x.toNat_lt (Nat.pow_le_pow_right (by decide) h64)
      simp [Nat.testBit_lt_two_pow hx]

/-- **Rounding up**, where the multiple is a word. -/
theorem toNat_alignUp (x : UInt64) (hk : k < 64) (hx : x.toNat + padTo (2 ^ k) x.toNat < 2 ^ 64) :
    ((x + UInt64.ofNat (2 ^ k) - 1) &&& ~~~(UInt64.ofNat (2 ^ k) - 1)).toNat =
      x.toNat + padTo (2 ^ k) x.toNat := by
  have hpos : 0 < 2 ^ k := Nat.two_pow_pos k
  -- the next multiple is below `2 ^ 64`, which is one itself
  have hroom : x.toNat + (2 ^ k - 1) < 2 ^ 64 := by
    have hdvd : 2 ^ k ∣ 2 ^ 64 - (x.toNat + padTo (2 ^ k) x.toNat) :=
      Nat.dvd_sub (Nat.pow_dvd_pow 2 hk.le) (dvd_add_padTo hpos)
    have := Nat.le_of_dvd (by omega) hdvd
    omega
  have hsum : (x + UInt64.ofNat (2 ^ k) - 1).toNat = x.toNat + (2 ^ k - 1) := by
    rw [UInt64.sub_eq_add_neg, UInt64.add_assoc, ← UInt64.sub_eq_add_neg, UInt64.toNat_add,
      toNat_two_pow_sub_one hk, Nat.mod_eq_of_lt hroom]
  rw [toNat_and_not_mask _ hk, hsum, add_pred_div_mul hpos]

end EfaExamples
