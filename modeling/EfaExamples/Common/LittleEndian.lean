import Mathlib.Algebra.Order.Ring.Nat
import Mathlib.Data.Nat.Notation
/-!
# Little-endian numbers in memory

A number of `n` bytes is read from memory and stored into it. What is stored is
read back, and a store changes no number that lies elsewhere.
-/

namespace EfaExamples

/-- The number in the `n` bytes from `p` on. -/
def readLE (mem : ℕ → UInt8) (p : ℕ) : ℕ → ℕ
  | 0 => 0
  | n + 1 => (mem p).toNat + 256 * readLE mem (p + 1) n

/-- The `n` low bytes of `v`, stored from `p` on. -/
def storeLE (p n v : ℕ) (mem : ℕ → UInt8) : ℕ → UInt8 := fun a =>
  if p ≤ a ∧ a < p + n then UInt8.ofNat (v / 256 ^ (a - p)) else mem a

variable {mem mem' : ℕ → UInt8} {p q n m v : ℕ}

theorem readLE_lt : readLE mem p n < 256 ^ n := by
  induction n generalizing p with
  | zero => exact Nat.one_pos
  | succ n ih =>
    have hbyte : (mem p).toNat < 256 := (mem p).toNat_lt
    have := @ih (p + 1)
    rw [readLE, Nat.pow_succ]
    omega

/-- What is read depends on the bytes that are read. -/
theorem readLE_congr (h : ∀ j < n, mem (p + j) = mem' (q + j)) :
    readLE mem p n = readLE mem' q n := by
  induction n generalizing p q with
  | zero => rfl
  | succ n ih =>
    have hhead : mem p = mem' q := h 0 (by omega)
    have htail : readLE mem (p + 1) n = readLE mem' (q + 1) n :=
      ih fun j hj => by rw [Nat.add_assoc, Nat.add_assoc, Nat.add_comm 1]; exact h (j + 1) (by omega)
    rw [readLE, readLE, hhead, htail]

/-- A number is read from its bytes. -/
theorem readLE_of_bytes (h : ∀ j < n, (mem (p + j)).toNat = v / 256 ^ j % 256) :
    readLE mem p n = v % 256 ^ n := by
  induction n generalizing p v with
  | zero => simp [readLE, Nat.mod_one]
  | succ n ih =>
    have hhead : (mem p).toNat = v % 256 := by simpa using h 0 (by omega)
    have htail : readLE mem (p + 1) n = v / 256 % 256 ^ n := by
      refine ih fun j hj => ?_
      have := h (j + 1) (by omega)
      rw [Nat.pow_succ', ← Nat.div_div_eq_div_mul] at this
      rwa [Nat.add_assoc, Nat.add_comm 1]
    rw [readLE, hhead, htail, Nat.pow_succ', Nat.mod_mul]

/-- **What is stored is read back.** -/
theorem readLE_storeLE : readLE (storeLE p n v mem) p n = v % 256 ^ n := by
  refine readLE_of_bytes fun j hj => ?_
  rw [storeLE, if_pos (by omega), Nat.add_sub_cancel_left, UInt8.toNat_ofNat']

/-- A store changes no number that lies elsewhere. -/
theorem readLE_storeLE_of_disjoint (h : q + m ≤ p ∨ p + n ≤ q) :
    readLE (storeLE p n v mem) q m = readLE mem q m :=
  readLE_congr fun j hj => if_neg (by omega)

end EfaExamples
