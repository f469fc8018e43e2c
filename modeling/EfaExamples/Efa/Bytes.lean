import EfaExamples.Efa.Model.Fabric
import Mathlib.Data.List.Basic
/-!
# Bytes in memory

What is read from a range of memory, before and after a copy into it or
beside it.
-/

namespace EfaExamples

variable {mem src : ℕ → UInt8} {dst data sz n : ℕ}

/-- What is read where something has just been copied to. -/
theorem bytes_memcpy (hn : n ≤ sz) : bytes (memcpy dst data sz src mem) dst n = bytes src data n := by
  refine List.map_congr_left fun j hj => ?_
  have hj : j < n := List.mem_range.mp hj
  rw [memcpy, if_pos (by omega), Nat.add_sub_cancel_left]

/-- A copy leaves what is read as it was exactly if it copies what is there. -/
theorem bytes_memcpy_eq_iff : bytes (memcpy dst data sz src mem) dst n = bytes mem dst n ↔
    ∀ j < min n sz, src (data + j) = mem (dst + j) := by
  rw [bytes, bytes, List.map_inj_left]
  constructor
  · intro h j hj
    have := h j (List.mem_range.mpr (by omega))
    rwa [memcpy, if_pos (by omega), Nat.add_sub_cancel_left] at this
  · intro h j hj
    have hj : j < n := List.mem_range.mp hj
    rw [memcpy]
    split
    · rw [Nat.add_sub_cancel_left]
      exact h j (by omega)
    · rfl

/-- The same bytes in the range, the same read. -/
theorem bytes_congr {mem' : ℕ → UInt8} (h : ∀ j < n, mem' (dst + j) = mem (dst + j)) :
    bytes mem' dst n = bytes mem dst n :=
  List.map_congr_left fun j hj => h j (List.mem_range.mp hj)

theorem bytes_eq_iff {mem' : ℕ → UInt8} :
    bytes mem' data n = bytes mem dst n ↔ ∀ j < n, mem' (data + j) = mem (dst + j) := by
  simp only [bytes, List.map_inj_left, List.mem_range]

/-- A copy elsewhere changes nothing. -/
theorem bytes_memcpy_of_disjoint {a : ℕ} (h : a + n ≤ dst ∨ dst + sz ≤ a) :
    bytes (memcpy dst data sz src mem) a n = bytes mem a n :=
  bytes_congr fun j hj => if_neg (by omega)

end EfaExamples
