import Mathlib.Data.List.Basic
import Mathlib.Tactic.IntervalCases
/-!
# Hexadecimal text

What a hexadecimal digit is worth, and that the lower-case digits are the ones
`Nat.digitChar` writes. A text made of pieces of one length is cut at the
multiples of it.
-/

namespace EfaExamples

/-- What the digit `c` is worth, of either case. -/
def hexValue (c : Char) : Option ℕ :=
  if '0' ≤ c ∧ c ≤ '9' then some (c.toNat - 48)
  else if 'a' ≤ c ∧ c ≤ 'f' then some (c.toNat - 87)
  else if 'A' ≤ c ∧ c ≤ 'F' then some (c.toNat - 55)
  else none

/-- The lower-case digits. -/
def lowerHex : List Char :=
  ['0', '1', '2', '3', '4', '5', '6', '7', '8', '9', 'a', 'b', 'c', 'd', 'e', 'f']

theorem hexValue_digitChar {n : ℕ} (h : n < 16) : hexValue (Nat.digitChar n) = some n := by
  interval_cases n <;> rfl

theorem lowerHex_eq : lowerHex = (List.range 16).map Nat.digitChar := rfl

theorem digitChar_mem_lowerHex {n : ℕ} (h : n < 16) : Nat.digitChar n ∈ lowerHex := by
  rw [lowerHex_eq]
  exact List.mem_map_of_mem (List.mem_range.mpr h)

/-- **A lower-case digit is the one written for its value.** -/
theorem exists_digitChar {c : Char} (h : c ∈ lowerHex) : ∃ n < 16, Nat.digitChar n = c := by
  rw [lowerHex_eq] at h
  obtain ⟨n, hn, hc⟩ := List.mem_map.mp h
  exact ⟨n, List.mem_range.mp hn, hc⟩

/-! ## Pieces of one length -/

variable {α β : Type*} {f : α → List β} {k : ℕ}

/-- **A text of pieces is cut between them.** -/
theorem drop_flatMap_of_length {l : List α} (hf : ∀ a ∈ l, (f a).length = k) (i : ℕ) :
    (l.flatMap f).drop (k * i) = (l.drop i).flatMap f := by
  induction l generalizing i with
  | nil => simp
  | cons a l ih =>
    cases i with
    | zero => rfl
    | succ i =>
      obtain ⟨ha, hl⟩ := List.forall_mem_cons.mp hf
      have hlen : k * (i + 1) = (f a).length + k * i := by rw [ha, Nat.mul_succ, Nat.add_comm]
      rw [List.flatMap_cons, hlen, List.drop_length_add_append, List.drop_succ_cons, ih hl]

theorem length_flatMap_of_length (hf : ∀ a, (f a).length = k) (l : List α) :
    (l.flatMap f).length = k * l.length := by
  induction l with
  | nil => rfl
  | cons a l ih =>
    rw [List.flatMap_cons, List.length_append, hf, ih, List.length_cons, Nat.mul_succ,
      Nat.add_comm]

/-- The pieces that a text is cut into make it up. -/
theorem flatMap_range_take_drop (l : List β) (k n : ℕ) :
    ((List.range n).flatMap fun i => (l.drop (k * i)).take k) = l.take (k * n) := by
  induction n with
  | zero => simp
  | succ n ih =>
    rw [List.range_succ, List.flatMap_append, ih, List.flatMap_singleton, Nat.mul_succ,
      List.take_add]

end EfaExamples
