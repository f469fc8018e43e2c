import Mathlib.Data.List.Induction
import Mathlib.Data.Set.List
/-!
# Numbered lists

A strictly increasing list of numbers that leaves none out is the list of the
first ones, and counting through two nested loops is counting through their
product.
-/

namespace EfaExamples

/-- **What is increasing and leaves no number out is an initial segment.** -/
theorem eq_range_of_pairwise_lt {l : List ℕ} (hl : l.Pairwise (· < ·))
    (hdown : ∀ a ∈ l, ∀ b < a, b ∈ l) : l = List.range l.length := by
  induction l using List.reverseRecOn with
  | nil => rfl
  | append_singleton l a ih =>
    obtain ⟨hl₁, -, hlast⟩ := List.pairwise_append.mp hl
    have hbelow : ∀ b ∈ l, b < a := fun b hb => hlast b hb a (List.mem_singleton_self a)
    have hmem : ∀ c ∈ l ++ [a], ∀ b < c, b < a → b ∈ l := by
      intro c hc b hb hba
      have hb := hdown c hc b hb
      simp only [List.mem_append, List.mem_singleton] at hb
      exact hb.resolve_right hba.ne
    have hrange : l = List.range l.length :=
      ih hl₁ fun c hc b hb => hmem c (List.mem_append_left _ hc) b hb (hb.trans (hbelow c hc))
    have ha : a = l.length := by
      refine le_antisymm (le_of_not_gt fun hlt => ?_) (le_of_not_gt fun hlt => ?_)
      · have := hmem a (List.mem_append_right _ (List.mem_singleton_self a)) _ hlt hlt
        rw [hrange, List.mem_range, List.length_range] at this
        exact lt_irrefl _ this
      · have : a ∈ l := by
          rw [hrange, List.mem_range]
          exact hlt
        exact lt_irrefl _ (hbelow a this)
    rw [List.length_append, List.length_singleton, List.range_succ, ← hrange, ha]

/-- A piece of a numbered list is numbered from the number of those before it. -/
theorem map_eq_range'_of_append {α : Type*} {f : α → ℕ} {l₁ l₂ l₃ : List α} {n : ℕ}
    (h : (l₁ ++ (l₂ ++ l₃)).map f = List.range n) :
    l₂.map f = List.range' l₁.length l₂.length := by
  refine List.ext_getElem (by simp) fun i hi _ => ?_
  have hi : i < l₂.length := by simpa using hi
  have hget := congrArg (·[l₁.length + i]?) h
  have hlen := congrArg List.length h
  simp only [List.length_map, List.length_append, List.length_range] at hlen
  simp only [List.map_append, List.getElem?_append, List.length_map, Nat.not_lt.mpr,
    Nat.le_add_right, if_false, Nat.add_sub_cancel_left, hi, if_true] at hget
  rw [List.getElem?_range (by omega), List.getElem?_eq_getElem (by simpa using hi),
    Option.some.injEq] at hget
  rw [hget]
  simp

/-- A list each of whose elements has a number is the image of a list of numbers. -/
theorem exists_map_of_forall_exists {α β : Type*} {f : α → β} {l : List β}
    (hl : ∀ b ∈ l, ∃ a, b = f a) : ∃ as : List α, l = as.map f := by
  have : l ∈ Set.range (List.map f) := by
    rw [Set.range_list_map]
    exact fun b hb => (hl b hb).imp fun _ h => h.symm
  exact this.imp fun _ h => h.symm

/-- Two nested loops. -/
theorem range_mul (a b : ℕ) :
    List.range (a * b) = (List.range a).flatMap fun i => (List.range b).map (i * b + ·) := by
  induction a with
  | zero => simp
  | succ a ih => rw [Nat.succ_mul, List.range_add, ih, List.range_succ, List.flatMap_append]; simp

end EfaExamples
