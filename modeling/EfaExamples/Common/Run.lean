import Mathlib.Data.Nat.Notation
import Mathlib.Logic.Relation
import Mathlib.Tactic.TypeStar
/-!
# Runs of a step relation

A run is a sequence of states indexed by time, the first initial and each
next one a step. A property of runs is stated at every time up to the
run's length, and a condition on a run at every step below it. The rules
here turn a step lemma into a run lemma: `IsRun.invariant` for a property
every step keeps, `IsRun.invariant_of_guard` where a step keeps it under a
condition, and `IsRun.forall_iff_forall_guard` where the condition is exact.
-/

namespace EfaExamples

variable {State : Type*} {init : State → Prop} {step : State → State → Prop}
variable {σ : ℕ → State} {n : ℕ}

/-- `σ 0, …, σ n` starts in an initial state and takes a step at each time. -/
structure IsRun (init : State → Prop) (step : State → State → Prop) (σ : ℕ → State)
    (n : ℕ) : Prop where
  start : init (σ 0)
  next : ∀ i < n, step (σ i) (σ (i + 1))

namespace IsRun

/-- A run's beginning is a run. -/
theorem take {m : ℕ} (h : IsRun init step σ n) (hm : m ≤ n) : IsRun init step σ m :=
  ⟨h.start, fun i hi => h.next i (by omega)⟩

/-- **The guarded invariant rule.** A property the initial states have and
every step that meets its guard keeps holds along a run all of whose steps
meet the guard. -/
theorem invariant_of_guard (Inv : State → Prop) (Guard : State → State → Prop)
    (h : IsRun init step σ n) (h₀ : ∀ s, init s → Inv s)
    (hstep : ∀ s s', Inv s → step s s' → Guard s s' → Inv s')
    (hguard : ∀ i < n, Guard (σ i) (σ (i + 1))) : ∀ i ≤ n, Inv (σ i) := by
  intro i
  induction i with
  | zero => exact fun _ => h₀ _ h.start
  | succ i ih =>
    intro hi
    exact hstep _ _ (ih (by omega)) (h.next i hi) (hguard i hi)

/-- The invariant rule: the guard is the step itself. -/
theorem invariant (Inv : State → Prop) (h : IsRun init step σ n) (h₀ : ∀ s, init s → Inv s)
    (hstep : ∀ s s', Inv s → step s s' → Inv s') : ∀ i ≤ n, Inv (σ i) :=
  h.invariant_of_guard Inv (fun _ _ => True) h₀ (fun s s' hs hst _ => hstep s s' hs hst)
    fun _ _ => trivial

/-- **Where the guard is exact.** If the invariant implies the property, and
a step out of the invariant that misses the guard breaks the property, then
the property holds along the run exactly if every step meets the guard. -/
theorem forall_iff_forall_guard (Inv Good : State → Prop) (Guard : State → State → Prop)
    (h : IsRun init step σ n) (h₀ : ∀ s, init s → Inv s)
    (hstep : ∀ s s', Inv s → step s s' → Guard s s' → Inv s')
    (hgood : ∀ s, Inv s → Good s)
    (hbad : ∀ s s', Inv s → step s s' → Good s' → Guard s s') :
    (∀ i ≤ n, Good (σ i)) ↔ ∀ i < n, Guard (σ i) (σ (i + 1)) := by
  constructor
  · intro hg
    have hinv : ∀ i ≤ n, Inv (σ i) := by
      intro i
      induction i with
      | zero => exact fun _ => h₀ _ h.start
      | succ i ih =>
        intro hi
        have hs := ih (by omega)
        exact hstep _ _ hs (h.next i hi) (hbad _ _ hs (h.next i hi) (hg (i + 1) hi))
    exact fun i hi => hbad _ _ (hinv i (by omega)) (h.next i hi) (hg (i + 1) hi)
  · intro hguard i hi
    exact hgood _ (h.invariant_of_guard Inv Guard h₀ hstep hguard i hi)

/-- A run can go on. -/
theorem extend {s : State} (h : IsRun init step σ n) (hs : step (σ n) s) :
    IsRun init step (fun i => if i ≤ n then σ i else s) (n + 1) where
  start := by
    rw [if_pos (Nat.zero_le n)]
    exact h.start
  next i hi := by
    rw [if_pos (by omega)]
    rcases Nat.lt_or_ge i n with hlt | hge
    · rw [if_pos (by omega)]
      exact h.next i hlt
    · rw [if_neg (by omega), show i = n by omega]
      exact hs

end IsRun

/-- What can be reached is the last state of a run. -/
theorem exists_isRun_of_reflTransGen {s s' : State} (h₀ : init s)
    (h : Relation.ReflTransGen step s s') : ∃ σ n, IsRun init step σ n ∧ σ n = s' := by
  induction h with
  | refl => exact ⟨fun _ => s, 0, ⟨h₀, fun i hi => by omega⟩, rfl⟩
  | tail _ hstep ih =>
    obtain ⟨σ, n, hrun, rfl⟩ := ih
    exact ⟨_, n + 1, hrun.extend hstep, by rw [if_neg (by omega)]⟩

/-- What holds at one time and not at a later one stops holding at a step in
between. -/
theorem exists_step_of_not {P : ℕ → Prop} {a b : ℕ} (hab : a ≤ b) (ha : P a) (hb : ¬ P b) :
    ∃ k, a ≤ k ∧ k < b ∧ P k ∧ ¬ P (k + 1) := by
  obtain ⟨m, rfl⟩ := Nat.exists_eq_add_of_le hab
  clear hab
  induction m with
  | zero => exact absurd ha hb
  | succ m ih =>
    by_cases hP : P (a + m)
    · exact ⟨a + m, by omega, by omega, hP, hb⟩
    · obtain ⟨k, h₁, h₂, h₃⟩ := ih hP
      exact ⟨k, h₁, by omega, h₃⟩

end EfaExamples
