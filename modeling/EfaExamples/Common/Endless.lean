import Mathlib.Data.Int.Notation
import Mathlib.Data.Nat.Notation
import Mathlib.Tactic.Choose
import Mathlib.Tactic.TypeStar
/-!
# Endless runs

A sequence of states without an end. `LeadsTo` says that whenever one thing
holds another does then or later; its rules are a step, a chain, a condition
that is kept on the way (`LeadsTo.keep`), and a wait for a clock that goes on
(`LeadsTo.of_clock`). And where there is always a next step there is a
sequence that takes one at every time (`exists_endless`).
-/

namespace EfaExamples

variable {State : Type*} {σ : ℕ → State} {P Q R W Z : State → Prop}

/-- Whenever `P` holds, `Q` holds then or later. -/
def LeadsTo (σ : ℕ → State) (P Q : State → Prop) : Prop := ∀ i, P (σ i) → ∃ j ≥ i, Q (σ j)

namespace LeadsTo

theorem of_step (h : ∀ i, P (σ i) → Q (σ (i + 1))) : LeadsTo σ P Q := fun i hp =>
  ⟨i + 1, Nat.le_succ i, h i hp⟩

theorem trans (hpq : LeadsTo σ P Q) (hqr : LeadsTo σ Q R) : LeadsTo σ P R := by
  intro i hp
  obtain ⟨j, hij, hq⟩ := hpq i hp
  obtain ⟨k, hjk, hr⟩ := hqr j hq
  exact ⟨k, Nat.le_trans hij hjk, hr⟩

theorem of_exists {ι : Sort*} {P : ι → State → Prop} (h : ∀ x, LeadsTo σ (P x) Q) :
    LeadsTo σ (fun s => ∃ x, P x s) Q := fun i ⟨x, hp⟩ => h x i hp

/-- **What is kept on the way**: `W` goes on unless `Z` sets in, which is for good and has not when
`Q` holds. -/
theorem keep (hpq : LeadsTo σ P Q) (hw : ∀ i, W (σ i) → W (σ (i + 1)) ∨ Z (σ (i + 1)))
    (hz : ∀ i, Z (σ i) → Z (σ (i + 1))) (hqz : ∀ i, Q (σ i) → ¬ Z (σ i)) :
    LeadsTo σ (fun s => P s ∧ W s) fun s => Q s ∧ W s := by
  rintro i ⟨hp, hwi⟩
  obtain ⟨j, hij, hq⟩ := hpq i hp
  have hkept : ∀ m, W (σ (i + m)) ∨ Z (σ (i + m)) := by
    intro m
    induction m with
    | zero => exact Or.inl hwi
    | succ m ih =>
      rcases ih with h | h
      · exact hw (i + m) h
      · exact Or.inr (hz (i + m) h)
  refine ⟨j, hij, hq, ?_⟩
  obtain ⟨m, rfl⟩ := Nat.exists_eq_add_of_le hij
  exact (hkept m).resolve_right (hqz _ hq)

/-- **A wait for the clock**: where `P` goes on only as long as the clock is before `t`, and the
clock goes on, it leads to what ends it. -/
theorem of_clock {clock : ℕ → ℤ} (hclock : ∀ t, ∃ i, ∀ j ≥ i, t ≤ clock j) (t : ℤ)
    (h : ∀ i, P (σ i) → Q (σ (i + 1)) ∨ P (σ (i + 1)) ∧ clock i < t) : LeadsTo σ P Q := by
  intro i hp
  by_contra hno
  have hall : ∀ m, P (σ (i + m)) := by
    intro m
    induction m with
    | zero => exact hp
    | succ m ih =>
      exact ((h (i + m) ih).resolve_left fun hq => hno ⟨_, by omega, hq⟩).1
  obtain ⟨k, hk⟩ := hclock t
  have hlt := ((h (i + k) (hall k)).resolve_left fun hq => hno ⟨_, by omega, hq⟩).2
  have hge := hk (i + k) (Nat.le_add_left k i)
  omega

end LeadsTo

/-- **Where there is always a next step**, there is an endless run. -/
theorem exists_endless {T : ℕ → State → State → Prop} {s : State} (hs : P s)
    (h : ∀ i s, P s → ∃ s', T i s s' ∧ P s') :
    ∃ σ : ℕ → State, σ 0 = s ∧ ∀ i, P (σ i) ∧ T i (σ i) (σ (i + 1)) := by
  choose next hstep hnext using h
  let σ : ℕ → { s // P s } := fun n =>
    Nat.rec ⟨s, hs⟩ (fun i p => ⟨next i p.1 p.2, hnext i p.1 p.2⟩) n
  exact ⟨fun i => (σ i).1, rfl, fun i => ⟨(σ i).2, hstep i (σ i).1 (σ i).2⟩⟩

end EfaExamples
