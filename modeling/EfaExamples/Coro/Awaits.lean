import EfaExamples.Common.Run
import EfaExamples.Coro.Rows
/-!
# How a wait begins and ends

A coroutine comes to wait for another in a `co_await` of one that has not
ended, and stops waiting when `Runone` resumes it, which happens only after the
other's end. Between the two the other keeps it as its `next`, unless somebody
else awaits it. All of this holds step by step wherever the table is kept.
-/

namespace EfaExamples

open Loop

variable {Loc G A X V : Type} {w : World A X V} {code : Loc → Op Loc G A V}
variable {s s' : Loop Loc G A X V} {h d : ℕ} {c c' cd cd' : Coro Loc A V}

/-- In this step `h` suspends in the `co_await` of `d`. -/
def Suspends (s s' : Loop Loc G A X V) (h d : ℕ) : Prop :=
  (∃ c, s.coros h = some c ∧ c.point.isRunning = true) ∧
    ∃ c, s'.coros h = some c ∧ c.point.awaited = some d

/-- In this step `h` is resumed from the `co_await` of `d`. -/
def Resumes (s s' : Loop Loc G A X V) (h d : ℕ) : Prop :=
  (∃ c, s.coros h = some c ∧ c.point.awaited = some d) ∧
    ∃ c, s'.coros h = some c ∧ c.point.isRunning = true

/-! ## The coroutine awaited -/

/-- What executes neither waits nor has ended. -/
theorem Table.isRunning_of_stack {l : Loc} {rest : List (ℕ × Loc)} (t : Table none s)
    (hstack : s.stack = (h, l) :: rest) (hc : s.coros h = some c) : c.point = .running := by
  obtain ⟨c₁, hc₁, hrun⟩ := (t.onStack h (by simp)).mp (by simp [running, hstack])
  rw [hc] at hc₁
  obtain rfl := Option.some.inj hc₁
  exact Point.eq_running hrun

/-- **What has ended stays as it is**, while it is there. -/
theorem RowStep.final_kept (hr : RowStep w code s s' d cd cd') (t : Table none s)
    (hd : s.coros d = some cd) (hf : cd.point.isFinal = true) :
    cd'.point.isFinal = true ∧ cd'.result = cd.result := by
  have hp := Point.eq_final hf
  have hidle : ∀ l rest, s.stack ≠ (d, l) :: rest := fun l rest hstack => by
    have := t.isRunning_of_stack hstack hd
    rw [hp] at this
    cases this
  cases hr.pointStep with
  | kept hpoint hres _ => exact ⟨by rw [hpoint, hf], hres⟩
  | suspended l rest _ _ hstack => exact absurd hstack (hidle l rest)
  | ended o hends =>
    cases hends with
    | ret l rest hstack _ => exact absurd hstack (hidle l rest)
    | sleep _ _ _ hpoint _ | enterIo _ _ _ _ hpoint | io _ _ _ _ hpoint =>
      rw [hp] at hpoint
      cases hpoint
  | resumed _ _ _ _ _ hpoint => rw [hp] at hpoint; simp at hpoint
  | posted _ _ _ _ hpoint =>
    rw [hp] at hpoint
    cases hpoint

/-- **It keeps its waiter** as long as the waiter waits and no other comes. -/
theorem RowStep.next_kept (hr : RowStep w code s s' d cd cd') (hd : s.coros d = some cd)
    (hf : cd.point.isFinal = false) (hn : cd.next = some h) (hone : AwaitedOnce code s)
    (hc' : s'.coros h = some c') (hst : c'.state = .kSuspend) :
    cd'.point.isFinal = false ∧ cd'.next = some h := by
  cases hr with
  | still heq
  | owns _ _ _ heq
  | scheduled _ _ heq
  | called _ _ _ _ _ heq
  | event _ _ _ _ _ heq =>
    subst heq
    exact ⟨hf, hn⟩
  | awaited me l rest k hstack hop _ _ _ =>
    -- a second waiter, which the program does not make
    have := hone (me, d) (by simp [awaiting, hstack, hop]) cd hd hf
    rw [hn] at this
    cases this
  | suspended _ _ _ _ _ _ _ heq
  | resumed _ _ _ _ _ _ heq
  | posted _ _ _ _ _ heq =>
    subst heq
    exact ⟨rfl, hn⟩
  | ended o st _ _ hcall =>
    -- its end calls the waiter, which then does not wait
    obtain ⟨cp, hcp, hsched⟩ := hcall h hn
    rw [hc'] at hcp
    obtain rfl := Option.some.inj hcp
    rw [hst] at hsched
    cases hsched

/-- One that has not begun stays queued. -/
theorem RowStep.scheduled_kept (hr : RowStep w code s s' h c c')
    (hi : c.point.isInitial = true → c.state = .kScheduled) :
    c'.point.isInitial = true → c'.state = .kScheduled := by
  intro hi'
  cases hr with
  | still heq
  | owns _ _ _ heq =>
    subst heq
    exact hi hi'
  | awaited _ _ _ _ _ _ _ _ heq =>
    subst heq
    simp [hi hi']
  | scheduled _ _ heq | called _ _ _ _ _ heq | event _ _ _ _ _ heq =>
    subst heq
    rfl
  | suspended _ _ _ _ _ _ _ heq
  | ended _ _ _ heq
  | resumed _ _ _ _ _ _ heq
  | posted _ _ _ _ _ heq =>
    subst heq
    cases hi'

/-! ## One step -/

section Step

variable (t : Table none s) (hs : Step w code s s') (ok : StepOk w code s s')

include hs in
/-- What is gone stays so. -/
theorem gone_step (hlt : d < s.seq) (hd : s.coros d = none) : s'.coros d = none := by
  cases hd' : s'.coros d with
  | none => rfl
  | some cd' =>
    have := (hs.fresh_row hd hd').1
    omega

include t hs ok

/-- What has ended has ended ever after, with the same result. -/
theorem final_step (hd : s.coros d = some cd) (hf : cd.point.isFinal = true)
    (hd' : s'.coros d = some cd') : cd'.point.isFinal = true ∧ cd'.result = cd.result :=
  (hs.row t ok.await hd hd').final_kept t hd hf

theorem over_step (hover : s.Over d) : s'.Over d := by
  refine ⟨lt_of_lt_of_le hover.1 hs.seq_le, fun cd' hd' => ?_⟩
  cases hd : s.coros d with
  | none =>
    rw [gone_step hs hover.1 hd] at hd'
    cases hd'
  | some cd => exact (final_step t hs ok hd (hover.2 cd hd) hd').1

/-- **Who waits suspended** did so before, or suspends in this step. -/
theorem waited_or_suspends (hc' : s'.coros h = some c') (haw : c'.point.awaited = some d)
    (hst : c'.state = .kSuspend) :
    (∃ c, s.coros h = some c ∧ c.point.awaited = some d ∧ c.state = .kSuspend) ∨
      ∃ l rest k cd, s.stack = (h, l) :: rest ∧ code l = .await d k ∧ s.coros d = some cd ∧
        cd.point.isFinal = false ∧ s'.coros d = some { cd with
          next := some h
          state := if cd.state = .kUnschedule then .kScheduled else cd.state } := by
  cases hc : s.coros h with
  | none =>
    obtain ⟨-, me, l, rest, p, isVoid, st, -, -, hp, ls, rfl⟩ := hs.fresh_row hc hc'
    obtain ⟨k, hk⟩ := Point.eq_await haw
    change p = _ at hk
    rw [hk] at hp
    simp [Point.isInitial, Point.isRunning, Point.isSleep] at hp
  | some c =>
    cases hs.row t ok.await hc hc' with
    | still heq
    | owns _ _ _ heq =>
      subst heq
      exact Or.inl ⟨_, rfl, haw, hst⟩
    | awaited me l rest k _ _ _ _ heq =>
      subst heq
      refine Or.inl ⟨c, rfl, haw, ?_⟩
      by_contra hne
      by_cases hu : c.state = .kUnschedule <;> simp [hu] at hst
      exact hne hst
    | suspended l rest d' k hstack hop hd heq =>
      subst heq
      obtain rfl := Option.some.inj haw
      obtain ⟨cd, hd, hf, -, hd'⟩ := hd
      exact Or.inr ⟨l, rest, k, cd, hstack, hop, hd, hf, hd'⟩
    | scheduled _ _ heq | called _ _ _ _ _ heq | event _ _ _ _ _ heq =>
      subst heq
      cases hst
    | ended _ _ _ heq | resumed _ _ _ _ _ _ heq | posted _ _ _ _ _ heq =>
      subst heq
      cases haw

/-- **A wait goes on, or is over**: its coroutine is gone, or `Runone` resumes
it with what the other has left. -/
theorem await_cases {k : Outcome V → Loc} (hc : s.coros h = some c) (hp : c.point = .await d k) :
    (∃ c', s'.coros h = some c' ∧ c'.point = .await d k) ∨ s'.coros h = none ∨
      (Resumes s s' h d ∧ s.Over d ∧
        ∃ cd, s.coros d = some cd ∧ s'.stack = [(h, k cd.get)]) := by
  have haw : c.point.awaited = some d := by rw [hp]; rfl
  have hidle : ∀ l rest, s.stack ≠ (h, l) :: rest := fun l rest hstack => by
    have := t.isRunning_of_stack hstack hc
    rw [hp] at this
    cases this
  rcases hs.rowStep t ok.await hc with hgone | ⟨c', hc', hr⟩
  · exact Or.inr (Or.inl hgone)
  · cases hr.pointStep with
    | kept hpoint _ _ => exact Or.inl ⟨_, hc', hpoint.trans hp⟩
    | suspended l rest _ _ hstack => exact absurd hstack (hidle l rest)
    | ended o hends _ _ =>
      cases hends with
      | ret l rest hstack _ => exact absurd hstack (hidle l rest)
      | sleep _ _ _ hpoint _ | enterIo _ _ _ _ hpoint | io _ _ _ _ hpoint =>
        rw [hp] at hpoint
        cases hpoint
    | resumed q l hstack hready hstack' hpoint hrun =>
      have hover : s.Over d := t.over_of_mem_queued hc hp (by simp [Loop.queued, hready])
      refine Or.inr (Or.inr ⟨⟨⟨c, hc, haw⟩, _, hc', by rw [hrun]; rfl⟩, hover, ?_⟩)
      rcases hpoint with hinit | ⟨d', k', cd, hpoint, hd, rfl⟩
      · rw [hp] at hinit
        cases hinit
      · rw [hp] at hpoint
        obtain ⟨rfl, rfl⟩ := Point.await.inj hpoint
        exact ⟨cd, hd, hstack'⟩
    | posted _ _ _ _ hpoint =>
      rw [hp] at hpoint
      cases hpoint

/-- A wait that was not there before is for a coroutine that has not ended. -/
theorem not_over_of_awaited (hlt : h < s.seq)
    (hno : ¬ ∃ c, s.coros h = some c ∧ c.point.awaited = some d)
    (hc' : s'.coros h = some c') (haw : c'.point.awaited = some d) : ¬ s.Over d := by
  cases hc : s.coros h with
  | none =>
    rw [gone_step hs hlt hc] at hc'
    cases hc'
  | some c =>
    cases (hs.row t ok.await hc hc').pointStep with
    | kept hpoint _ _ =>
      rw [hpoint] at haw
      exact absurd ⟨_, hc, haw⟩ hno
    | suspended l rest d' k _ _ hd hpoint =>
      rw [hpoint] at haw
      obtain rfl := Option.some.inj haw
      obtain ⟨cd, hd, hf⟩ := hd
      intro hover
      rw [hover.2 cd hd] at hf
      cases hf
    | ended _ _ hpoint _ | resumed _ _ _ _ _ _ hpoint | posted _ _ _ _ _ hpoint =>
      rw [hpoint] at haw
      cases haw

end Step

/-! ## Along a run -/

section Run

variable {init : Loop Loc G A X V → Prop} {σ : ℕ → Loop Loc G A X V} {n : ℕ}
variable (hrun : IsRun init (Step w code) σ n) (ht : ∀ i ≤ n, Table none (σ i))
variable (hok : ∀ i < n, StepOk w code (σ i) (σ (i + 1)))

include hrun in
/-- What is there has been there since it was made. -/
theorem exists_of_exists {j i : ℕ} (hji : j ≤ i) (hi : i ≤ n) (hlt : d < (σ j).seq)
    (hd : (σ i).coros d = some cd) : ∃ c, (σ j).coros d = some c := by
  by_contra hno
  obtain ⟨k, hjk, hki, hk, hk'⟩ := exists_step_of_not (P := fun k => (σ k).coros d = none) hji
    (by simpa [Option.eq_none_iff_forall_not_mem] using hno) (by rw [hd]; simp)
  exact hk' (gone_step (hrun.next k (by omega))
    (hlt.trans_le (seq_le_of_le hrun.next hjk (by omega))) hk)

include hrun ht hok

theorem over_of_over {j i : ℕ} (hji : j ≤ i) (hi : i ≤ n) (hs : (σ j).Over d) : (σ i).Over d := by
  obtain ⟨m, rfl⟩ := Nat.exists_eq_add_of_le hji
  clear hji
  induction m with
  | zero => exact hs
  | succ m ih =>
    exact over_step (ht (j + m) (by omega)) (hrun.next (j + m) (by omega)) (hok (j + m) (by omega))
      (ih (by omega))

/-- **A `co_await` is resumed at most once.** -/
theorem resumes_unique {j₁ j₂ : ℕ} (h₁ : j₁ < n) (h₂ : j₂ < n)
    (hr₁ : Resumes (σ j₁) (σ (j₁ + 1)) h d) (hr₂ : Resumes (σ j₂) (σ (j₂ + 1)) h d) : j₁ = j₂ := by
  by_contra hne
  wlog hlt : j₁ < j₂ generalizing j₁ j₂
  · exact this h₂ h₁ hr₂ hr₁ (Ne.symm hne) (by omega)
  obtain ⟨⟨c₁, hc₁, haw₁⟩, c₁', hc₁', hrun₁⟩ := hr₁
  obtain ⟨k₁, hp₁⟩ := Point.eq_await haw₁
  have hno : ¬ ∃ c, (σ (j₁ + 1)).coros h = some c ∧ c.point.awaited = some d := by
    rintro ⟨c, hc, haw⟩
    rw [hc₁'] at hc
    obtain rfl := Option.some.inj hc
    rw [Point.eq_running hrun₁] at haw
    cases haw
  have hover : (σ j₁).Over d := by
    rcases await_cases (ht _ (by omega)) (hrun.next _ h₁) (hok _ h₁) hc₁ hp₁ with
      ⟨c, hc, hp⟩ | hgone | ⟨-, hover, -⟩
    · exact absurd ⟨c, hc, by rw [hp]; rfl⟩ hno
    · rw [hgone] at hc₁'
      cases hc₁'
    · exact hover
  -- between the two the coroutine came to await `d` again
  obtain ⟨k, hk₁, hk₂, hk, hk'⟩ := exists_step_of_not
    (P := fun k => ¬ ∃ c, (σ k).coros h = some c ∧ c.point.awaited = some d)
    (show j₁ + 1 ≤ j₂ by omega) hno (not_not_intro hr₂.1)
  obtain ⟨c', hc', haw'⟩ := not_not.mp hk'
  have hseq : h < (σ k).seq :=
    ((ht j₁ (by omega)).fresh h c₁ hc₁).trans_le (seq_le_of_le hrun.next (by omega) (by omega))
  exact not_over_of_awaited (ht k (by omega)) (hrun.next k (by omega)) (hok k (by omega)) hseq hk
    hc' haw' (over_of_over hrun ht hok (by omega) (by omega) hover)

end Run

end EfaExamples
