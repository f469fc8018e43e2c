import EfaExamples.Coro.TableStep
import EfaExamples.Coro.Script
/-!
# The scheduler of the plain event loop

A program whose coroutines await only what they created, and whose
coroutines are done before they are destroyed, keeps the table: what is
awaited is younger than what executes, so it is not executing, and what is
done is referenced by nothing. Every reachable state then has the table, and
with it the representation invariant of `ready_` and `schedule_`.
-/

namespace EfaExamples

open Loop

variable {Loc G V : Type} {code : Loc → Op Loc G Empty V}
variable {s s' : Loop Loc G Empty Unit V} {h : ℕ} {c : Coro Loc Empty V}

/-! ## The table of an owned step -/

/-- The executing coroutines are not younger than the innermost. -/
theorem Table.le_of_mem_running {A X : Type} {s : Loop Loc G A X V} {me i : ℕ} {l : Loc}
    {rest : List (ℕ × Loc)} (t : Table none s) (hstack : s.stack = (me, l) :: rest)
    (hi : i ∈ s.running) : i ≤ me := by
  have hsorted := t.sorted
  simp only [running, hstack, List.map_cons, List.pairwise_cons, List.mem_cons] at hsorted hi
  rcases hi with rfl | hi
  · exact le_refl _
  · exact Nat.le_of_lt (hsorted.1 i hi)

/-- **What is done is referenced by nothing.** -/
theorem Table.clean_of_final {A X : Type} {s s' : Loop Loc G A X V} (t : Table none s)
    (hd : ∀ h c, s.coros h = some c → s'.coros h = none → c.point.isFinal = true) :
    Table.Clean s s' := by
  intro h hh hgone
  obtain ⟨c, hc⟩ := Option.isSome_iff_exists.mp hh
  have hf := hd h c hc hgone
  refine ⟨(t.row h c hc (by simp)).count_eq_zero_of_point (Or.inl hf), fun hm => ?_,
    fun i ci hi _ hfi hn => ?_⟩
  · obtain ⟨c', hc', hr⟩ := (t.onStack h (by simp)).mp hm
    rw [hc] at hc'
    cases hc'
    rw [Point.eq_final hf] at hr
    cases hr
  · obtain ⟨cp, hcp, haw, -⟩ := t.next i ci h hi hfi hn
    rw [hc] at hcp
    cases hcp
    rw [Point.eq_final hf] at haw
    cases haw

/-- What `awaiting` reads off the stack. -/
theorem awaiting_eq {A X : Type} {code : Loc → Op Loc G A V} {s : Loop Loc G A X V} {me d : ℕ}
    {l : Loc} {rest : List (ℕ × Loc)} {k : Outcome V → Loc} (hstack : s.stack = (me, l) :: rest)
    (hop : code l = .await d k) : s.awaiting code = some (me, d) := by
  simp [awaiting, hstack, hop]

theorem exists_of_awaiting {A X : Type} {code : Loc → Op Loc G A V} {s : Loop Loc G A X V}
    {p : ℕ × ℕ} (hp : p ∈ s.awaiting code) :
    ∃ l rest k, s.stack = (p.1, l) :: rest ∧ code l = .await p.2 k := by
  unfold awaiting at hp
  split at hp
  · rename_i me l rest hstack
    split at hp
    · rename_i d k hop
      cases hp
      exact ⟨l, rest, k, hstack, hop⟩
    · cases hp
  · cases hp

/-- An owned step is one the table allows. -/
theorem Owned.stepOk (ho : Owned code s s') (t : Table none s) : StepOk coroWorld code s s' where
  clean := by
    refine t.clean_of_final fun h c hc hgone => ?_
    exact ho.destroy h (t.fresh h c hc) c hc (by rw [hgone]; rfl)
  await me l rest d k hstack hop hm := by
    have hcr := ho.await _ (awaiting_eq hstack hop)
    obtain ⟨c, hc, hcreator⟩ := Option.bind_eq_some_iff.mp hcr
    have hlt := t.creator d c me hc hcreator
    have hle := t.le_of_mem_running hstack hm
    omega
  events _ events x hpoll := by
    simp only [coroWorld, Prod.mk.injEq, Except.ok.injEq] at hpoll
    rw [← hpoll.1]
    exact ⟨List.nodup_nil, fun h hh => by cases hh⟩

/-- **Every reachable state has the table.** -/
theorem table_of_run {isVoid : Bool} {l : Loc} {g : G} {σ : ℕ → Loop Loc G Empty Unit V} {n : ℕ}
    (hrun : IsRun (· = boot isVoid l g ()) (Step coroWorld code) σ n)
    (ho : ∀ i < n, Owned code (σ i) (σ (i + 1))) : ∀ i ≤ n, Table none (σ i) := by
  refine hrun.invariant_of_guard (Table none) (Owned code) ?_ ?_ ho
  · rintro s rfl
    exact Table.boot isVoid l g ()
  · intro s s' t hs ho
    exact t.step hs (ho.stepOk t)

/-! ## What the table says of the queues -/

/-- A row that is not kUnschedule is not scheduled again. -/
theorem schedule_eq_self {A X : Type} {s : Loop Loc G A X V} {c : Coro Loc A V}
    (hc : s.coros h = some c) (hst : c.state ≠ .kUnschedule) : Handle.schedule h s = s := by
  unfold Handle.schedule
  simp only [hc, if_neg hst]

/-- `Handle::schedule` is idempotent. -/
theorem schedule_schedule {A X : Type} (s : Loop Loc G A X V) (h : ℕ) :
    Handle.schedule h (Handle.schedule h s) = Handle.schedule h s := by
  cases hc : s.coros h with
  | none =>
    have hs : Handle.schedule h s = s := by
      unfold Handle.schedule
      simp only [hc]
    rw [hs, hs]
  | some c =>
    by_cases hst : c.state = .kUnschedule
    · have hs : Handle.schedule h s = s.call h := by
        unfold Handle.schedule
        simp only [hc, if_pos hst]
      rw [hs]
      exact schedule_eq_self (c := { c with state := .kScheduled })
        (by rw [call_coros, setState, modify_coros_self, hc]; rfl) (by simp)
    · rw [schedule_eq_self hc hst, schedule_eq_self hc hst]

namespace Table

variable {A X : Type} {s : Loop Loc G A X V} {c : Coro Loc A V}

/-- The table gives the representation invariant. -/
theorem scheduler (t : Table none s) : Scheduler s where
  scheduled_iff h c hc := by
    have hrow := t.row h c hc (by simp)
    rw [hrow.scheduled_iff, ← List.count_pos_iff]
    have := hrow.le_one
    omega
  once := by
    refine List.nodup_iff_count_le_one.mpr fun h => ?_
    cases hc : s.coros h with
    | none => rw [t.gone h hc]; exact Nat.zero_le 1
    | some c => exact (t.row h c hc (by simp)).le_one
  done h c hc hf :=
    List.count_eq_zero.mp ((t.row h c hc (by simp)).count_eq_zero_of_point (Or.inl hf))
  waiting h c d cd hc haw hd hf := by
    have hrow := t.row h c hc (by simp)
    obtain ⟨k, hp⟩ := Point.eq_await haw
    rw [hp] at hrow
    rcases hrow with ⟨hst, -⟩ | ⟨-, -, hover⟩
    · exact hst
    · rw [hover.2 cd hd] at hf
      cases hf

/-- A coroutine that sleeps, waits or is queued is not kUnschedule. -/
theorem state_ne (t : Table none s) (hc : s.coros h = some c)
    (hb : h ∈ s.queued ∨ c.point.isSleep = true ∨ c.point.awaited.isSome = true) :
    c.state ≠ .kUnschedule := by
  have hrow := t.row h c hc (by simp)
  rcases hb with hq | hsl | haw
  · rw [((t.scheduler).scheduled_iff h c hc).mpr hq]
    decide
  · cases hp : c.point <;> rw [hp] at hrow hsl <;> first | (rw [hrow.1]; decide) | cases hsl
  · obtain ⟨d, haw⟩ := Option.isSome_iff_exists.mp haw
    obtain ⟨k, hp⟩ := Point.eq_await haw
    rw [hp] at hrow
    rcases hrow with ⟨hst, -⟩ | ⟨hst, -⟩ <;> rw [hst] <;> decide

end Table

/-! ## The invariant along runs -/

/-- **Scheduler representation invariant.** Along a run of the plain event
loop whose steps keep to what their coroutines own, every state has it, at
whatever readings of the clock; `Handle::schedule` is idempotent; and a
`Future` built on a coroutine that sleeps, waits or is queued leaves the
queues alone. -/
theorem scheduler_invariant {isVoid : Bool} {l : Loc} {g : G}
    {σ : ℕ → Loop Loc G Empty Unit V} {n : ℕ}
    (hrun : IsRun (· = boot isVoid l g ()) (Step coroWorld code) σ n)
    (ho : ∀ i < n, Owned code (σ i) (σ (i + 1))) :
    ∀ i ≤ n, Scheduler (σ i) ∧
      (∀ h, Handle.schedule h (Handle.schedule h (σ i)) = Handle.schedule h (σ i)) ∧
      (∀ h c, (σ i).coros h = some c →
        h ∈ (σ i).queued ∨ c.point.isSleep = true ∨ c.point.awaited.isSome = true →
        Handle.schedule h (σ i) = σ i) ∧
      ∀ me lc rest h k c, i < n → (σ i).stack = (me, lc) :: rest → code lc = .future h k →
        (σ i).coros h = some c →
        h ∈ (σ i).queued ∨ c.point.isSleep = true ∨ c.point.awaited.isSome = true →
        (σ (i + 1)).queued = (σ i).queued := by
  intro i hi
  have t := table_of_run hrun ho i hi
  have hself : ∀ h c, (σ i).coros h = some c →
      h ∈ (σ i).queued ∨ c.point.isSleep = true ∨ c.point.awaited.isSome = true →
      Handle.schedule h (σ i) = σ i := fun h c hc hb => schedule_eq_self hc (t.state_ne hc hb)
  refine ⟨t.scheduler, schedule_schedule (σ i), hself, ?_⟩
  intro me lc rest h k c hlt hstack hop hc hb
  -- the step that builds the `Future` is the executing body's
  have hexec : ∃ now, (σ i).exec code now = some (σ (i + 1)) := by
    have hs := hrun.next i hlt
    generalize σ (i + 1) = s' at hs
    cases hs with
    | exec now hs => exact ⟨now, hs⟩
    | resume hs _ => rw [hs] at hstack; cases hstack
    | round hs =>
      cases hs with
      | mk hhead _ _ _ => rw [hhead.1] at hstack; cases hstack
    | env hs => exact hs.elim
  obtain ⟨now, hexec⟩ := hexec
  unfold exec at hexec
  simp only [hstack, hop, hc] at hexec
  split at hexec
  · rw [Option.some.injEq] at hexec
    rw [← hexec]
    split
    · rfl
    · show (Handle.schedule h (σ i)).queued = (σ i).queued
      rw [hself h c hc hb]
  · cases hexec

/-- A body that sleeps 5 ms, builds a `Future` on the sleep and awaits it. The
second half of a location is the handle of the sleep. -/
def napCode : ℕ × ℕ → Op (ℕ × ℕ) Unit Empty Unit
  | (0, _) => .sleep ⟨5, 1, 1000⟩ fun h => (1, h)
  | (1, h) => .future h (2, h)
  | (2, h) => .await h fun _ => (3, h)
  | (3, h) => .destroy h (4, h)
  | _ => .ret (.ok none)

/-- Its states when `Runone` looks at the clock at 0, 10 and 10 ms. -/
def nap : ℕ → Loop (ℕ × ℕ) Unit Empty Unit Unit :=
  states coroWorld napCode Empty.elim (boot true (0, 0) () ())
    [.round 0, .resume, .exec 0, .exec 0, .exec 0, .round 10000000, .resume, .round 10000000,
      .resume, .exec 0, .exec 0]

theorem nap_isRun : IsRun (· = boot true (0, 0) () ()) (Step coroWorld napCode) nap 11 :=
  isRun_states (fun m => m.elim) rfl (by decide +kernel)

/-- The sleep is in `schedule_` once, before its `Future` is built and after. -/
theorem scheduler_invariant_nap :
    Scheduler (nap 3) ∧ (nap 4).queued = (nap 3).queued := by
  have h := scheduler_invariant nap_isRun (by decide +kernel) 3 (by decide)
  refine ⟨h.1, h.2.2.2 0 (1, 1) [] 1 (2, 1) (((nap 3).coros 1).get (by decide +kernel))
    (by decide) ?_ rfl (by simp) (Or.inl (by decide +kernel))⟩
  decide +kernel

end EfaExamples
