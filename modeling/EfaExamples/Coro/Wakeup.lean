import EfaExamples.Coro.Awaits
import EfaExamples.Coro.Scheduler
/-!
# No wake-up is lost

Whoever waits is the `next` of the coroutine it waits for, and that one has
begun or is queued (`Waits`). The coroutine waited for was created by the
waiter, so it is younger, and the chain of waiters ends after at most `seq_`
links in a coroutine that is queued: `wakes` follows it. When `Run` returns
nothing is queued, so nothing is left waiting.
-/

namespace EfaExamples

open Loop

section Waits

variable {Loc G A X V : Type} {w : World A X V} {code : Loc → Op Loc G A V}
variable {s s' : Loop Loc G A X V} {h : ℕ}

/-- **Whoever waits is waited on by what it awaits.** -/
def Waits (s : Loop Loc G A X V) : Prop :=
  ∀ h c d, s.coros h = some c → c.point.awaited = some d → c.state = .kSuspend →
    ∃ cd, s.coros d = some cd ∧ cd.point.isFinal = false ∧ cd.next = some h ∧ h < d ∧
      (cd.point.isInitial = true → cd.state = .kScheduled)

/-- The coroutine was made, and is not one that still has to be scheduled. -/
def Begun (s : Loop Loc G A X V) (h : ℕ) : Prop :=
  h < s.seq ∧ ∀ c, s.coros h = some c → c.point.isInitial = true → c.state = .kScheduled

/-! ## One step -/

/-- **A step keeps every waiter waited on**, if what it awaits is younger and awaited by nobody,
and what it destroys is done. -/
theorem Waits.step (hw : Waits s) (t : Table none s) (hs : Step w code s s')
    (ok : StepOk w code s s') (hlt : ∀ p ∈ s.awaiting code, p.1 < p.2)
    (hdone : ∀ h c, s.coros h = some c → s'.coros h = none → c.point.isFinal = true)
    (hone : AwaitedOnce code s) : Waits s' := by
  intro h c' d hc' haw hst
  rcases waited_or_suspends t hs ok hc' haw hst with
    ⟨c, hc, haw₀, hst₀⟩ | ⟨l, rest, k, cd, hstack, hop, hd, hf, hd'⟩
  · obtain ⟨cd, hd, hf, hn, hlt, hi⟩ := hw h c d hc haw₀ hst₀
    rcases hs.rowStep t ok.await hd with hgone | ⟨cd', hd', hr⟩
    · rw [hdone d cd hd hgone] at hf
      cases hf
    · obtain ⟨hf', hn'⟩ := hr.next_kept hd hf hn hone hc' hst
      exact ⟨cd', hd', hf', hn', hlt, hr.scheduled_kept hi⟩
  · refine ⟨_, hd', hf, rfl, hlt _ (awaiting_eq hstack hop), fun hi => ?_⟩
    have hrow := t.row d cd hd (by simp)
    rcases hrow.state_of_isInitial hi with hu | hu <;> simp [hu]

/-- What has begun stays so. -/
theorem Begun.step (hb : Begun s h) (t : Table none s) (hs : Step w code s s')
    (ok : StepOk w code s s') : Begun s' h := by
  refine ⟨lt_of_lt_of_le hb.1 hs.seq_le, fun c' hc' => ?_⟩
  cases hc : s.coros h with
  | none =>
    rw [gone_step hs hb.1 hc] at hc'
    cases hc'
  | some c => exact (hs.row t ok.await hc hc').scheduled_kept (hb.2 c hc)

/-- What is started has its root begun and no one who waits. -/
theorem waits_boot {isVoid : Bool} {l : Loc} {g : G} {x : X} :
    Waits (boot isVoid l g x : Loop Loc G A X V) ∧
      Begun (boot isVoid l g x : Loop Loc G A X V) 0 := by
  rw [boot_eq]
  refine ⟨fun h c d hc haw _ => ?_, Nat.one_pos, fun c hc _ => ?_⟩
  · dsimp only at hc
    split at hc <;> cases hc
    cases haw
  · cases hc
    rfl

/-- **Who has begun and is not done waits for something**, once no body executes: at the end of
the chain of those it waits for is one that is queued, or one whose operation goes on. -/
theorem exists_source (t : Table none s) (hw : Waits s) (hstack : s.stack = []) :
    ∀ (m h : ℕ) (c : Coro Loc A V), s.seq - h ≤ m → s.coros h = some c →
      c.point.isFinal = false → (c.point.isInitial = true → c.state = .kScheduled) →
      ∃ d cd, s.coros d = some cd ∧
        (d ∈ s.queued ∨ ∃ a, cd.point = .io a ∧ cd.state = .kSuspend) := by
  intro m
  induction m with
  | zero =>
    intro h c hm hc
    have := t.fresh h c hc
    omega
  | succ m ih =>
    intro h c hm hc hf hi
    have hrow := t.row h c hc (by simp)
    by_cases hst : c.state = .kScheduled
    · exact ⟨h, c, hc, Or.inl (((t.scheduler).scheduled_iff h c hc).mp hst)⟩
    · cases hp : c.point with
      | initial l | initialIo a => exact absurd (hi (by rw [hp]; rfl)) hst
      | running =>
        have hmem := (t.onStack h (by simp)).mpr ⟨c, hc, by rw [hp]; rfl⟩
        rw [running, hstack] at hmem
        cases hmem
      | await d k =>
        rw [hp] at hrow
        obtain ⟨hsus, -⟩ := hrow.resolve_right fun hr => hst hr.1
        obtain ⟨cd, hd, hfd, -, hlt, hid⟩ := hw h c d hc (by rw [hp]; rfl) hsus
        exact ih d cd (by omega) hd hfd hid
      | sleep =>
        rw [hp] at hrow
        exact absurd hrow.1 hst
      | io a =>
        rw [hp] at hrow
        obtain ⟨hsus, -⟩ := hrow.resolve_right fun hr => hst hr.1
        exact ⟨h, c, hc, Or.inr ⟨a, hp, hsus⟩⟩
      | final =>
        rw [hp] at hf
        cases hf

end Waits

variable {Loc G V : Type} {code : Loc → Op Loc G Empty V}
variable {s s' : Loop Loc G Empty Unit V} {h d : ℕ} {c c' : Coro Loc Empty V}

/-- **A step of a program that awaits what it made itself.** -/
theorem Waits.step_of_owned (hw : Waits s) (t : Table none s) (hs : Step coroWorld code s s')
    (ho : Owned code s s') (hone : AwaitedOnce code s) : Waits s' := by
  refine hw.step t hs (ho.stepOk t) (fun p hp => ?_) (fun h c hc hgone => ?_) hone
  · obtain ⟨cd, hd, hcr⟩ := Option.bind_eq_some_iff.mp (ho.await p hp)
    exact t.creator p.2 cd p.1 hd hcr
  · exact ho.destroy h (t.fresh h c hc) c hc (by rw [hgone]; rfl)

/-! ## Following the chain -/

/-- **Who has begun and is not done has a wake source**, once no body
executes. The induction is on the number of younger coroutines: a waiter's
source is a coroutine younger than it. -/
theorem wakes (t : Table none s) (hw : Waits s) (hstack : s.stack = []) :
    ∀ (m h : ℕ) (c : Coro Loc Empty V), s.seq - h ≤ m → s.coros h = some c →
      c.point.isFinal = false → (c.point.isInitial = true → c.state = .kScheduled) →
      HasWake s h := by
  intro m
  induction m with
  | zero =>
    intro h c hm hc
    have := t.fresh h c hc
    omega
  | succ m ih =>
    intro h c hm hc hf hi
    have hrow := t.row h c hc (by simp)
    have hqueued : c.state = .kScheduled → HasWake s h := fun hst =>
      .queued (hrow.scheduled_iff.mp hst) (t.next_ne hc (Or.inr (by rw [hst]; decide)))
    cases hp : c.point with
    | initial l => exact hqueued (hi (by rw [hp]; rfl))
    | initialIo a => exact a.elim
    | running =>
      have hmem := (t.onStack h (by simp)).mpr ⟨c, hc, by rw [hp]; rfl⟩
      rw [running, hstack] at hmem
      cases hmem
    | await d k =>
      rw [hp] at hrow
      rcases hrow with ⟨hst, hzero⟩ | ⟨hst, -⟩
      · obtain ⟨cd, hd, hfd, hn, hlt, hid⟩ := hw h c d hc (by rw [hp]; rfl) hst
        refine .next hzero hd hfd hn ?_ (ih d cd (by omega) hd hfd hid)
        intro d' c' hd' hf' hn'
        obtain ⟨cp, hcp, haw, -⟩ := t.next d' c' h hd' hf' hn'
        rw [hc] at hcp
        cases hcp
        rw [hp] at haw
        cases haw
        rfl
      · exact hqueued hst
    | sleep =>
      rw [hp] at hrow
      exact hqueued hrow.1
    | io a => exact a.elim
    | final => rw [hp] at hf; cases hf

/-- With both queues empty nothing has a wake source. -/
theorem not_hasWake (hq : s.queued = []) : ¬ HasWake s h := by
  intro hw
  induction hw with
  | queued hone _ => rw [hq] at hone; cases hone
  | next _ _ _ _ _ _ ih => exact ih

/-! ## Along a run -/

/-- `h` has been in a queue, or has executed. -/
def Seen (s : Loop Loc G Empty Unit V) (h : ℕ) : Prop := h ∈ s.queued ∨ h ∈ s.running

/-- What is seen exists, and has begun. -/
theorem Seen.begun (hs : Seen s h) (t : Table none s) : (∃ c, s.coros h = some c) ∧ Begun s h := by
  rcases hs with hq | hr
  · obtain ⟨c, hc⟩ := t.exists_of_mem_queued hq
    refine ⟨⟨c, hc⟩, t.fresh h c hc, fun c' hc' _ => ?_⟩
    exact (t.scheduler.scheduled_iff h c' hc').mpr hq
  · obtain ⟨c, hc, hrun⟩ := (t.onStack h (by simp)).mp hr
    refine ⟨⟨c, hc⟩, t.fresh h c hc, fun c' hc' hi => ?_⟩
    rw [hc] at hc'
    cases hc'
    rw [Point.eq_running hrun] at hi
    cases hi

section Run

variable {isVoid : Bool} {l : Loc} {g : G} {σ : ℕ → Loop Loc G Empty Unit V} {n : ℕ}

/-- Every reachable state has its waiters waited on. -/
theorem waits_of_run (hrun : IsRun (· = boot isVoid l g ()) (Step coroWorld code) σ n)
    (ho : ∀ i < n, Owned code (σ i) (σ (i + 1))) (hone : ∀ i < n, AwaitedOnce code (σ i)) :
    ∀ i ≤ n, Table none (σ i) ∧ Waits (σ i) := by
  refine hrun.invariant_of_guard (fun s => Table none s ∧ Waits s)
    (fun s s' => Owned code s s' ∧ AwaitedOnce code s) ?_ ?_ fun i hi => ⟨ho i hi, hone i hi⟩
  · rintro s rfl
    exact ⟨Table.boot isVoid l g (), waits_boot.1⟩
  · intro s s' hs hst hg
    exact ⟨hs.1.step hst (hg.1.stepOk hs.1), hs.2.step_of_owned hs.1 hst hg.1 hg.2⟩

variable (hrun : IsRun (· = boot isVoid l g ()) (Step coroWorld code) σ n)
  (ho : ∀ i < n, Owned code (σ i) (σ (i + 1))) (hone : ∀ i < n, AwaitedOnce code (σ i))

include hrun ho

/-- What has been seen has begun ever after. -/
theorem begun_of_seen {j i : ℕ} (hji : j ≤ i) (hi : i ≤ n) (hs : Seen (σ j) h) : Begun (σ i) h := by
  obtain ⟨m, rfl⟩ := Nat.exists_eq_add_of_le hji
  clear hji
  induction m with
  | zero => exact (hs.begun (table_of_run hrun ho j hi)).2
  | succ m ih =>
    have t := table_of_run hrun ho (j + m) (by omega)
    exact (ih (by omega)).step t (hrun.next _ (by omega)) ((ho _ (by omega)).stepOk t)

/-- How a wait ends. -/
theorem resumes_of_awaited {i : ℕ} (hi : i < n) {c : Coro Loc Empty V} (hc : (σ i).coros h = some c)
    (haw : c.point.awaited = some d)
    (hno : ¬ ∃ c, (σ (i + 1)).coros h = some c ∧ c.point.awaited = some d) :
    Resumes (σ i) (σ (i + 1)) h d := by
  have t := table_of_run hrun ho i (by omega)
  obtain ⟨k, hp⟩ := Point.eq_await haw
  rcases await_cases t (hrun.next i hi) ((ho i hi).stepOk t) hc hp with
    ⟨c', hc', hp'⟩ | hgone | ⟨hres, -, -⟩
  · exact absurd ⟨c', hc', by rw [hp']; rfl⟩ hno
  · have hf := (ho i hi).destroy h (t.fresh h c hc) c hc (by rw [hgone]; rfl)
    rw [hp] at hf
    cases hf
  · exact hres

include hone

/-- When `Run` returns, who has begun and still exists is done. -/
theorem final_of_returned (hret : Returned coroWorld (σ n)) {c : Coro Loc Empty V}
    (hb : Begun (σ n) h) (hc : (σ n).coros h = some c) : c.point.isFinal = true := by
  obtain ⟨t, hw⟩ := waits_of_run hrun ho hone n (le_refl n)
  have hq : (σ n).queued = [] := by
    have hstop := hret.2
    simp only [stopped, Bool.and_eq_true, List.isEmpty_iff] at hstop
    rw [Loop.queued, hstop.1.1, hstop.1.2]
    rfl
  by_contra hf
  exact not_hasWake hq (wakes t hw hret.1.1 _ h c (le_refl _) hc (by simpa using hf) (hb.2 c hc))

/-- **No lost wake-up.** Along a run of the plain event loop whose coroutines
await only what they created, each at most once, and are done before they are
destroyed: whenever no body executes, a coroutine that has been queued or has
executed and is not done has exactly one wake source. When `Run` returns,
every such coroutine has been done, and every `co_await` that suspended has
been resumed exactly once. -/
theorem no_lost_wakeup :
    (∀ i ≤ n, (σ i).stack = [] → ∀ j ≤ i, ∀ h c, Seen (σ j) h → (σ i).coros h = some c →
      c.point.isFinal = false → HasWake (σ i) h) ∧
    (Returned coroWorld (σ n) →
      (∀ j ≤ n, ∀ h, Seen (σ j) h →
        ∃ k ≤ n, ∃ c, (σ k).coros h = some c ∧ c.point.isFinal = true) ∧
      ∀ i < n, ∀ h d, Suspends (σ i) (σ (i + 1)) h d →
        ∃ j, i < j ∧ j < n ∧ Resumes (σ j) (σ (j + 1)) h d ∧
          ∀ j' < n, Resumes (σ j') (σ (j' + 1)) h d → j' = j) := by
  refine ⟨?_, fun hret => ⟨?_, ?_⟩⟩
  · intro i hi hstack j hj h c hseen hc hf
    obtain ⟨t, hw⟩ := waits_of_run hrun ho hone i hi
    exact wakes t hw hstack _ h c (le_refl _) hc hf
      ((begun_of_seen hrun ho hj hi hseen).2 c hc)
  · intro j hj h hseen
    cases hc : (σ n).coros h with
    | some c =>
      exact ⟨n, le_refl n, c, hc, final_of_returned hrun ho hone hret
        (begun_of_seen hrun ho hj (le_refl n) hseen) hc⟩
    | none =>
      -- it was destroyed in between, and was done by then
      obtain ⟨⟨c₀, hc₀⟩, -⟩ := hseen.begun (table_of_run hrun ho j hj)
      obtain ⟨k, hk₁, hk₂, hk, hk'⟩ := exists_step_of_not (P := fun k => ((σ k).coros h).isSome)
        hj (by rw [hc₀]; rfl) (by rw [hc]; simp)
      obtain ⟨c, hck⟩ := Option.isSome_iff_exists.mp hk
      have t := table_of_run hrun ho k (by omega)
      exact ⟨k, by omega, c, hck, (ho k hk₂).destroy h (t.fresh h c hck) c hck (by simpa using hk')⟩
  · rintro i hi h d ⟨⟨c, hc, hr⟩, c', hc', haw⟩
    have t := table_of_run hrun ho i (by omega)
    have hseen : Seen (σ i) h := Or.inr ((t.onStack h (by simp)).mpr ⟨c, hc, hr⟩)
    obtain ⟨j, hj₁, hj₂, ⟨cj, hcj, hawj⟩, hno⟩ := exists_step_of_not
      (P := fun k => ∃ c, (σ k).coros h = some c ∧ c.point.awaited = some d)
      (show i + 1 ≤ n by omega) ⟨c', hc', haw⟩ (by
        rintro ⟨cn, hcn, hawn⟩
        have hf := final_of_returned hrun ho hone hret
          (begun_of_seen hrun ho (by omega) (le_refl n) hseen) hcn
        rw [Point.eq_final hf] at hawn
        cases hawn)
    have hres := resumes_of_awaited hrun ho hj₂ hcj hawj hno
    exact ⟨j, by omega, hj₂, hres, fun j' hj' hr' => resumes_unique hrun (table_of_run hrun ho)
      (fun i hi => (ho i hi).stepOk (table_of_run hrun ho i (by omega))) hj' hj₂ hr' hres⟩

end Run

/-- While the sleep of `nap` is pending its body has one wake source, and at
the end the body has been resumed once. -/
theorem no_lost_wakeup_nap : HasWake (nap 5) 0 ∧
    ∃ j, 4 < j ∧ j < 11 ∧ Resumes (nap j) (nap (j + 1)) 0 1 ∧
      ∀ j' < 11, Resumes (nap j') (nap (j' + 1)) 0 1 → j' = j := by
  have h := no_lost_wakeup nap_isRun (by decide +kernel) (by decide +kernel)
  refine ⟨h.1 5 (by decide) rfl 2 (by decide) 0 (((nap 5).coros 0).get (by decide +kernel))
    (Or.inr (by decide +kernel)) (by simp) (by decide +kernel), ?_⟩
  refine (h.2 ⟨⟨by decide +kernel, by decide +kernel⟩, by decide +kernel⟩).2 4 (by decide) 0 1 ?_
  exact ⟨⟨((nap 4).coros 0).get (by decide +kernel), by simp, by decide +kernel⟩,
    ((nap 5).coros 0).get (by decide +kernel), by simp, by decide +kernel⟩

end EfaExamples
