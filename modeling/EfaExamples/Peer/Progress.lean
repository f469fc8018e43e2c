import EfaExamples.Coro.Wakeup
import EfaExamples.Peer.Order
/-!
# The writer is never stuck

While posts succeed, whoever waits in `Write` waits for something that happens: the root for
its `WriteOne`, and this one for the front of its window, which is queued or has an operation
in the fabric. So before `Write` has ended there is always a handle to run or a write for the
fabric to complete.
-/

namespace EfaExamples

open Loop

namespace Writer

variable {I : Type} {w : Writer} {v : Version w I} {ph ph' : Phase I} {times : ℕ}
variable {s s' : Loop (Loc I) Counters ConnOp Fabric Val} {h : ℕ}

/-- What is awaited is younger than who awaits it. -/
theorem States.lt_of_awaiting (ss : States v ph s) :
    ∀ p ∈ s.awaiting (v.code times), p.1 < p.2 := by
  intro p hp
  rcases ss.awaiting_cases hp with ⟨r, -, rfl⟩ | ⟨x, l, k, -, rfl⟩
  · exact w.oneHandle_pos r
  · simp only [handle]
    omega

/-- The root and its `WriteOne` are the only ones who wait, each for one it has. -/
theorem States.awaitedOnce (ss : States v ph s) (t : Table none s) :
    AwaitedOnce (v.code times) s := by
  intro p hp c hc hf
  cases hn : c.next with
  | none => rfl
  | some q =>
    obtain ⟨cq, hcq, haw, -⟩ := t.next p.2 c q hc hf hn
    obtain ⟨k, hpoint⟩ := Point.eq_await haw
    obtain ⟨r, hr, hfit⟩ := ss.outlined.fits hcq
    obtain ⟨ls, rfl⟩ := hfit.eq_body hpoint rfl rfl
    rcases ss.awaiting_cases hp with ⟨r, rfl, rfl⟩ | ⟨x, l, j, rfl, rfl⟩
    · simp only [Phase.outline] at hr
      split at hr
      · cases hr
      · split at hr <;> cases hr
    · obtain ⟨-, hb⟩ | ⟨-, hb⟩ | ⟨i, -, -, ⟨-, hb⟩ | ⟨-, -, hb⟩ | ⟨-, -, hb⟩⟩ := Window.role_cases hr
      · -- the root waits for the `WriteOne`, which is no write
        have hone := (Point.await.inj (Role.body.inj hb).1).1
        simp only [handle] at hone
        omega
      all_goals cases hb

/-- The root is never destroyed. -/
theorem Phase.exists_role_zero {entry : ℕ → I} (ph : Phase I) :
    ∃ r, (ph.outline w entry).role 0 = some r := by
  cases ph with
  | running x l | waiting x k =>
    simp only [outline, Window.outline, Window.role_zero]
    exact ⟨_, rfl⟩
  | start | test r | made r | entered r | finished x o | back x o | ended x o seq => exact ⟨_, rfl⟩

/-- **In order, and whoever waits is waited on.** -/
structure Awake (v : Version w I) (times : ℕ) (s : Loop (Loc I) Counters ConnOp Fabric Val) :
    Prop where
  inOrder : ∃ ph, InOrder v times ph s
  waits : Waits s
  begun : Begun s 0

namespace Awake

/-- **One step.** -/
theorem step (aw : Awake v times s) (hs : Step efaWorld (v.code times) s s')
    (hsz : 0 < w.pageSize) (hrc : s.world.rc = 0) : Awake v times s' := by
  obtain ⟨ph, io⟩ := aw.inOrder
  obtain ⟨ph', io', hdone⟩ := io.step hs hsz hrc
  have ss := io.along.states
  have t := io.sound.table
  have ok := (ss.efaStepOk times io.sound hdone).stepOk t io.sound.contexts
  exact ⟨⟨ph', io'⟩,
    aw.waits.step t hs ok ss.lt_of_awaiting hdone (ss.awaitedOnce t), aw.begun.step t hs ok⟩

/-- **There is something to go on with.** -/
theorem goes_on (aw : Awake v times s) (hstack : s.stack = []) {c : Coro (Loc I) ConnOp Val}
    (hc : s.coros 0 = some c) (hf : c.point.isFinal = false) :
    s.ready ≠ [] ∨ s.world.outstanding ≠ [] := by
  obtain ⟨ph, io⟩ := aw.inOrder
  have ss := io.along.states
  have t := io.sound.table
  obtain ⟨d, cd, hd, hq | ⟨a, hp, hst⟩⟩ :=
    exists_source t aw.waits hstack _ 0 c le_rfl hc hf (aw.begun.2 c hc)
  · rw [ss.queued_eq t] at hq
    exact Or.inl (List.ne_nil_of_mem hq)
  · have hop : s.op d = some (a, .kSuspend) := op_eq_some.mpr ⟨cd, hd, hp, hst⟩
    obtain ⟨-, k, rfl, -⟩ := ss.op_eq hop
    exact Or.inr (List.ne_nil_of_mem (io.sound.contexts.waiting d _ hop (Phase.op_request k)))

/-- **The write that a `WriteOne` waits for** is queued or with the fabric. -/
theorem awaited (aw : Awake v times s) (hstack : s.stack = []) {h d : ℕ} (hh : h ≠ 0)
    {c : Coro (Loc I) ConnOp Val} {k : Outcome Val → Loc I} (hc : s.coros h = some c)
    (hp : c.point = .await d k) (hst : c.state = .kSuspend) :
    d ∈ s.ready ∨ d ∈ s.world.outstanding := by
  obtain ⟨ph, io⟩ := aw.inOrder
  have ss := io.along.states
  have t := io.sound.table
  obtain ⟨cd, hd, hfd, -⟩ := aw.waits h c d hc (by rw [hp]; rfl) hst
  have hrole : ∃ j, (ph.outline w v.entry).role d = some (.leaf (w.op j)) := by
    obtain ⟨r, hr, hfit⟩ := ss.outlined.fits hc
    obtain ⟨ls, rfl⟩ := hfit.eq_body hp rfl rfl
    rw [ss.outlined.stack] at hstack
    cases ph with
    | waiting x k' =>
      obtain ⟨rfl, -⟩ | ⟨-, hb⟩ | ⟨j, -, -, ⟨-, hb⟩ | ⟨-, -, hb⟩ | ⟨-, -, hb⟩⟩ :=
        Window.role_cases hr
      · exact absurd rfl hh
      · obtain ⟨rfl, -⟩ := Point.await.inj (Role.body.inj hb).1
        exact ⟨x.awaited, Phase.role_of_inside ss.ok trivial le_rfl ss.ok.2.2.2.1⟩
      all_goals cases hb
    | test r | made r | running x l | back x o => cases hstack
    | start | entered r | finished x o | ended x o seq =>
      -- outside of `WriteOne` only the root waits
      simp only [Phase.outline] at hr
      grind
  obtain ⟨j, hj⟩ := hrole
  have hqueue : cd.state = .kScheduled → d ∈ s.ready := fun hsch =>
    ss.queued_eq t ▸ (t.scheduler.scheduled_iff d cd hd).mp hsch
  obtain ⟨r, hr, hfit⟩ := ss.outlined.fits hd
  rw [hj, Option.some.injEq] at hr
  subst hr
  rcases hfit.1 with ⟨-, hsch⟩ | hio | hfin
  · exact Or.inl (hqueue hsch)
  · cases hs : cd.state with
    | kUnschedule => exact absurd hs (t.state_of_op hd hio).1
    | kSuspend =>
      exact Or.inr (io.sound.contexts.waiting d _ (op_eq_some.mpr ⟨cd, hd, hio, hs⟩)
        (Phase.op_request j))
    | kScheduled => exact Or.inl (hqueue hs)
  · rw [hfin] at hfd
    cases hfd

end Awake

/-- **While every post succeeds**, whoever waits is waited on. -/
theorem awake_of_run {σ : ℕ → Loop (Loc I) Counters ConnOp Fabric Val} {n : ℕ}
    (hrun : IsRun (Starts true (.write 0) {}) (Step efaWorld (v.code times)) σ n)
    (hrc : ∀ t ≤ n, (σ t).world.rc = 0) (hsz : 0 < w.pageSize) :
    ∀ t ≤ n, Awake v times (σ t) := by
  refine hrun.invariant_of_guard (Awake v times) (fun s _ => s.world.rc = 0) ?_ ?_
    fun t ht => hrc t ht.le
  · rintro s ⟨f, hf, hh, rfl⟩
    exact ⟨⟨.start, .start hf hh⟩, waits_boot.1, waits_boot.2⟩
  · exact fun s s' aw hs hrc => aw.step hs hsz hrc

/-- **It goes on**: a body executes; or `Write` has ended, or a handle is in `ready_`, or the
fabric has a write that it has not handed back, and the write that a `WriteOne` waits for is one
of these. -/
def GoesOn (s : Loop (Loc I) Counters ConnOp Fabric Val) : Prop :=
  s.stack ≠ [] ∨
    (∃ c, s.coros 0 = some c ∧
      (c.point.isFinal = true ∨ s.ready ≠ [] ∨ s.world.outstanding ≠ [])) ∧
    ∀ h c d k, h ≠ 0 → s.coros h = some c → c.point = .await d k → c.state = .kSuspend →
      d ∈ s.ready ∨ d ∈ s.world.outstanding

theorem Awake.goesOn (aw : Awake v times s) : GoesOn s := by
  by_cases hstack : s.stack = []
  · obtain ⟨ph, io⟩ := aw.inOrder
    obtain ⟨r, hr⟩ := ph.exists_role_zero
    obtain ⟨c, hc, -⟩ := io.along.states.outlined.role 0 _ hr
    refine Or.inr ⟨⟨c, hc, ?_⟩, fun h c d k hh hc hp hst => aw.awaited hstack hh hc hp hst⟩
    by_cases hf : c.point.isFinal = true
    · exact Or.inl hf
    · exact Or.inr (aw.goes_on hstack hc (by simpa using hf))
  · exact Or.inl hstack

/-- **Never stuck.** In every state of every run of either writer in which posts succeed, it goes
on. -/
theorem never_stuck {w : Writer} {times : ℕ} (hsz : 0 < w.pageSize) :
    (∀ (σ : ℕ → Loop (Loc Batch.Loc) Counters ConnOp Fabric Val) (n : ℕ),
      IsRun (Starts true (.write 0) {}) (Step efaWorld (Batch.code w times)) σ n →
      (∀ t ≤ n, (σ t).world.rc = 0) → ∀ t ≤ n, GoesOn (σ t)) ∧
    ∀ (σ : ℕ → Loop (Loc Sequential.Loc) Counters ConnOp Fabric Val) (n : ℕ),
      IsRun (Starts true (.write 0) {}) (Step efaWorld (Sequential.code w times)) σ n →
      (∀ t ≤ n, (σ t).world.rc = 0) → ∀ t ≤ n, GoesOn (σ t) :=
  ⟨fun _ _ hrun hrc t ht => (awake_of_run (v := Batch.version w) hrun hrc hsz t ht).goesOn,
    fun _ _ hrun hrc t ht => (awake_of_run (v := Sequential.version w) hrun hrc hsz t ht).goesOn⟩

/-- With both pages posted the loop has nothing to run, and waits for the first of them. -/
theorem never_stuck_pages : (Batch.pages 18).stack = [] ∧ (Batch.pages 18).ready = [] ∧
    2 ∈ (Batch.pages 18).world.outstanding := by
  have hready : (Batch.pages 18).ready = [] := by decide +kernel
  have hgoes := (never_stuck (by decide)).1 _ _ Batch.pages_isRun (by decide +kernel) 18 (by decide)
  obtain ⟨-, hawaited⟩ := hgoes.resolve_left (not_not_intro rfl)
  refine ⟨rfl, hready, ?_⟩
  have hor := hawaited 1 (((Batch.pages 18).coros 1).get (by decide +kernel)) 2
    (fun o => .one (.drained 0 [3] o)) (by decide) (by simp) rfl rfl
  rwa [hready, or_iff_right (List.not_mem_nil)] at hor

end Writer

end EfaExamples
