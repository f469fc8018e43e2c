import EfaExamples.Common.Endless
import EfaExamples.Coro.Awaits
import EfaExamples.Direct.Solo
/-!
# `Run` of a direct-style program returns

Along an endless run, a body that is before a statement comes to be after it,
if the statement has a direct-style meaning: by induction on the meaning,
where a `co_await` is the child's body from its beginning to its end with the
parent waiting, and a sleep is over once the clock has gone on far enough
(`leads_of_eval`). So there is no endless run of a program whose call has an
outcome, and as there is always a next step, there is one of any other.
-/

namespace EfaExamples

open Loop

variable {P E V : Type} {pr : Program P E V}
variable {s s' : Loop (Site P E V) Unit Empty Unit V} {h d x : ℕ} {l l' : Site P E V}

/-! ## States on the way -/

/-- The body of `h` executes, and is at `l`. -/
def At (h : ℕ) (l : Site P E V) (s : Loop (Site P E V) Unit Empty Unit V) : Prop :=
  s.stack = [(h, l)]

/-- `h` waits in its `co_await` of `d`. -/
def Awaiting (h d : ℕ) (bind : Option V → E → E) (k : List (Frame P E V)) (e : E)
    (s : Loop (Site P E V) Unit Empty Unit V) : Prop :=
  ∃ c, s.coros h = some c ∧ c.point = .await d fun o => .awaited d o bind k e

/-- No body executes, `x` is the one that is queued, and the coroutines are these. -/
def Next (x : ℕ) (coros : ℕ → Option (Coro (Site P E V) Empty V))
    (s : Loop (Site P E V) Unit Empty Unit V) : Prop :=
  s.stack = [] ∧ s.queued = [x] ∧ s.coros = coros

/-- It is the one `Runone` is to run. -/
def Front (x : ℕ) (coros : ℕ → Option (Coro (Site P E V) Empty V))
    (s : Loop (Site P E V) Unit Empty Unit V) : Prop :=
  s.stack = [] ∧ s.ready = [x] ∧ s.left = 1 ∧ s.coros = coros

/-- `d` has ended, with the outcome `o`. -/
def Ended (d : ℕ) (o : Outcome V) (s : Loop (Site P E V) Unit Empty Unit V) : Prop :=
  ∃ c, s.coros d = some c ∧ c.point = .final ∧ c.get = o

/-- Who waits goes on waiting, unless what it waits for has ended. -/
theorem Awaiting.step {bind : Option V → E → E} {k : List (Frame P E V)} {e : E}
    (hw : Awaiting h d bind k e s) (r : Reached pr s) (hs : Step coroWorld (direct pr) s s') :
    Awaiting h d bind k e s' ∨ s.Over d := by
  obtain ⟨c, hc, hp⟩ := hw
  have ok := (r.shape.owned r.table hs).stepOk r.table
  rcases await_cases r.table hs ok hc hp with ⟨c', hc', hp'⟩ | hgone | ⟨-, hover, -⟩
  · exact Or.inl ⟨c', hc', hp'⟩
  · -- it is not destroyed, not having ended
    obtain ⟨me, o, bind', k', e', hstack⟩ := r.shape.gone r.table hs hc hgone
    obtain ⟨c', hc', hf⟩ := r.shape.awaited me h o bind' k' e' hstack
    obtain rfl := Option.some.inj (hc.symm.trans hc')
    rw [hp] at hf
    cases hf
  · exact Or.inr hover

/-- Who executes is not over. -/
theorem At.not_over (hat : At d l s) (t : Table none s) : ¬ s.Over d := by
  intro hover
  obtain ⟨c, hc, hrun⟩ := (t.onStack d (by simp)).mp (by
    rw [running, show s.stack = [(d, l)] from hat]
    exact List.mem_singleton_self d)
  have hf := hover.2 c hc
  rw [Point.eq_running hrun] at hf
  cases hf

/-- Who executes was made before. -/
theorem At.ne_seq (hat : At h l s) (t : Table none s) : s.seq ≠ h := by
  obtain ⟨c, hc, -⟩ := (t.onStack h (by simp)).mp (by
    rw [running, show s.stack = [(h, l)] from hat]
    exact List.mem_singleton_self h)
  exact (t.fresh h c hc).ne'

/-- The end of a body. -/
theorem finish_ended {o : Outcome V} (hstack : s.stack = []) (hf : s.finish d o = some s') :
    s'.stack = [] ∧ Ended d o s' := by
  obtain ⟨c, -, s₁, he, hc, hcase⟩ := finish_cases hf
  have hself : (s₁.modify d fun c => { c with point := .final, result := some o, locals := [] }).coros
      d = some { c with point := .final, result := some o, locals := [] } := by
    rw [modify_coros_self, hc]
    rfl
  rcases hcase with ⟨-, rfl⟩ | ⟨p, cp, -, -, rfl⟩
  · exact ⟨he.stack.trans hstack, _, hself, rfl, rfl⟩
  · refine ⟨he.stack.trans hstack, ?_⟩
    rw [Ended, call_coros, setState]
    by_cases hp : d = p
    · rw [← hp, modify_coros_self, hself]
      exact ⟨_, rfl, rfl, rfl⟩
    · rw [modify_coros_of_ne hp, hself]
      exact ⟨_, rfl, rfl, rfl⟩

section Endless

variable {σ : ℕ → Loop (Site P E V) Unit Empty Unit V} {clock : ℕ → ℤ}
variable (hr : ∀ i, Reached pr (σ i))
variable (hs : ∀ i, ∃ moved, StepAt coroWorld (direct pr) (clock i) moved (σ i) (σ (i + 1)))
variable (hclock : ∀ t, ∃ i, ∀ j ≥ i, t ≤ clock j)

include hs

theorem step_endless (i : ℕ) : Step coroWorld (direct pr) (σ i) (σ (i + 1)) := by
  obtain ⟨moved, hst⟩ := hs i
  exact step_iff_stepAt.mpr ⟨clock i, moved, hst⟩

/-- An executing body performs its operation. -/
theorem exec_endless {i : ℕ} (hat : At h l (σ i)) :
    (σ i).exec (direct pr) (clock i) = some (σ (i + 1)) := by
  obtain ⟨moved, hst⟩ := hs i
  have hat : (σ i).stack = [(h, l)] := hat
  generalize σ (i + 1) = s' at hst
  cases hst with
  | exec hs => exact hs
  | resume hstack _ =>
    rw [hat] at hstack
    cases hstack
  | round hround =>
    cases hround with
    | mk hhead _ _ _ =>
      rw [hhead.1] at hat
      cases hat
  | env hs => exact hs.elim

theorem leads_goto (hop : direct pr l = goto l') : LeadsTo σ (At h l) (At h l') := by
  refine .of_step fun i hat => ?_
  have hexec := exec_endless hs hat
  unfold Loop.exec at hexec
  simp only [show (σ i).stack = [(h, l)] from hat, hop, goto, Option.some.injEq] at hexec
  rw [← hexec]
  rfl

/-- **A body suspends** in the `co_await` of the child it has made, which is then scheduled. -/
theorem await_endless {i : ℕ} {bind : Option V → E → E} {k : List (Frame P E V)} {e : E}
    {cd : Coro (Site P E V) Empty V} (r : Reached pr (σ i)) (hat : At h (.made d bind k e) (σ i))
    (hcd : (σ i).coros d = some cd) (hf : cd.point.isFinal = false)
    (hst : cd.state = .kUnschedule ∨ cd.state = .kScheduled) :
    (σ (i + 1)).stack = [] ∧ Awaiting h d bind k e (σ (i + 1)) ∧
      ∃ cd', (σ (i + 1)).coros d = some cd' ∧ cd'.point = cd.point ∧ cd'.state = .kScheduled := by
  have hstack : (σ i).stack = [(h, .made d bind k e)] := hat
  have hexec := exec_endless hs hat
  unfold Loop.exec at hexec
  simp only [hstack, direct, hcd, hf, Bool.false_eq_true, if_false, Option.some.injEq] at hexec
  obtain ⟨c, hc, -⟩ := (r.table.onStack h (by simp)).mp (by simp [running, hstack])
  have hne : d ≠ h := by
    obtain ⟨cd₁, hcd₁, hcr, -⟩ := r.shape.made h d bind k e hstack
    have := r.table.creator d cd₁ h hcd₁ hcr
    omega
  rw [← hexec]
  refine ⟨?_, ⟨_, awaitSuspend_row hc hne, ?_⟩, _, awaitSuspend_row hcd hne, ?_⟩
  · rw [awaitSuspend, schedule_stack]
    rfl
  · rw [if_pos rfl]
  · rw [if_neg hne, if_pos rfl]
    rcases hst with hst | hst
    · exact ⟨rfl, by simp only [hst, if_true]⟩
    · exact ⟨rfl, by simp only [hst, reduceCtorEq, if_false]⟩

/-- The front is run. -/
theorem resume_endless {i : ℕ} {coros : ℕ → Option (Coro (Site P E V) Empty V)}
    (hf : Front x coros (σ i)) : (σ i).resume coroWorld = some (σ (i + 1)) := by
  obtain ⟨moved, hst⟩ := hs i
  obtain ⟨hstack, hready, hleft, -⟩ := hf
  generalize σ (i + 1) = s' at hst
  cases hst with
  | exec hs => simp [Loop.exec, hstack] at hs
  | resume _ hs => exact hs
  | round hround =>
    cases hround with
    | mk hhead _ _ _ =>
      rw [hhead.2] at hleft
      cases hleft
  | env hs => exact hs.elim

/-- With nothing to run, `Run` goes round. -/
theorem round_endless {i : ℕ} (hstack : (σ i).stack = []) (hleft : (σ i).left = 0) :
    σ (i + 1) = (σ i).runone (clock i) := by
  obtain ⟨moved, hst⟩ := hs i
  generalize σ (i + 1) = s' at hst
  cases hst with
  | exec hs => simp [Loop.exec, hstack] at hs
  | resume _ hs =>
    obtain ⟨_, _, _, _, hn, -⟩ := iteration_of_resume hs
    rw [hleft] at hn
    cases hn
  | round hround =>
    cases hround with
    | mk _ _ hpoll hcall =>
      simp only [coroWorld, Prod.mk.injEq, Except.ok.injEq] at hpoll
      rw [← hpoll.1, callAll, Option.some.injEq] at hcall
      rw [← hcall]
  | env hs => exact hs.elim

include hr hclock

/-- **Who is queued comes to the front**, a sleeper once the clock has gone on far enough. -/
theorem leads_front (x : ℕ) (coros : ℕ → Option (Coro (Site P E V) Empty V)) :
    LeadsTo σ (Next x coros) (Front x coros) := by
  have hqueue : LeadsTo σ (fun s => s.stack = [] ∧ s.schedule = [] ∧ s.ready = [x] ∧ s.left = 0 ∧
      s.coros = coros) (Front x coros) := by
    refine .of_step fun i ⟨hstack, hsched, hready, hleft, hcoros⟩ => ?_
    rw [round_endless hs hstack hleft]
    have hdrain : Task.drain (time (clock i)) (σ i).schedule (σ i).ready = ([], [x]) := by
      rw [hsched, hready]
      rfl
    exact ⟨hstack, congrArg Prod.snd hdrain, congrArg (fun q => q.2.length) hdrain, hcoros⟩
  have htimer : ∀ t : Task, t.handle = x → LeadsTo σ (fun s => s.stack = [] ∧ s.schedule = [t] ∧
      s.ready = [] ∧ s.left = 0 ∧ s.coros = coros) (Front x coros) := by
    intro t ht
    refine .of_clock hclock (1000000 * t.when) fun i ⟨hstack, hsched, hready, hleft, hcoros⟩ => ?_
    rw [round_endless hs hstack hleft]
    by_cases hdue : t.when > time (clock i)
    · have hdrain : Task.drain (time (clock i)) (σ i).schedule (σ i).ready = ([t], []) := by
        rw [hsched, hready]
        exact if_pos hdue
      refine Or.inr ⟨⟨hstack, congrArg Prod.fst hdrain, congrArg Prod.snd hdrain,
        congrArg (fun q => q.2.length) hdrain, hcoros⟩, ?_⟩
      by_contra hlate
      have hle : time (1000000 * t.when) ≤ time (clock i) :=
        Int.tdiv_le_tdiv (by decide) (by omega)
      rw [time, Int.mul_tdiv_cancel_left _ (by decide)] at hle
      omega
    · have hdrain : Task.drain (time (clock i)) (σ i).schedule (σ i).ready = ([], [x]) := by
        rw [hsched, hready, ← ht]
        exact if_neg hdue
      exact Or.inl ⟨hstack, congrArg Prod.snd hdrain, congrArg (fun q => q.2.length) hdrain,
        hcoros⟩
  rintro i ⟨hstack, hqueued, hcoros⟩
  rcases (hr i).solo.idle hstack with
    ⟨hsched, ⟨hready, -⟩ | ⟨y, hready, hleft⟩⟩ | ⟨t, hsched, hready, hleft⟩
  · rw [queued, hready, hsched] at hqueued
    cases hqueued
  · obtain rfl : y = x := by simpa [queued, hready, hsched] using hqueued
    rcases Nat.le_one_iff_eq_zero_or_eq_one.mp hleft with hleft | hleft
    · exact hqueue i ⟨hstack, hsched, hready, hleft, hcoros⟩
    · exact ⟨i, le_rfl, hstack, hready, hleft, hcoros⟩
  · have ht : t.handle = x := by simpa [queued, hready, hsched] using hqueued
    exact htimer t ht i ⟨hstack, hsched, hready, hleft, hcoros⟩

/-- **Who is scheduled is resumed**, and nothing happens until then. -/
theorem exists_resumed {i : ℕ} {c : Coro (Site P E V) Empty V} (hstack : (σ i).stack = [])
    (hc : (σ i).coros x = some c) (hst : c.state = .kScheduled) :
    ∃ j ≥ i, (σ j).stack = [] ∧ (σ j).coros = (σ i).coros ∧
      Iteration coroWorld x c ((σ j).popped x 0 []) (σ (j + 1)) := by
  have hcount := ((hr i).table.row x c hc (by simp)).scheduled_iff.mp hst
  obtain ⟨j, hij, hf⟩ := leads_front hr hs hclock x (σ i).coros i
    ⟨hstack, (hr i).solo.queued_eq hstack (List.count_pos_iff.mp (by omega)), rfl⟩
  obtain ⟨h, n, q, c', hn, hready, hc', hit⟩ := iteration_of_resume (resume_endless hs hf)
  obtain ⟨hstack', hready', hleft, hcoros⟩ := hf
  rw [hready'] at hready
  cases hready
  obtain rfl : n = 0 := by omega
  rw [hcoros, hc] at hc'
  cases hc'
  exact ⟨j, hij, hstack', hcoros, hit⟩

/-- **What has ended wakes who waits for it.** -/
theorem leads_awaited (h d : ℕ) (o : Outcome V) (bind : Option V → E → E) (k : List (Frame P E V))
    (e : E) :
    LeadsTo σ (fun s => s.stack = [] ∧ Awaiting h d bind k e s ∧ Ended d o s)
      (At h (.awaited d o bind k e)) := by
  rintro i ⟨hstack, ⟨c, hc, hp⟩, cd, hcd, hf, hget⟩
  have hrow := (hr i).table.row h c hc (by simp)
  have hst : c.state = .kScheduled := by
    rw [hp] at hrow
    rcases hrow with ⟨hst, -⟩ | ⟨hst, -⟩
    · -- it would wait for one that has not ended
      obtain ⟨cd', hcd', hf', -⟩ := (hr i).waits h c d hc (by rw [hp]; rfl) hst
      rw [hcd, Option.some.injEq] at hcd'
      rw [← hcd', hf] at hf'
      cases hf'
    · exact hst
  obtain ⟨j, hij, -, hcoros, hit⟩ := exists_resumed hr hs hclock hstack hc hst
  refine ⟨j + 1, Nat.le_succ_of_le hij, ?_⟩
  have hdh : d ≠ h := by
    rintro rfl
    rw [hc, Option.some.injEq] at hcd
    rw [hcd, hf] at hp
    cases hp
  cases hit with
  | await d' k' cd' hp' hd' he =>
    rw [hp] at hp'
    cases hp'
    rw [popped_coros_of_ne hdh, hcoros, hcd] at hd'
    cases hd'
    rw [he, ← hget]
    rfl
  | initial l hp' _ =>
    rw [hp] at hp'
    cases hp'
  | sleep hp' _ =>
    rw [hp] at hp'
    cases hp'
  | refused a | failed a | posted a | io a => exact a.elim

/-- The child a body has made is resumed for the first time, with the body waiting. -/
theorem exists_child {i : ℕ} {bind : Option V → E → E} {k : List (Frame P E V)} {e : E}
    {cd : Coro (Site P E V) Empty V} (hat : At h (.made d bind k e) (σ i))
    (hcd : (σ i).coros d = some cd) (hf : cd.point.isFinal = false)
    (hst : cd.state = .kUnschedule ∨ cd.state = .kScheduled) :
    ∃ j ≥ i, (σ j).stack = [] ∧ Awaiting h d bind k e (σ (j + 1)) ∧ ∃ cd' : Coro (Site P E V) Empty V,
      cd'.point = cd.point ∧ Iteration coroWorld d cd' ((σ j).popped d 0 []) (σ (j + 1)) := by
  obtain ⟨hstack, ⟨c, hc, hp⟩, cd', hcd', hp', hst'⟩ := await_endless hs (hr i) hat hcd hf hst
  obtain ⟨j, hij, hstack', hcoros, hit⟩ := exists_resumed hr hs hclock hstack hcd' hst'
  refine ⟨j, by omega, hstack', ?_, cd', hp', hit⟩
  have hw : Awaiting h d bind k e (σ j) := ⟨c, by rw [hcoros]; exact hc, hp⟩
  refine (hw.step (hr j) (step_endless hs j)).resolve_right fun hover => ?_
  have := hover.2 cd' (by rw [hcoros]; exact hcd')
  rw [hp', hf] at this
  cases this

/-- A procedure's body begins. -/
theorem leads_begun (h d : ℕ) (l : Site P E V) (bind : Option V → E → E) (k : List (Frame P E V))
    (e : E) :
    LeadsTo σ (fun s => At h (.made d bind k e) s ∧ ∃ cd, s.coros d = some cd ∧ cd.point = .initial l)
      fun s => At d l s ∧ Awaiting h d bind k e s := by
  rintro i ⟨hat, cd, hcd, hp⟩
  obtain ⟨j, hij, -, hw, cd', hp', hit⟩ := exists_child hr hs hclock hat hcd (by rw [hp]; rfl)
    (((hr i).table.row d cd hcd (by simp)).state_of_isInitial (by rw [hp]; rfl))
  refine ⟨j + 1, Nat.le_succ_of_le hij, ?_, hw⟩
  rw [hp] at hp'
  cases hit with
  | initial l' hp'' he =>
    rw [hp'] at hp''
    cases hp''
    rw [he]
    rfl
  | await _ _ _ hp'' _ _ | sleep hp'' _ =>
    rw [hp'] at hp''
    cases hp''
  | refused a | failed a | posted a | io a => exact a.elim

/-- A sleep is over. -/
theorem leads_slept (h d : ℕ) (bind : Option V → E → E) (k : List (Frame P E V)) (e : E) :
    LeadsTo σ (fun s => At h (.made d bind k e) s ∧ ∃ cd, s.coros d = some cd ∧ cd.point = .sleep)
      fun s => s.stack = [] ∧ Awaiting h d bind k e s ∧ Ended d (.ok none) s := by
  rintro i ⟨hat, cd, hcd, hp⟩
  have hrow := (hr i).table.row d cd hcd (by simp)
  rw [hp] at hrow
  obtain ⟨j, hij, hstack, hw, cd', hp', hit⟩ := exists_child hr hs hclock hat hcd (by rw [hp]; rfl)
    (Or.inr hrow.1)
  rw [hp] at hp'
  cases hit with
  | initial _ hp'' _ | await _ _ _ hp'' _ _ =>
    rw [hp'] at hp''
    cases hp''
  | sleep _ hf =>
    obtain ⟨hstack', hended⟩ := finish_ended (s := (σ j).popped d 0 []) hstack hf
    exact ⟨j + 1, Nat.le_succ_of_le hij, hstack', hw, hended⟩
  | refused a | failed a | posted a | io a => exact a.elim

omit hclock in
/-- A body ends, and who waits for it is woken. -/
theorem leads_ended (h d : ℕ) (r : Flow E V) (bind : Option V → E → E) (k : List (Frame P E V))
    (e : E) :
    LeadsTo σ (fun s => At d (.after r []) s ∧ Awaiting h d bind k e s)
      fun s => s.stack = [] ∧ Awaiting h d bind k e s ∧ Ended d r.outcome s := by
  refine .of_step fun i ⟨hat, hw⟩ => ?_
  have hexec := exec_endless hs hat
  unfold Loop.exec at hexec
  simp only [show (σ i).stack = [(d, .after r [])] from hat, direct] at hexec
  obtain ⟨hstack, hended⟩ := finish_ended (s := { σ i with stack := [] }) rfl hexec
  exact ⟨hstack, (hw.step (hr i) (step_endless hs i)).resolve_right (hat.not_over (hr i).table), hended⟩

omit hr hclock in
/-- The awaited child is destroyed, and its outcome is what the body goes on with. -/
theorem leads_destroyed (h d : ℕ) (o : Outcome V) (bind : Option V → E → E) (k : List (Frame P E V))
    (e : E) : LeadsTo σ (At h (.awaited d o bind k e)) (At h (.after (.ofOutcome bind e o) k)) := by
  refine .of_step fun i hat => ?_
  have hexec := exec_endless hs hat
  unfold Loop.exec at hexec
  simp only [show (σ i).stack = [(h, .awaited d o bind k e)] from hat, direct] at hexec
  split at hexec
  · rw [Option.some.injEq] at hexec
    rw [← hexec]
    exact (erased_destroy _ _ _).stack
  · cases hexec

omit hclock in
/-- A procedure is called. -/
theorem leads_called (h : ℕ) (p : P) (arg : E → E) (bind : Option V → E → E)
    (k : List (Frame P E V)) (e : E) :
    LeadsTo σ (At h (.before (.await p arg bind) k e)) fun s => ∃ d, At h (.made d bind k e) s ∧
      ∃ cd, s.coros d = some cd ∧ cd.point = .initial (.before (pr.body p) [] (arg e)) := by
  refine .of_step fun i hat => ?_
  have hexec := exec_endless hs hat
  unfold Loop.exec at hexec
  simp only [show (σ i).stack = [(h, .before (.await p arg bind) k e)] from hat, direct,
    Option.some.injEq] at hexec
  rw [← hexec]
  refine ⟨_, rfl, .new (.initial (.before (pr.body p) [] (arg e))) (pr.isVoid p) (some h), ?_, rfl⟩
  show (addLocal _ _ _).coros _ = _
  rw [addLocal, modify_coros_of_ne (hat.ne_seq (hr i).table), spawn_coros, if_pos rfl]
  rfl

omit hclock in
/-- A body makes a sleeper. -/
theorem leads_sleeping (h : ℕ) (delay : E → Duration) (k : List (Frame P E V)) (e : E) :
    LeadsTo σ (At h (.before (.sleep delay) k e)) fun s => ∃ d, At h (.made d (fun _ e => e) k e) s ∧
      ∃ cd, s.coros d = some cd ∧ cd.point = .sleep := by
  refine .of_step fun i hat => ?_
  have hexec := exec_endless hs hat
  unfold Loop.exec at hexec
  simp only [show (σ i).stack = [(h, .before (.sleep delay) k e)] from hat, direct,
    Option.some.injEq] at hexec
  rw [← hexec]
  refine ⟨_, rfl, { Coro.new .sleep true (some h) with state := .kScheduled }, ?_, rfl⟩
  show (addLocal _ _ _).coros _ = _
  rw [addLocal, modify_coros_of_ne (hat.ne_seq (hr i).table), spawn_callAfter_coros, spawn_coros,
    if_pos rfl]

omit hr hclock in
/-- A statement leaves the frame around it. -/
theorem leads_leave (h : ℕ) (r : Flow E V) (f : Frame P E V) (k : List (Frame P E V)) :
    LeadsTo σ (At h (.after r (f :: k))) (At h (f.leave k r)) :=
  leads_goto hs rfl

/-- **A statement with a meaning is passed**, whoever's body it is in and whatever is around it. -/
theorem leads_of_eval {st : Stmt P E V} {e : E} {r : Flow E V} (hev : Eval pr st e r) :
    ∀ (h : ℕ) (k : List (Frame P E V)),
      LeadsTo σ (At h (.before st k e)) (At h (.after r k)) := by
  induction hev with
  | skip | assign | ret | throw =>
    intro h k
    exact leads_goto hs rfl
  | @seq s t e e' r _ _ ih₁ ih₂ =>
    intro h k
    exact (leads_goto hs rfl).trans
      ((ih₁ h (.seq t :: k)).trans ((leads_leave hs h (.next e') (.seq t) k).trans (ih₂ h k)))
  | @seqLeave s t e r _ hn ih =>
    intro h k
    have hl : LeadsTo σ (At h (.after r (.seq t :: k))) (At h (.after r k)) := by
      cases r with
      | next => cases hn
      | returned | threw => exact leads_goto hs rfl
    exact (leads_goto hs rfl).trans ((ih h (.seq t :: k)).trans hl)
  | iteTrue hb _ ih =>
    intro h k
    exact (leads_goto hs (by rw [direct, if_pos hb])).trans (ih h k)
  | iteFalse hb _ ih =>
    intro h k
    exact (leads_goto hs (by rw [direct, hb]; rfl)).trans (ih h k)
  | @whileTrue b s e e' r hb _ _ ih₁ ih₂ =>
    intro h k
    exact (leads_goto hs (by rw [direct, if_pos hb])).trans
      ((ih₁ h (.while b s :: k)).trans ((leads_leave hs h (.next e') (.while b s) k).trans (ih₂ h k)))
  | @whileLeave b s e r hb _ hn ih =>
    intro h k
    have hl : LeadsTo σ (At h (.after r (.while b s :: k))) (At h (.after r k)) := by
      cases r with
      | next => cases hn
      | returned | threw => exact leads_goto hs rfl
    exact (leads_goto hs (by rw [direct, if_pos hb])).trans ((ih h (.while b s :: k)).trans hl)
  | whileFalse hb =>
    intro h k
    exact leads_goto hs (by rw [direct, hb]; rfl)
  | @sleep delay e =>
    intro h k
    refine (leads_sleeping hr hs h delay k e).trans (.of_exists fun d => ?_)
    exact (leads_slept hr hs hclock h d _ k e).trans
      ((leads_awaited hr hs hclock h d (.ok none) _ k e).trans (leads_destroyed hs h d _ _ k e))
  | @await p arg bind e r _ ih =>
    intro h k
    refine (leads_called hr hs h p arg bind k e).trans (.of_exists fun d => ?_)
    -- the caller waits for all of the child's body
    have hover : ∀ i, (σ i).Over d → (σ (i + 1)).Over d := fun i hover =>
      over_step (hr i).table (step_endless hs i)
        (((hr i).shape.owned (hr i).table (step_endless hs i)).stepOk (hr i).table) hover
    have hbody := (ih d []).keep (W := Awaiting h d bind k e) (Z := fun s => s.Over d)
      (fun i hw => (hw.step (hr i) (step_endless hs i)).imp_right (hover i)) hover
      fun i hat => hat.not_over (hr i).table
    exact (leads_begun hr hs hclock h d _ bind k e).trans (hbody.trans
      ((leads_ended hr hs h d r bind k e).trans
        ((leads_awaited hr hs hclock h d r.outcome bind k e).trans
          (leads_destroyed hs h d r.outcome bind k e))))
  | @tryLeave s t hd e r _ hn ih =>
    intro h k
    have hl : LeadsTo σ (At h (.after r (.tryCatch hd t :: k))) (At h (.after r k)) := by
      cases r with
      | threw => cases hn
      | returned | next => exact leads_goto hs rfl
    exact (leads_goto hs rfl).trans ((ih h (.tryCatch hd t :: k)).trans hl)
  | @tryCatch s t hd e e' x r _ _ ih₁ ih₂ =>
    intro h k
    exact (leads_goto hs rfl).trans ((ih₁ h (.tryCatch hd t :: k)).trans
      ((leads_leave hs h (.threw x e') (.tryCatch hd t) k).trans (ih₂ h k)))

end Endless

/-! ## The end of the run -/

/-- The end of the root's body is the end of the run. -/
theorem Reached.returned {now : ℤ} {r : Flow E V} (rs : Reached pr s) (hat : At 0 (.after r []) s)
    (hexec : s.exec (direct pr) now = some s') : Returned coroWorld s' := by
  have hstack : s.stack = [(0, .after r [])] := hat
  obtain ⟨hleft, hready, hsched⟩ := rs.solo.busy 0 _ hstack
  have hsched : s.schedule = [] := by
    rcases hsched with hsched | ⟨t, bind, k, e, -, hl⟩
    · exact hsched
    · cases hl
  unfold Loop.exec at hexec
  simp only [hstack, direct] at hexec
  obtain ⟨c, hc, s₁, he, -, ⟨-, rfl⟩ | ⟨p, cp, hn, -, -⟩⟩ := finish_cases hexec
  · refine ⟨⟨he.stack, he.left.trans hleft⟩, ?_⟩
    simp only [stopped, modify_schedule, modify_ready, he.schedule, he.ready, hsched, hready,
      coroWorld, List.isEmpty_nil, Bool.and_self]
  · -- nobody waits for the root, the oldest coroutine
    obtain ⟨c₁, hc₁, hrun⟩ := (rs.table.onStack 0 (by simp)).mp (by simp [running, hstack])
    obtain rfl := Option.some.inj (Eq.trans (Eq.symm hc) hc₁)
    obtain ⟨cp, hcp, haw, -⟩ := rs.table.next 0 c p hc (by rw [Point.eq_running hrun]; rfl) hn
    obtain ⟨k, hp⟩ := Point.eq_await haw
    have hlocals := rs.shape.idle p cp hcp (by rw [hp]; rfl)
    have := (rs.table.locals p cp 0 hcp (by rw [hlocals, haw]; exact List.mem_singleton_self 0)).1
    omega

/-- After the end there is no step. -/
theorem not_stepAt_of_returned {now : ℤ} {moved : List Task} (hret : Returned coroWorld s) :
    ¬ StepAt coroWorld (direct pr) now moved s s' := by
  rintro (hs | ⟨-, hs⟩ | ⟨⟨-, hstop, -, -⟩⟩ | hs)
  · simp [Loop.exec, hret.1.1] at hs
  · obtain ⟨_, _, _, _, hn, -⟩ := iteration_of_resume hs
    rw [hret.1.2] at hn
    cases hn
  · rw [hret.2] at hstop
    cases hstop
  · exact hs.elim

/-- A run of `p` that does not end, though the clock goes on: it is read at every step, and comes
past every time for good. -/
structure Endless (pr : Program P E V) (p : P) (e : E)
    (σ : ℕ → Loop (Site P E V) Unit Empty Unit V) (clock : ℕ → ℤ) : Prop where
  start : σ 0 = Loop.boot (pr.isVoid p) (.before (pr.body p) [] e) () ()
  next : ∀ i, ∃ moved, StepAt coroWorld (direct pr) (clock i) moved (σ i) (σ (i + 1))
  clock : ∀ t, ∃ i, ∀ j ≥ i, t ≤ clock j

section Run

variable {p : P} {e : E}

/-- What is known of the states of a run. -/
theorem reached_of_run {σ : ℕ → Loop (Site P E V) Unit Empty Unit V} {n : ℕ}
    (hrun : IsRun (· = Loop.boot (pr.isVoid p) (.before (pr.body p) [] e) () ())
      (Step coroWorld (direct pr)) σ n) : ∀ i ≤ n, Reached pr (σ i) := by
  refine hrun.invariant (Reached pr) ?_ fun s s' hs hst => hs.step hst
  rintro s rfl
  exact .boot _ p e

/-- **A run whose call has an outcome ends.** -/
theorem Call.not_endless {o : Outcome V} (hcall : Call pr p e o)
    {σ : ℕ → Loop (Site P E V) Unit Empty Unit V} {clock : ℕ → ℤ} : ¬ Endless pr p e σ clock := by
  rintro ⟨hstart, hs, hclock⟩
  obtain ⟨r, hev, -⟩ := hcall
  have hr : ∀ i, Reached pr (σ i) := fun i => by
    induction i with
    | zero =>
      rw [hstart]
      exact .boot _ p e
    | succ i ih => exact ih.step (step_endless hs i)
  obtain ⟨j, -, -, -, hit⟩ := exists_resumed hr hs hclock (x := 0) (i := 0)
    (c := { Coro.new (.initial (.before (pr.body p) [] e)) (pr.isVoid p) none with
      state := .kScheduled }) (by rw [hstart, boot_eq]) (by rw [hstart, boot_eq]; rfl) rfl
  have hat : At 0 (.before (pr.body p) [] e) (σ (j + 1)) := by
    cases hit with
    | initial l hp he =>
      cases hp
      rw [he]
      rfl
    | await _ _ _ hp _ _ | sleep hp _ => cases hp
    | refused a | failed a | posted a | io a => exact a.elim
  obtain ⟨m, -, hat⟩ := leads_of_eval hr hs hclock hev 0 [] (j + 1) hat
  obtain ⟨moved, hstep⟩ := hs (m + 1)
  exact not_stepAt_of_returned ((hr m).returned hat (exec_endless hs hat)) hstep

/-- It owes what its call has as outcome. -/
theorem call_of_boot {o : Outcome V}
    (ho : Owes pr (Loop.boot (pr.isVoid p) (.before (pr.body p) [] e) () ()) 0 o) :
    Call pr p e o := by
  have hm := ho.of_point (Table.boot _ _ _ _) (c := { Coro.new (.initial (.before (pr.body p) [] e))
    (pr.isVoid p) none with state := .kScheduled }) (by rw [boot_eq]; rfl)
  obtain ⟨r, hr, hu⟩ := hm
  exact ⟨r, hr, hu⟩

/-- **An endless run goes on** while the call has no outcome. The root has begun, so in the end it
would be done, and owes what its call has as outcome. -/
theorem exists_next (hno : ¬ ∃ o, Call pr p e o) (now : ℤ) (r : Reached pr s) (hb : Begun s 0)
    (ho : ∀ o, Owes pr s 0 o → Call pr p e o) : ∃ s', (∃ moved, StepAt coroWorld (direct pr) now
      moved s s') ∧ Reached pr s' ∧ Begun s' 0 ∧ ∀ o, Owes pr s' 0 o → Call pr p e o := by
  have hret : ¬ Returned coroWorld s := by
    intro hret
    obtain ⟨c, hc⟩ := Option.isSome_iff_exists.mp r.shape.root
    have hq : s.queued = [] := by
      have hstop := hret.2
      simp only [stopped, Bool.and_eq_true, List.isEmpty_iff] at hstop
      rw [Loop.queued, hstop.1.1, hstop.1.2]
      rfl
    have hf : c.point.isFinal = true := by
      by_contra hf
      exact not_hasWake hq (wakes r.table r.waits hret.1.1 _ 0 c (le_refl _) hc (by simpa using hf)
        (hb.2 c hc))
    exact hno ⟨_, ho _ (.final hc (Point.eq_final hf))⟩
  obtain ⟨moved, s', hs⟩ := r.exists_stepAt hret now
  have hstep := step_iff_stepAt.mpr ⟨now, moved, hs⟩
  have r' := r.step hstep
  exact ⟨s', ⟨moved, hs⟩, r', hb.step r.table hstep ((r.shape.owned r.table hstep).stepOk r.table),
    fun o h => ho o (h.of_step r.shape r.table r'.table hstep r.shape.root)⟩

/-- **`Run` returns exactly where the direct-style call does.** A run that has not returned can
go on, at whatever reading of the clock. It does so for ever, on a clock that goes on, if the
call has no outcome, and only then. -/
theorem run_returns_iff (pr : Program P E V) (p : P) (e : E) :
    (∀ σ n, IsRun (· = Loop.boot (pr.isVoid p) (.before (pr.body p) [] e) () ())
      (Step coroWorld (direct pr)) σ n → ¬ Returned coroWorld (σ n) →
        ∀ now, ∃ moved s', StepAt coroWorld (direct pr) now moved (σ n) s') ∧
      ((∃ o, Call pr p e o) ↔ ¬ ∃ σ clock, Endless pr p e σ clock) := by
  refine ⟨fun σ n hrun hret now => (reached_of_run hrun n le_rfl).exists_stepAt hret now, ?_, ?_⟩
  · rintro ⟨o, hcall⟩ ⟨σ, clock, hend⟩
    exact hcall.not_endless hend
  · intro hend
    by_contra hno
    obtain ⟨σ, hstart, hσ⟩ := exists_endless
      (s := (Loop.boot (pr.isVoid p) (.before (pr.body p) [] e) () () :
        Loop (Site P E V) Unit Empty Unit V))
      (P := fun s => Reached pr s ∧ Begun s 0 ∧ ∀ o, Owes pr s 0 o → Call pr p e o)
      (T := fun i s s' => ∃ moved, StepAt coroWorld (direct pr) i moved s s')
      ⟨.boot _ p e, waits_boot.2, fun o => call_of_boot⟩ fun i s ⟨r, hb, ho⟩ =>
        exists_next hno i r hb ho
    exact hend ⟨σ, fun i => i, hstart, fun i => (hσ i).2, fun t => ⟨t.toNat, fun j hj => by omega⟩⟩

end Run

/-- The direct-style call of `rethrow` returns. -/
theorem rethrow_returns : ∃ o, Call rethrow true 1 o := by
  have hchild : Eval rethrow (.await false (· + 1) fun _ e => e) 1 (.threw (.user 2) 1) :=
    .await (r := .threw (.user 2) 2) (.seq .sleep .throw)
  exact ⟨_, _, .tryCatch hchild .ret, rfl⟩

/-- A body that sleeps again and again. -/
def forever : Program Unit Unit Unit where
  body _ := .while (fun _ => true) (.sleep fun _ => ⟨1, 1, 1000⟩)
  isVoid _ := true

/-- Its call does not return. -/
theorem not_call_forever : ¬ ∃ o, Call forever () () o := by
  have hwhile : ∀ {st : Stmt Unit Unit Unit} {e : Unit} {r : Flow Unit Unit}, Eval forever st e r →
      st ≠ .while (fun _ => true) (.sleep fun _ => ⟨1, 1, 1000⟩) := by
    intro st e r hev
    induction hev with
    | whileTrue _ _ _ _ ih => exact ih
    | whileLeave _ hs hn _ =>
      rintro ⟨⟩
      cases hs
      cases hn
    | whileFalse hb =>
      rintro ⟨⟩
      cases hb
    | skip | assign | seq | seqLeave | iteTrue | iteFalse | sleep | await | tryLeave | tryCatch
    | ret | throw => rintro ⟨⟩
  rintro ⟨o, r, hev, -⟩
  exact hwhile hev rfl

/-- `Run` returns from the one and not from the other. -/
theorem run_returns_iff_forever :
    (∀ now, ∃ moved s', StepAt coroWorld (direct rethrow) now moved
      (Loop.boot false (.before (rethrow.body true) [] 1) () ()) s') ∧
    (¬ ∃ σ clock, Endless rethrow true 1 σ clock) ∧ ∃ σ clock, Endless forever () () σ clock := by
  obtain ⟨hgo, hreturns⟩ := run_returns_iff rethrow true 1
  refine ⟨hgo (fun _ => Loop.boot false (.before (rethrow.body true) [] 1) () ()) 0
    ⟨rfl, fun i hi => by omega⟩ (fun hret => ?_), hreturns.mp rethrow_returns, ?_⟩
  · rw [boot_eq] at hret
    cases hret.2
  · exact not_not.mp fun hno => not_call_forever ((run_returns_iff forever () ()).2.mpr hno)

end EfaExamples
