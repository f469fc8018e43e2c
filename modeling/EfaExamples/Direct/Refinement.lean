import EfaExamples.Direct.Meaning
/-!
# The event loop implements the direct style

`Owes s h o` says that coroutine `h` will end with the outcome `o`, as far as
the direct meaning of what is left of its body and of the bodies it waits
for tells. One step of the loop takes nothing from what a coroutine owes
(`Owes.of_step`), so the outcome the root has when `Run` returns is the one
its call owed at the start, which is the direct-style call.
-/

namespace EfaExamples

open Loop

variable {P E V : Type} {pr : Program P E V}
variable {s s' : Loop (Site P E V) Unit Empty Unit V} {h : ℕ} {o : Outcome V}

/-- **What a coroutine owes.** -/
inductive Owes (pr : Program P E V) (s : Loop (Site P E V) Unit Empty Unit V) :
    ℕ → Outcome V → Prop
  | final {h : ℕ} {c : Coro (Site P E V) Empty V} : s.coros h = some c → c.point = .final →
      Owes pr s h c.get
  | sleep {h : ℕ} {c : Coro (Site P E V) Empty V} : s.coros h = some c → c.point = .sleep →
      Owes pr s h (.ok none)
  | initial {h : ℕ} {c : Coro (Site P E V) Empty V} {l : Site P E V} {o : Outcome V} :
      s.coros h = some c → c.point = .initial l → Means pr l o → Owes pr s h o
  | running {h : ℕ} {c : Coro (Site P E V) Empty V} {l : Site P E V} {o : Outcome V} :
      s.coros h = some c → s.stack = [(h, l)] → Means pr l o → Owes pr s h o
  | made {h d : ℕ} {c : Coro (Site P E V) Empty V} {bind : Option V → E → E}
      {k : List (Frame P E V)} {e : E} {oc o : Outcome V} : s.coros h = some c →
      s.stack = [(h, .made d bind k e)] → Owes pr s d oc → Unwind pr k (.ofOutcome bind e oc) o →
      Owes pr s h o
  | await {h d : ℕ} {c : Coro (Site P E V) Empty V} {k : Outcome V → Site P E V}
      {oc o : Outcome V} : s.coros h = some c → c.point = .await d k → Owes pr s d oc →
      Means pr (k oc) o → Owes pr s h o

theorem Owes.exists (ho : Owes pr s h o) : ∃ c, s.coros h = some c := by
  cases ho with
  | final hc _ | sleep hc _ | initial hc _ _ | running hc _ _ | made hc _ _ _ | await hc _ _ _ =>
    exact ⟨_, hc⟩

/-- A coroutine that does not execute and waits for nothing owes what its
suspension point says. -/
theorem Owes.of_point {c : Coro (Site P E V) Empty V} (ho : Owes pr s h o) (t : Table none s)
    (hc : s.coros h = some c) :
    match c.point with
    | .final => o = c.get
    | .sleep => o = .ok none
    | .initial l => Means pr l o
    | _ => True := by
  have hrunning : ∀ l, s.stack = [(h, l)] → c.point = .running := by
    intro l hstack
    obtain ⟨c', hc', hr⟩ := (t.onStack h (by simp)).mp (by simp [Loop.running, hstack])
    rw [hc] at hc'
    cases hc'
    exact Point.eq_running hr
  cases ho with
  | final hc' hp =>
    rw [hc] at hc'
    cases hc'
    rw [hp]
  | sleep hc' hp =>
    rw [hc] at hc'
    cases hc'
    rw [hp]
  | initial hc' hp hm =>
    rw [hc] at hc'
    cases hc'
    rw [hp]
    exact hm
  | running _ hstack _ => rw [hrunning _ hstack]; trivial
  | made _ hstack _ _ => rw [hrunning _ hstack]; trivial
  | await hc' hp _ _ =>
    rw [hc] at hc'
    cases hc'
    rw [hp]
    trivial

/-! ## The executing body -/

/-- **How the executing body came to its location**: by its own operation, or
as the front of `ready_`. -/
inductive Reaches (pr : Program P E V) (s s' : Loop (Site P E V) Unit Empty Unit V) (h : ℕ) :
    Site P E V → Prop
  | goto {l l' : Site P E V} : s.stack = [(h, l)] → direct pr l = goto l' → Reaches pr s s' h l'
  | sleep {d : E → Duration} {k : List (Frame P E V)} {e : E} {c : Coro (Site P E V) Empty V} :
      s.stack = [(h, .before (.sleep d) k e)] → s'.coros s.seq = some c → c.point = .sleep →
      Reaches pr s s' h (.made s.seq (fun _ e => e) k e)
  | call {p : P} {arg : E → E} {bind : Option V → E → E} {k : List (Frame P E V)} {e : E}
      {c : Coro (Site P E V) Empty V} : s.stack = [(h, .before (.await p arg bind) k e)] →
      s'.coros s.seq = some c → c.point = .initial (.before (pr.body p) [] (arg e)) →
      Reaches pr s s' h (.made s.seq bind k e)
  | ready {d : ℕ} {bind : Option V → E → E} {k : List (Frame P E V)} {e : E}
      {c : Coro (Site P E V) Empty V} : s.stack = [(h, .made d bind k e)] →
      s.coros d = some c → c.point = .final → Reaches pr s s' h (.awaited d c.get bind k e)
  | destroy {d : ℕ} {o : Outcome V} {bind : Option V → E → E} {k : List (Frame P E V)} {e : E} :
      s.stack = [(h, .awaited d o bind k e)] → Reaches pr s s' h (.after (.ofOutcome bind e o) k)
  | initial {c : Coro (Site P E V) Empty V} {l : Site P E V} : s.coros h = some c →
      c.point = .initial l → Reaches pr s s' h l
  | await {c cd : Coro (Site P E V) Empty V} {d : ℕ} {k : Outcome V → Site P E V} :
      s.coros h = some c → c.point = .await d k → s.coros d = some cd → cd.point = .final →
      Reaches pr s s' h (k cd.get)

/-- The list is complete. -/
theorem Shape.reaches {l' : Site P E V} (sh : Shape pr s) (t : Table none s) (t' : Table none s')
    (hs : Step coroWorld (direct pr) s s') (hstack' : s'.stack = [(h, l')]) :
    Reaches pr s s' h l' := by
  cases hs with
  | exec now hs =>
    rcases sh.single with hstack | ⟨me, l, hstack⟩
    · simp [exec, hstack] at hs
    · unfold exec at hs
      simp only [hstack] at hs
      obtain ⟨cme, hcme, -⟩ := (t.onStack me (by simp)).mp (by simp [running, hstack])
      have hme : s.seq ≠ me := by
        have := t.fresh me cme hcme
        omega
      cases siteOp pr l with
      | goto l₁ hop _ _ =>
        simp only [hop, EfaExamples.goto, Option.some.injEq] at hs
        subst hs
        cases hstack'
        exact .goto hstack hop
      | sleep d k e =>
        simp only [direct, Option.some.injEq] at hs
        subst hs
        cases hstack'
        refine .sleep (c := { Coro.new .sleep true (some h) with state := .kScheduled }) hstack ?_ rfl
        show (addLocal _ _ _).coros s.seq = _
        rw [addLocal, modify_coros_of_ne hme, spawn_callAfter_coros, spawn_coros, if_pos rfl]
      | call p arg bind k e =>
        simp only [direct, Option.some.injEq] at hs
        subst hs
        cases hstack'
        refine .call hstack (c := .new (.initial (.before (pr.body p) [] (arg e))) (pr.isVoid p)
          (some h)) ?_ rfl
        show (addLocal _ _ _).coros s.seq = _
        rw [addLocal, modify_coros_of_ne hme, spawn_coros, if_pos rfl]
        rfl
      | await d bind k e =>
        simp only [direct] at hs
        cases hd : s.coros d with
        | none => simp [hd] at hs
        | some cd =>
          simp only [hd] at hs
          split at hs
          · rename_i hf
            cases hs
            cases hstack'
            exact .ready hstack hd (Point.eq_final hf)
          · cases hs
            rw [awaitSuspend, schedule_stack] at hstack'
            cases hstack'
      | destroy d o bind k e =>
        simp only [direct] at hs
        split at hs
        · simp only [Option.some.injEq] at hs
          subst hs
          rw [(erased_destroy s.seq d _).stack] at hstack'
          cases hstack'
          exact .destroy hstack
        · cases hs
      | ret r =>
        simp only [direct] at hs
        obtain ⟨c, -, s₁, he, -, ⟨-, rfl⟩ | ⟨p, cp, -, -, rfl⟩⟩ := finish_cases hs
        · rw [modify_stack, he.stack] at hstack'
          cases hstack'
        · rw [call_stack, modify_stack, he.stack] at hstack'
          cases hstack'
  | resume hstack hs =>
    obtain ⟨c', hc', hrun⟩ := (t'.onStack h (by simp)).mp (by simp [running, hstack'])
    have hidle : ∀ c, s.coros h = some c → c.point.isRunning = true → False := by
      intro c hc hr
      have hmem := (t.onStack h (by simp)).mpr ⟨c, hc, hr⟩
      rw [running, hstack] at hmem
      cases hmem
    cases hc : s.coros h with
    | none =>
      obtain ⟨-, _, _, _, _, _, _, hst, -⟩ := (Step.resume hstack hs :
        Step coroWorld (direct pr) s s').fresh_row hc hc'
      rw [hstack] at hst
      cases hst
    | some c =>
      have hrow : s'.coros h = none ∨
          ∃ c', s'.coros h = some c' ∧ RowStep coroWorld (direct pr) s s' h c c' :=
        resume_row t hstack hs hc
      rcases hrow with hgone | ⟨c₁, hc₁, hr⟩
      · rw [hgone] at hc'
        cases hc'
      · rw [hc'] at hc₁
        cases hc₁
        cases hr.pointStep with
        | kept hpoint _ _ =>
          rw [hpoint] at hrun
          exact (hidle _ hc hrun).elim
        | suspended _ _ _ _ _ _ _ hpoint | ended _ _ hpoint _ | posted _ _ _ _ _ hpoint =>
          rw [hpoint] at hrun
          cases hrun
        | resumed q l _ hready hst hp _ =>
          rw [hstack'] at hst
          cases hst
          rcases hp with hp | ⟨d, k, cd, hp, hd, rfl⟩
          · exact .initial hc hp
          · -- it waits no longer, so what it waited for has ended
            have hover := t.over_of_mem_queued hc hp (by simp [Loop.queued, hready])
            exact .await hc hp hd (Point.eq_final (hover.2 cd hd))
  | round hs =>
    cases hs with
    | mk hhead _ hpoll hcall =>
      simp only [coroWorld, Prod.mk.injEq, Except.ok.injEq] at hpoll
      rw [← hpoll.1, callAll, Option.some.injEq] at hcall
      subst hcall
      rw [show ((_ : Loop (Site P E V) Unit Empty Unit V).runone _).stack = s.stack from rfl,
        hhead.1] at hstack'
      cases hstack'
  | env hs => exact hs.elim

/-! ## One step -/

/-- The outcome a body ends with is what it owed. -/
theorem Owes.of_ends {c : Coro (Site P E V) Empty V} (sh : Shape pr s) (hc : s.coros h = some c)
    (hends : Ends coroWorld (direct pr) s h c o) : Owes pr s h o := by
  cases hends with
  | ret l rest hstack hop =>
    cases siteOp pr l with
    | ret r =>
      simp only [direct, Op.ret.injEq] at hop
      exact .running hc (sh.stack_eq hstack) hop.symm
    | goto l' hop' _ _ => rw [hop'] at hop; cases hop
    | sleep | call | destroy | await => cases hop
  | sleep _ _ _ hp ho =>
    rw [ho]
    exact .sleep hc hp
  | enterIo _ a => exact a.elim
  | io _ a => exact a.elim

section Step

variable (sh : Shape pr s) (t : Table none s) (t' : Table none s')
variable (hs : Step coroWorld (direct pr) s s')

include sh t hs

/-- The row of a coroutine that is there after the step. -/
theorem exists_pointStep {c' : Coro (Site P E V) Empty V} (hsome : (s.coros h).isSome)
    (hc' : s'.coros h = some c') :
    ∃ c, s.coros h = some c ∧ PointStep coroWorld (direct pr) s s' h c c' := by
  obtain ⟨c, hc⟩ := Option.isSome_iff_exists.mp hsome
  exact ⟨c, hc, (hs.row t ((sh.owned t hs).stepOk t).await hc hc').pointStep⟩

include t'

/-- Of the body that executes after the step, at a location of its own. -/
theorem Owes.of_running {c : Coro (Site P E V) Empty V} {l : Site P E V}
    (hc : s.coros h = some c) (hstack' : s'.stack = [(h, l)]) (hm : Means pr l o) :
    Owes pr s h o := by
  cases sh.reaches t t' hs hstack' with
  | goto hstack hop => exact .running hc hstack (means_goto hop hm)
  | sleep | call => exact hm.elim
  | ready hstack hd hf => exact .made hc hstack (.final hd hf) hm
  | destroy hstack => exact .running hc hstack hm
  | initial hc₀ hp => exact .initial hc₀ hp hm
  | await hc₀ hp hd hf => exact .await hc₀ hp (.final hd hf) hm

/-- Of one that executes and has a child: it has just made it, so the child owes what its
call or its sleep has as outcome. -/
theorem Owes.of_made {c : Coro (Site P E V) Empty V} {d : ℕ} {bind : Option V → E → E}
    {k : List (Frame P E V)} {e : E} {oc : Outcome V} (hc : s.coros h = some c)
    (hstack' : s'.stack = [(h, .made d bind k e)]) (hd : Owes pr s' d oc)
    (hu : Unwind pr k (.ofOutcome bind e oc) o) : Owes pr s h o := by
  generalize hl : Site.made d bind k e = l' at hstack'
  cases sh.reaches t t' hs hstack' with
  | @goto l _ hstack hop =>
    subst hl
    cases siteOp pr l with
    | goto l' hop' _ hchild =>
      rw [hop'] at hop
      simp only [EfaExamples.goto, Op.step.injEq] at hop
      have : l' = .made d bind k e := congrArg Prod.snd (congrFun hop ())
      rw [this] at hchild
      cases hchild
    | sleep | call | destroy | await | ret => cases hop
  | sleep hstack hnew hp =>
    cases hl
    have := hd.of_point t' hnew
    rw [hp] at this
    subst this
    exact .running hc hstack ⟨_, .sleep, hu⟩
  | call hstack hnew hp =>
    cases hl
    have := hd.of_point t' hnew
    rw [hp] at this
    obtain ⟨r, hr, rfl⟩ := this
    exact .running hc hstack ⟨_, .await hr, hu⟩
  | ready | destroy => cases hl
  | initial hc₀ hp =>
    obtain ⟨p, e, rfl⟩ := sh.initial h _ _ hc₀ hp
    cases hl
  | await hc₀ hp _ _ =>
    obtain ⟨-, bind', ks, e', rfl⟩ := sh.await h _ _ _ hc₀ hp
    cases hl

end Step

/-- **What is owed after a step was owed before.** -/
theorem Owes.of_step (ho : Owes pr s' h o) (sh : Shape pr s) (t : Table none s) (t' : Table none s')
    (hs : Step coroWorld (direct pr) s s') (hc : (s.coros h).isSome) : Owes pr s h o := by
  induction ho with
  | @final h c' hc' hf =>
    obtain ⟨c, hc, hr⟩ := exists_pointStep sh t hs hc hc'
    cases hr with
    | kept hp _ hget =>
      rw [hget]
      exact .final hc (hp.symm.trans hf)
    | ended o hends _ hres =>
      rw [show c'.get = o by rw [Coro.get, hres]]
      exact .of_ends sh hc hends
    | suspended _ _ _ _ _ _ _ hp | resumed _ _ _ _ _ _ hp | posted _ _ _ _ _ hp =>
      rw [hp] at hf
      cases hf
  | @sleep h c' hc' hp' =>
    obtain ⟨c, hc, hr⟩ := exists_pointStep sh t hs hc hc'
    cases hr with
    | kept hp _ _ => exact .sleep hc (hp.symm.trans hp')
    | suspended _ _ _ _ _ _ _ hp | ended _ _ hp _ | resumed _ _ _ _ _ _ hp
    | posted _ _ _ _ _ hp =>
      rw [hp] at hp'
      cases hp'
  | @initial h c' l o hc' hp' hm =>
    obtain ⟨c, hc, hr⟩ := exists_pointStep sh t hs hc hc'
    cases hr with
    | kept hp _ _ => exact .initial hc (hp.symm.trans hp') hm
    | suspended _ _ _ _ _ _ _ hp | ended _ _ hp _ | resumed _ _ _ _ _ _ hp
    | posted _ _ _ _ _ hp =>
      rw [hp] at hp'
      cases hp'
  | @running h c' l' o hc' hstack' hm =>
    obtain ⟨c, hc, -⟩ := exists_pointStep sh t hs hc hc'
    exact .of_running sh t t' hs hc hstack' hm
  | @made h d c' bind k e oc o hc' hstack' hd hu ih =>
    obtain ⟨c, hc, -⟩ := exists_pointStep sh t hs hc hc'
    exact .of_made sh t t' hs hc hstack' hd hu
  | @await h d c' k oc o hc' hp' hd hm ih =>
    obtain ⟨c, hc, hr⟩ := exists_pointStep sh t hs hc hc'
    cases hr with
    | kept hp _ _ =>
      have hawait := hp.symm.trans hp'
      -- what it waits for was there before
      have hlive : (s.coros d).isSome := by
        obtain ⟨cd, hcd⟩ := hd.exists
        cases hds : s.coros d with
        | some _ => rfl
        | none =>
          have := (sh.await h c d k hc hawait).1
          have := (hs.fresh_row hds hcd).1
          omega
      exact .await hc hawait (ih hlive) hm
    | suspended l rest d' k' hstack hop hd' hp =>
      rw [hp] at hp'
      cases hp'
      obtain ⟨cd, hcd, -⟩ := hd'
      obtain ⟨bind, ks, e, rfl, rfl⟩ := eq_made_of_await hop
      exact .made hc (sh.stack_eq hstack) (ih (by rw [hcd]; rfl)) hm
    | ended _ _ hp _ | resumed _ _ _ _ _ _ hp | posted _ _ _ _ _ hp =>
      rw [hp] at hp'
      cases hp'

/-! ## The run -/

/-- The loop `Run` starts from has the shape. -/
theorem Shape.boot (isVoid : Bool) (p : P) (e : E) :
    Shape pr (Loop.boot isVoid (.before (pr.body p) [] e) () ()) := by
  have hrow : ∀ i c, (Loop.boot isVoid (.before (pr.body p) [] e) () () :
      Loop (Site P E V) Unit Empty Unit V).coros i = some c →
      i = 0 ∧ c = { Coro.new (.initial (.before (pr.body p) [] e)) isVoid none with
        state := .kScheduled } := by
    intro i c hc
    simp only [Loop.boot, Handle.schedule] at hc
    rcases modify_coros_eq_some.mp hc with ⟨hi, c₀, hc₀, rfl⟩ | ⟨hi, hc₀⟩
    · cases hc₀
      exact ⟨hi, rfl⟩
    · simp [hi] at hc₀
  constructor
  case root => rfl
  case single => exact Or.inl rfl
  case initial =>
    intro h c l hc hp
    obtain ⟨-, rfl⟩ := hrow h c hc
    cases hp
    exact ⟨p, e, rfl⟩
  case await =>
    intro h c d k hc hp
    obtain ⟨-, rfl⟩ := hrow h c hc
    cases hp
  case idle =>
    intro h c hc _
    obtain ⟨-, rfl⟩ := hrow h c hc
    rfl
  case busy => intro me l c hst; cases hst
  case made => intro me d bind k e hst; cases hst
  case awaited => intro me d o bind k e hst; cases hst

section Run

variable {p : P} {e : E} {σ : ℕ → Loop (Site P E V) Unit Empty Unit V} {n : ℕ}
variable (hrun : IsRun (· = Loop.boot (pr.isVoid p) (.before (pr.body p) [] e) () ())
  (Step coroWorld (direct pr)) σ n)

include hrun

/-- Every reachable state has the table and the shape. -/
theorem shape_of_run : ∀ i ≤ n, Table none (σ i) ∧ Shape pr (σ i) := by
  refine hrun.invariant (fun s => Table none s ∧ Shape pr s) ?_ ?_
  · rintro s rfl
    exact ⟨Table.boot _ _ _ _, Shape.boot _ p e⟩
  · intro s s' hs hst
    exact ⟨hs.1.step hst ((hs.2.owned hs.1 hst).stepOk hs.1), hs.2.step hs.1 hst⟩

/-- What the root owes at some time its call has as outcome. -/
theorem call_of_owes {i : ℕ} (hi : i ≤ n) {o : Outcome V} (ho : Owes pr (σ i) 0 o) :
    Call pr p e o := by
  induction i with
  | zero =>
    have t := (shape_of_run hrun 0 hi).1
    rw [hrun.start] at ho t
    have := ho.of_point (c := { Coro.new (.initial (.before (pr.body p) [] e)) (pr.isVoid p) none with
      state := .kScheduled }) t rfl
    obtain ⟨r, hr, hu⟩ := this
    exact ⟨r, hr, hu⟩
  | succ i ih =>
    obtain ⟨t, sh⟩ := shape_of_run hrun i (by omega)
    exact ih (by omega) (ho.of_step sh t (shape_of_run hrun (i + 1) hi).1 (hrun.next i (by omega))
      sh.root)

/-- **The event loop implements the direct style.** When `Run` of a
direct-style program returns, at whatever readings of the clock, the root is
done, and its result is what the direct-style call of its procedure returns
or throws. -/
theorem run_eq_call (hret : Returned coroWorld (σ n)) :
    ∃ c, (σ n).coros 0 = some c ∧ c.point = .final ∧ ∀ o, Call pr p e o ↔ o = c.get := by
  have ho : ∀ i < n, Owned (direct pr) (σ i) (σ (i + 1)) := fun i hi =>
    (shape_of_run hrun i (by omega)).2.owned (shape_of_run hrun i (by omega)).1 (hrun.next i hi)
  have hone : ∀ i < n, AwaitedOnce (direct pr) (σ i) := fun i hi =>
    (shape_of_run hrun i (by omega)).2.awaitedOnce
  obtain ⟨c, hc⟩ := Option.isSome_iff_exists.mp (shape_of_run hrun n (le_refl n)).2.root
  have hseen : Seen (σ 0) 0 := by
    rw [hrun.start]
    exact Or.inl List.mem_cons_self
  have hf : c.point = .final := Point.eq_final (final_of_returned hrun ho hone hret
    (begun_of_seen hrun ho (Nat.zero_le n) (le_refl n) hseen) hc)
  have hcall := call_of_owes hrun (le_refl n) (.final hc hf)
  refine ⟨c, hc, hf, fun o => ⟨fun h => hcall.unique h, ?_⟩⟩
  rintro rfl
  exact hcall

end Run

/-- A body that hands its local, plus one, to a child and catches what the
child throws, which after a sleep is what it was handed. -/
def rethrow : Program Bool ℕ ℕ where
  body
    | true => .tryCatch (.await false (· + 1) fun _ e => e)
        (fun x _ => match x with | .user v => v | _ => 0) (.ret some)
    | false => .seq (.sleep fun _ => ⟨5, 1, 1000⟩) (.throw .user)
  isVoid _ := false

/-- Its states when the sleep is due after the second look at the clock. -/
def rethrowRun : ℕ → Loop (Site Bool ℕ ℕ) Unit Empty Unit ℕ :=
  states coroWorld (direct rethrow) Empty.elim (boot false (.before (rethrow.body true) [] 1) () ())
    [.round 0, .resume, .exec 0, .exec 0, .exec 0, .round 0, .resume, .exec 0, .exec 0, .exec 0,
      .round 9000000, .resume, .round 9000000, .resume, .exec 0, .exec 0, .exec 0, .exec 0,
      .round 9000000, .resume, .exec 0, .exec 0, .exec 0, .exec 0]

theorem rethrowRun_isRun :
    IsRun (· = boot (rethrow.isVoid true) (.before (rethrow.body true) [] 1) () ())
      (Step coroWorld (direct rethrow)) rethrowRun 24 := by
  exact isRun_states (fun m => m.elim) rfl (by decide +kernel)

/-- The loop's run of `rethrow` tells what its direct-style call returns. -/
theorem run_eq_call_rethrow : Call rethrow true 1 (.ok (some 2)) := by
  obtain ⟨c, hc, -, h⟩ := run_eq_call rethrowRun_isRun
    ⟨⟨by decide +kernel, by decide +kernel⟩, by decide +kernel⟩
  have hget : ((rethrowRun 24).coros 0).map Coro.get = some (.ok (some 2)) := by decide +kernel
  rw [hc, Option.map_some, Option.some.injEq] at hget
  exact (h _).mpr hget.symm

end EfaExamples
