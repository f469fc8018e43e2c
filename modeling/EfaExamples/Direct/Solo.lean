import EfaExamples.Coro.Clock
import EfaExamples.Coro.Nested
import EfaExamples.Direct.Refinement
/-!
# One thing at a time

A direct-style program executes a body, or has one handle queued, or has
ended, but for the sleep just made that its body is about to await (`Solo`).
So what comes next is never in doubt, and unless `Run` has returned
something does (`exists_stepAt`), at whatever reading of the clock: no
operation of such a program is undefined.
-/

namespace EfaExamples

open Loop

variable {P E V : Type} {pr : Program P E V}
variable {s s' : Loop (Site P E V) Unit Empty Unit V} {h me : ℕ} {l : Site P E V}

/-- **One thing at a time.** -/
structure Solo (s : Loop (Site P E V) Unit Empty Unit V) : Prop where
  busy : ∀ me l, s.stack = [(me, l)] → s.left = 0 ∧ s.ready = [] ∧
    (s.schedule = [] ∨ ∃ t bind k e, s.schedule = [t] ∧ l = .made t.handle bind k e)
  idle : s.stack = [] →
    (s.schedule = [] ∧ (s.ready = [] ∧ s.left = 0 ∨ ∃ h, s.ready = [h] ∧ s.left ≤ 1)) ∨
      ∃ t, s.schedule = [t] ∧ s.ready = [] ∧ s.left = 0

namespace Solo

/-- A body executes. -/
theorem of_stack (hstack : s.stack = [(me, l)]) (hleft : s.left = 0) (hready : s.ready = [])
    (hsched : s.schedule = [] ∨ ∃ t bind k e, s.schedule = [t] ∧ l = .made t.handle bind k e) :
    Solo s where
  busy me' l' hstack' := by
    rw [hstack] at hstack'
    cases hstack'
    exact ⟨hleft, hready, hsched⟩
  idle hnil := by
    rw [hstack] at hnil
    cases hnil

/-- No body executes, and the timers are empty. -/
theorem of_ready (hstack : s.stack = []) (hsched : s.schedule = [])
    (hready : s.ready = [] ∧ s.left = 0 ∨ ∃ h, s.ready = [h] ∧ s.left ≤ 1) : Solo s where
  busy me' l' hstack' := by
    rw [hstack] at hstack'
    cases hstack'
  idle _ := Or.inl ⟨hsched, hready⟩

/-- No body executes, and one sleeps. -/
theorem of_timer {t : Task} (hstack : s.stack = []) (hsched : s.schedule = [t])
    (hready : s.ready = []) (hleft : s.left = 0) : Solo s where
  busy me' l' hstack' := by
    rw [hstack] at hstack'
    cases hstack'
  idle _ := Or.inr ⟨t, hsched, hready, hleft⟩

/-- The end of a body calls one handle at most. -/
theorem finish {o : Outcome V} (hstack : s.stack = []) (hsched : s.schedule = [])
    (hready : s.ready = []) (hleft : s.left = 0) (hf : s.finish h o = some s') : Solo s' := by
  obtain ⟨-, -, s₁, he, -, ⟨-, rfl⟩ | ⟨p, -, -, -, rfl⟩⟩ := finish_cases hf
  · exact of_ready (he.stack.trans hstack) (he.schedule.trans hsched)
      (Or.inl ⟨he.ready.trans hready, he.left.trans hleft⟩)
  · refine of_ready (he.stack.trans hstack) (he.schedule.trans hsched) (Or.inr ⟨p, ?_, ?_⟩)
    · show s₁.ready ++ [p] = [p]
      rw [he.ready, hready]
      rfl
    · show s₁.left ≤ 1
      rw [he.left, hleft]
      exact Nat.zero_le 1

/-- A body suspends on the child it has just made, which is scheduled unless it sleeps. -/
theorem suspend {d : ℕ} {bind : Option V → E → E} {k : List (Frame P E V)} {e : E}
    {cd : Coro (Site P E V) Empty V} (so : Solo s) (t : Table none s)
    (hstack : s.stack = [(me, .made d bind k e)]) (hd : s.coros d = some cd) :
    Solo (({ s with stack := [] } : Loop (Site P E V) Unit Empty Unit V).awaitSuspend me d
      fun o => .awaited d o bind k e) := by
  obtain ⟨hleft, hready, hsched⟩ := so.busy me _ hstack
  unfold awaitSuspend
  -- what `schedule` finds, which is the child with its waiter
  generalize hs₁ : Loop.modify d (fun c => { c with next := some me }) _ = s₁
  have hs₁' : s₁.stack = [] ∧ s₁.left = 0 ∧ s₁.ready = [] ∧ s₁.schedule = s.schedule := by
    rw [← hs₁]
    exact ⟨rfl, hleft, hready, rfl⟩
  obtain ⟨hstack₁, hleft₁, hready₁, hsched₁⟩ := hs₁'
  rcases hsched with hsched | ⟨tk, bind', k', e', htk, hl⟩
  · rw [hsched] at hsched₁
    unfold Handle.schedule
    split
    · split
      · refine of_ready hstack₁ hsched₁ (Or.inr ⟨d, ?_, ?_⟩)
        · rw [call_ready, hready₁]
          rfl
        · rw [call_left, hleft₁]
          exact Nat.zero_le 1
      · exact of_ready hstack₁ hsched₁ (Or.inl ⟨hready₁, hleft₁⟩)
    · exact of_ready hstack₁ hsched₁ (Or.inl ⟨hready₁, hleft₁⟩)
  · cases hl
    obtain ⟨c, hc, hsleep⟩ := t.timer tk (by rw [htk]; exact List.mem_singleton_self tk)
    obtain rfl := Option.some.inj (hd.symm.trans hc)
    have hst : cd.state = .kScheduled := by
      have hrow := t.row tk.handle cd hd (by simp)
      cases hp : cd.point with
      | sleep =>
        rw [hp] at hrow
        exact hrow.1
      | _ => rw [hp] at hsleep; cases hsleep
    have hne : tk.handle ≠ me := by
      rintro rfl
      obtain ⟨c', hc', hrun⟩ := (t.onStack tk.handle (by simp)).mp (by simp [running, hstack])
      obtain rfl := Option.some.inj (hd.symm.trans hc')
      rw [Point.eq_running hrun] at hsleep
      cases hsleep
    have hd₁ : s₁.coros tk.handle = some { cd with next := some me } := by
      rw [← hs₁, modify_coros_self, setPoint, modify_coros_of_ne hne, setState,
        modify_coros_of_ne hne]
      show (s.coros tk.handle).map _ = _
      rw [hd]
      rfl
    have hsame : Handle.schedule tk.handle s₁ = s₁ := by
      unfold Handle.schedule
      simp only [hd₁, hst]
      rfl
    rw [hsame]
    exact of_timer hstack₁ (hsched₁.trans htk) hready₁ hleft₁

/-- The operation of a body. -/
theorem exec {now : ℤ} (so : Solo s) (sh : Shape pr s) (t : Table none s)
    (hs : s.exec (direct pr) now = some s') : Solo s' := by
  rcases sh.single with hstack | ⟨me, l, hstack⟩
  · simp [Loop.exec, hstack] at hs
  · obtain ⟨hleft, hready, hsched⟩ := so.busy me l hstack
    -- only the child just made may sleep
    have hnil : (∀ d bind k e, l ≠ .made d bind k e) → s.schedule = [] := fun hl => by
      rcases hsched with hsched | ⟨t, bind, k, e, -, rfl⟩
      · exact hsched
      · exact absurd rfl (hl _ _ _ _)
    unfold Loop.exec at hs
    simp only [hstack] at hs
    cases siteOp pr l with
    | goto l' hop hl _ =>
      simp only [hop, goto, Option.some.injEq] at hs
      subst hs
      exact of_stack rfl hleft hready (Or.inl (hnil (by rintro d bind k e rfl; cases hl)))
    | sleep d k e =>
      simp only [direct, Option.some.injEq] at hs
      subst hs
      refine of_stack rfl hleft hready (Or.inr
        ⟨⟨deadline now (d e), s.seq⟩, fun _ e => e, k, e, ?_, rfl⟩)
      show Task.push _ s.schedule = _
      rw [hnil (by rintro d bind k e ⟨⟩)]
      rfl
    | call p arg bind k e =>
      simp only [direct, Option.some.injEq] at hs
      subst hs
      exact of_stack rfl hleft hready (Or.inl (hnil (by rintro d bind k e ⟨⟩)))
    | await d bind k e =>
      simp only [direct] at hs
      cases hd : s.coros d with
      | none => simp [hd] at hs
      | some cd =>
        simp only [hd] at hs
        split at hs
        · rename_i hf
          cases hs
          refine of_stack rfl hleft hready (Or.inl ?_)
          rcases hsched with hsched | ⟨tk, bind', k', e', htk, hl⟩
          · exact hsched
          · -- what has ended does not sleep
            cases hl
            obtain ⟨c, hc, hsleep⟩ := t.timer tk (by rw [htk]; exact List.mem_singleton_self tk)
            rw [hd] at hc
            cases hc
            rw [Point.eq_final hf] at hsleep
            cases hsleep
        · cases hs
          exact so.suspend t hstack hd
    | destroy d o bind k e =>
      simp only [direct] at hs
      split at hs
      · simp only [Option.some.injEq] at hs
        subst hs
        have he := erased_destroy s.seq d
          (Loop.dropLocal me d { s with stack := [(me, .after (.ofOutcome bind e o) k)] })
        exact of_stack he.stack (he.left.trans hleft) (he.ready.trans hready)
          (Or.inl (he.schedule.trans (hnil (by rintro d bind k e ⟨⟩))))
      · cases hs
    | ret r =>
      simp only [direct] at hs
      exact finish (s := { s with stack := [] }) rfl (hnil (by rintro d bind k e ⟨⟩)) hready hleft hs

/-- `Runone` runs the one handle there is. -/
theorem resume (so : Solo s) (hstack : s.stack = []) (hs : s.resume coroWorld = some s') :
    Solo s' := by
  obtain ⟨h, n, q, c, hn, hready, hc, hit⟩ := iteration_of_resume hs
  obtain ⟨rfl, rfl, hsched⟩ : n = 0 ∧ q = [] ∧ s.schedule = [] := by
    rcases so.idle hstack with ⟨hsched, ⟨hnil, -⟩ | ⟨h', hone, hleft⟩⟩ | ⟨-, -, hnil, -⟩
    · rw [hready] at hnil
      cases hnil
    · rw [hready] at hone
      cases hone
      exact ⟨by omega, rfl, hsched⟩
    · rw [hready] at hnil
      cases hnil
  cases hit with
  | initial l _ he | await d k cd _ _ he =>
    subst he
    exact of_stack rfl rfl rfl (Or.inl hsched)
  | sleep _ hf => exact finish (s := s.popped h 0 []) hstack hsched rfl rfl hf
  | refused a | failed a | posted a | io a => exact a.elim

/-- `Run` goes round: the sleeper, if there is one, is due or stays. -/
theorem round (so : Solo s) (hs : RoundStep coroWorld s s') : Solo s' := by
  cases hs with
  | @mk s₁ now events x hhead _ hpoll hcall =>
    simp only [coroWorld, Prod.mk.injEq, Except.ok.injEq] at hpoll
    rw [← hpoll.1, callAll, Option.some.injEq] at hcall
    subst hcall
    rcases so.idle hhead.1 with ⟨hsched, hready⟩ | ⟨tk, hsched, hready, -⟩
    · have hdrain : Task.drain (time now) s.schedule s.ready = ([], s.ready) := by
        rw [hsched]
        rfl
      refine of_ready hhead.1 (congrArg Prod.fst hdrain) ?_
      show (Task.drain _ _ _).2 = [] ∧ (Task.drain _ _ _).2.length = 0 ∨
        ∃ h, (Task.drain _ _ _).2 = [h] ∧ (Task.drain _ _ _).2.length ≤ 1
      rw [hdrain]
      rcases hready with ⟨hready, -⟩ | ⟨h, hready, -⟩
      · exact Or.inl ⟨hready, by rw [hready]; rfl⟩
      · exact Or.inr ⟨h, hready, by rw [hready]; rfl⟩
    · by_cases hdue : tk.when > time now
      · have hdrain : Task.drain (time now) s.schedule s.ready = ([tk], []) := by
          rw [hsched, hready]
          exact if_pos hdue
        exact of_timer hhead.1 (congrArg Prod.fst hdrain) (congrArg Prod.snd hdrain)
          (congrArg (fun q => q.2.length) hdrain)
      · have hdrain : Task.drain (time now) s.schedule s.ready = ([], [tk.handle]) := by
          rw [hsched, hready]
          exact if_neg hdue
        exact of_ready hhead.1 (congrArg Prod.fst hdrain)
          (Or.inr ⟨tk.handle, congrArg Prod.snd hdrain, (congrArg (fun q => q.2.length) hdrain).le⟩)

/-- When no body executes, who is queued is alone. -/
theorem queued_eq (so : Solo s) (hstack : s.stack = []) (hh : h ∈ s.queued) : s.queued = [h] := by
  have hone : ∀ {x}, s.queued = [x] → s.queued = [h] := fun hx => by
    rw [hx, List.mem_singleton] at hh
    rw [hx, hh]
  rcases so.idle hstack with ⟨hsched, ⟨hready, -⟩ | ⟨x, hready, -⟩⟩ | ⟨t, hsched, hready, -⟩
  · simp [queued, hsched, hready] at hh
  · exact hone (x := x) (by simp [queued, hsched, hready])
  · exact hone (x := t.handle) (by simp [queued, hsched, hready])

theorem step (so : Solo s) (sh : Shape pr s) (t : Table none s)
    (hs : Step coroWorld (direct pr) s s') : Solo s' := by
  cases hs with
  | exec now hs => exact so.exec sh t hs
  | resume hstack hs => exact so.resume hstack hs
  | round hs => exact so.round hs
  | env hs => exact hs.elim

theorem boot (isVoid : Bool) (l : Site P E V) :
    Solo (Loop.boot isVoid l () () : Loop (Site P E V) Unit Empty Unit V) := by
  rw [boot_eq]
  exact of_ready rfl rfl (Or.inr ⟨0, rfl, Nat.zero_le 1⟩)

end Solo

/-! ## What is known of a state -/

/-- **A state of a direct-style program's run**: all that the scheduler's theorems, the shape and
the forest say of it. -/
structure Reached (pr : Program P E V) (s : Loop (Site P E V) Unit Empty Unit V) : Prop where
  table : Table none s
  shape : Shape pr s
  waits : Waits s
  solo : Solo s
  frames : Frames s
  owned : ∃ large, s.forest.Owned large []

theorem Reached.boot (isVoid : Bool) (p : P) (e : E) :
    Reached pr (Loop.boot isVoid (.before (pr.body p) [] e) () ()) := by
  have hrun : IsRun (· = Loop.boot isVoid (.before (pr.body p) [] e) () ())
      (Step coroWorld (direct pr)) (fun _ => Loop.boot isVoid (.before (pr.body p) [] e) () ()) 0 :=
    ⟨rfl, fun i hi => by omega⟩
  exact ⟨Table.boot _ _ _ _, Shape.boot _ p e,
    (waits_of_run hrun (fun i hi => by omega) (fun i hi => by omega) 0 le_rfl).2, Solo.boot _ _,
    Frames.boot _ _ _ _, _, owned_boot _ _ _ _⟩

theorem Reached.step (r : Reached pr s) (hs : Step coroWorld (direct pr) s s') :
    Reached pr s' := by
  have ho := r.shape.owned r.table hs
  obtain ⟨large, howned⟩ := r.owned
  exact ⟨r.table.step hs (ho.stepOk r.table), r.shape.step r.table hs,
    r.waits.step_of_owned r.table hs ho r.shape.awaitedOnce, r.solo.step r.shape r.table hs,
    hs.frames r.frames, _, (hs.nests r.frames).owned r.frames howned⟩

/-! ## Something comes next -/

namespace Reached

variable {c : Coro (Site P E V) Empty V} {d : ℕ} {o : Outcome V}

/-- What a coroutine waits for is there: its frame holds it. -/
theorem exists_of_await (r : Reached pr s) {k : Outcome V → Site P E V} (hc : s.coros h = some c)
    (hp : c.point = .await d k) : ∃ cd, s.coros d = some cd := by
  obtain ⟨large, howned⟩ := r.owned
  have hlocals := r.shape.idle h c hc (by rw [hp]; rfl)
  rw [hp] at hlocals
  obtain ⟨od, hd, -⟩ := howned.maker h c.owner (by rw [forest, hc]; rfl) d (by
    show d ∈ c.locals
    rw [hlocals]
    exact List.mem_singleton_self d)
  obtain ⟨cd, hcd, -⟩ := Option.map_eq_some_iff.mp hd
  exact ⟨cd, hcd⟩

/-- The end of a body that holds nothing calls one that is there. -/
theorem exists_finish (hc : s.coros h = some c) (hlocals : c.locals = [])
    (hnext : ∀ p, c.next = some p → (s.coros p).isSome = true) :
    ∃ s', s.finish h o = some s' := by
  unfold Loop.finish
  simp only [hc, hlocals, destroyLocals, List.foldl_nil, finalSuspend, modify_coros_self,
    Option.map_some]
  cases hn : c.next with
  | none => exact ⟨_, rfl⟩
  | some p =>
    have hp := hnext p hn
    simp only [modify_coros_isSome, hp, if_true]
    exact ⟨_, rfl⟩

/-- Who is to be called at the end is there. -/
theorem next_isSome (r : Reached pr s) (hc : s.coros h = some c) (hf : c.point.isFinal = false) :
    ∀ p, c.next = some p → (s.coros p).isSome = true := fun p hn => by
  obtain ⟨cp, hcp, -⟩ := r.table.next h c p hc hf hn
  rw [hcp]
  rfl

/-- **The executing body can perform its operation.** -/
theorem exists_exec (r : Reached pr s) (hstack : s.stack = [(me, l)]) (now : ℤ) :
    ∃ s', s.exec (direct pr) now = some s' := by
  obtain ⟨c, hc, hrun⟩ := (r.table.onStack me (by simp)).mp (by simp [running, hstack])
  have hlocals := r.shape.busy me l c hstack hc
  unfold Loop.exec
  simp only [hstack]
  cases siteOp pr l with
  | goto l' hop _ _ =>
    simp only [hop, goto]
    exact ⟨_, rfl⟩
  | sleep | call => exact ⟨_, rfl⟩
  | await d bind k e =>
    obtain ⟨cd, hcd, -⟩ := r.shape.made me d bind k e hstack
    simp only [direct, hcd]
    split
    · exact ⟨_, rfl⟩
    · exact ⟨_, rfl⟩
  | destroy d o bind k e =>
    have hholds : s.holds me d = true := by
      simp only [holds, hc, hlocals, Site.child, Option.toList_some, List.mem_singleton,
        decide_true]
    simp only [direct, hholds, if_true]
    exact ⟨_, rfl⟩
  | ret rf =>
    simp only [direct]
    refine exists_finish (s := { s with stack := [] }) hc (by rw [hlocals]; rfl) ?_
    exact r.next_isSome hc (by rw [Point.eq_running hrun]; rfl)

/-- **`Runone` can run the front of `ready_`.** -/
theorem exists_resume (r : Reached pr s) (hready : s.ready = [h]) (hleft : s.left = 1) :
    ∃ s', s.resume coroWorld = some s' := by
  obtain ⟨c, hc⟩ := r.table.exists_of_mem_queued (h := h) (by simp [queued, hready])
  have hself : (s.popped h 0 []).coros h = some { c with state := .kUnschedule } :=
    popped_coros_self hc
  have hzero := (r.table.row h c hc (by simp)).count_eq_zero_of_point
  have hone : s.queued.count h ≠ 0 :=
    List.count_pos_iff.mpr (by simp [queued, hready]) |>.ne'
  unfold Loop.resume
  simp only [hleft, hready]
  rw [← popped, Loop.run, hself]
  cases hp : c.point with
  | initial l => exact ⟨_, rfl⟩
  | initialIo a | io a => exact a.elim
  | running => exact absurd (hzero (Or.inr (by rw [hp]; rfl))) hone
  | final => exact absurd (hzero (Or.inl (by rw [hp]; rfl))) hone
  | await d k =>
    obtain ⟨cd, hcd⟩ := r.exists_of_await hc hp
    have hd : ((s.popped h 0 []).coros d).isSome = true := by
      rw [popped, setState, modify_coros_isSome]
      show (s.coros d).isSome = true
      rw [hcd]
      rfl
    obtain ⟨cd', hcd'⟩ := Option.isSome_iff_exists.mp hd
    simp only [hcd']
    exact ⟨_, rfl⟩
  | sleep =>
    simp only
    refine exists_finish hself ?_ fun p hn => ?_
    · exact (r.shape.idle h c hc (by rw [hp]; rfl)).trans (by rw [hp]; rfl)
    · rw [popped, setState, modify_coros_isSome]
      exact r.next_isSome hc (by rw [hp]; rfl) p hn

/-- **Unless `Run` has returned there is a step**, at any reading of the clock. -/
theorem exists_stepAt (r : Reached pr s) (hret : ¬ Returned coroWorld s) (now : ℤ) :
    ∃ moved s', StepAt coroWorld (direct pr) now moved s s' := by
  rcases r.shape.single with hstack | ⟨me, l, hstack⟩
  · have hround : s.left = 0 → ∃ moved s', StepAt coroWorld (direct pr) now moved s s' :=
      fun hleft => by
        have hhead : s.AtHead := ⟨hstack, hleft⟩
        have hstop : s.stopped coroWorld = false := by
          by_contra hstop
          exact hret ⟨hhead, by simpa using hstop⟩
        exact ⟨_, _, .round ⟨hhead, hstop, rfl, rfl⟩⟩
    rcases r.solo.idle hstack with ⟨-, ⟨-, hleft⟩ | ⟨h, hready, hle⟩⟩ | ⟨-, -, -, hleft⟩
    · exact hround hleft
    · rcases Nat.le_one_iff_eq_zero_or_eq_one.mp hle with hleft | hleft
      · exact hround hleft
      · obtain ⟨s', hs⟩ := r.exists_resume hready hleft
        exact ⟨_, _, .resume hstack hs⟩
    · exact hround hleft
  · obtain ⟨s', hs⟩ := r.exists_exec hstack now
    exact ⟨_, _, .exec hs⟩

end Reached

end EfaExamples
