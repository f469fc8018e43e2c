import EfaExamples.Coro.Rows
/-!
# What a step does to the world

The coroutines that wait for the fabric, and the world they wait for, change
together: the front of `ready_` posts or takes its result, a `Select` gives
events, and no other step touches either. `WorldStep` is the list, and
`Step.worldStep` says that it is complete.
-/

namespace EfaExamples

open Loop

variable {Loc G A X V : Type} {w : World A X V} {code : Loc → Op Loc G A V}
variable {s s' s₁ : Loop Loc G A X V} {h : ℕ} {c c' : Coro Loc A V}

/-- The operation a coroutine suspended in one waits for. -/
def Point.op : Point Loc A V → Option A
  | io a => some a
  | _ => none

/-- The operation a coroutine waits for, with its state. -/
def Coro.op (c : Coro Loc A V) : Option (A × HandleState) := c.point.op.map (·, c.state)

/-- The operation the coroutine of a handle waits for, with its state. -/
def Loop.op (s : Loop Loc G A X V) (h : ℕ) : Option (A × HandleState) := (s.coros h).bind Coro.op

theorem Loop.op_of_coros (hc : s.coros h = some c) : s.op h = c.op := by
  rw [Loop.op, hc]
  rfl

theorem Loop.op_of_gone (hc : s.coros h = none) : s.op h = none := by
  rw [Loop.op, hc]
  rfl

theorem Coro.op_eq_some {a : A} {st : HandleState} :
    c.op = some (a, st) ↔ c.point = .io a ∧ c.state = st := by
  cases hp : c.point <;> simp [Coro.op, Point.op, hp]

theorem Loop.op_eq_some {a : A} {st : HandleState} :
    s.op h = some (a, st) ↔ ∃ c, s.coros h = some c ∧ c.point = .io a ∧ c.state = st := by
  rw [Loop.op, Option.bind_eq_some_iff]
  simp only [Coro.op_eq_some]

/-- **What the front of `ready_` does to the world.** -/
inductive FrontStep (w : World A X V) (s s' : Loop Loc G A X V) (h : ℕ) (c : Coro Loc A V) : Prop
  /-- nothing, as it is in no operation -/
  | idle : c.point.op = none → (∀ a, c.point ≠ .initialIo a) → s'.world = s.world →
      s'.op h = none → FrontStep w s s' h c
  /-- its operation does not take the arguments -/
  | refused (a : A) (e : Exn V) : c.point = .initialIo a → w.enter a s.world = .error e →
      s'.world = s.world → s'.op h = none → FrontStep w s s' h c
  /-- its post fails -/
  | failed (a : A) (e : Exn V) (x : X) : c.point = .initialIo a → w.enter a s.world = .ok x →
      w.post a h x = (some e, s'.world) → s'.op h = none → FrontStep w s s' h c
  /-- it posts -/
  | posted (a : A) (x : X) : c.point = .initialIo a → w.enter a s.world = .ok x →
      w.post a h x = (none, s'.world) → s'.op h = some (a, .kSuspend) → FrontStep w s s' h c
  /-- it takes its result -/
  | ended (a : A) : c.point = .io a → s'.world = (w.resume a h s.world).2 → s'.op h = none →
      FrontStep w s s' h c

/-- **What a step does to the world and to the coroutines that wait for it.** -/
inductive WorldStep (w : World A X V) (s s' : Loop Loc G A X V) : Prop
  /-- a body executes: nothing -/
  | exec (r : List ℕ) : s.stack ≠ [] → s'.world = s.world → s'.left = s.left →
      s'.ready = s.ready ++ r → (∀ i, s'.coros i = none ∨ s'.op i = s.op i) → WorldStep w s s'
  /-- `Runone` runs the front of `ready_` -/
  | front (h : ℕ) (c : Coro Loc A V) (q r : List ℕ) : s.stack = [] → s.left = s'.left + 1 →
      s.ready = h :: q → s.coros h = some c → s'.ready = q ++ r → FrontStep w s s' h c →
      (∀ i ≠ h, s'.coros i = none ∨ s'.op i = s.op i) → WorldStep w s s'
  /-- `Select` returns events -/
  | round (events due : List ℕ) : s.AtHead → w.poll s.world = (.ok events, s'.world) →
      s'.ready = s.ready ++ events ++ due → s'.left = s'.ready.length →
      (∀ i, (s'.coros i).isSome = (s.coros i).isSome) →
      (∀ i, s'.op i = if i ∈ events then (s.op i).map fun p => (p.1, .kScheduled) else s.op i) →
      WorldStep w s s'
  /-- the world moves -/
  | env : w.env s.world s'.world → s' = { s with world := s'.world } → WorldStep w s s'

/-! ## The rows of waiting coroutines -/

/-- A coroutine in an operation is suspended or scheduled, and not executing. -/
theorem Table.state_of_op (t : Table none s) (hc : s.coros h = some c) {a : A}
    (hp : c.point = .io a) : c.state ≠ .kUnschedule ∧ h ∉ s.running := by
  have hrow := t.row h c hc (by simp)
  rw [hp] at hrow
  refine ⟨by rcases hrow with ⟨hst, -⟩ | ⟨hst, -⟩ <;> rw [hst] <;> decide, fun hm => ?_⟩
  obtain ⟨c', hc', hr⟩ := (t.onStack h (by simp)).mp hm
  rw [hc] at hc'
  cases hc'
  rw [hp] at hr
  cases hr

/-- **How one of the connection's coroutines comes to be done**: it was, its operation threw when
`Runone` started it, or it takes its result. -/
theorem RowStep.leaf_done {a : A} (hr : RowStep w code s s' h c c') (t : Table none s)
    (hc : s.coros h = some c)
    (hpoint : c.point = .initialIo a ∨ c.point = .io a ∨ c.point = .final)
    (hf : c'.point.isFinal = true) :
    c.point = .final ∧ c.get = c'.get ∨
      (c.point = .initialIo a ∧ w.Throws a h s.world ∧ ∃ e, c'.get = .error e) ∨
      s.op h = some (a, .kScheduled) ∧ c'.get = (w.resume a h s.world).1 := by
  cases hr.pointStep with
  | kept hp _ hget =>
    rw [hp] at hf
    exact Or.inl ⟨Point.eq_final hf, hget.symm⟩
  | suspended _ _ _ _ _ _ _ hp | resumed _ _ _ _ _ _ hp | posted _ _ _ _ _ hp =>
    rw [hp] at hf
    cases hf
  | ended o hends _ hres =>
    have hget : c'.get = o := by rw [Coro.get, hres]
    rw [hget]
    cases hends with
    | ret l rest hstack _ =>
      -- a body, which is none of the connection's
      obtain ⟨c₀, hc₀, hrun⟩ := (t.onStack h (by simp)).mp (by simp [running, hstack])
      rw [hc, Option.some.injEq] at hc₀
      rw [← hc₀] at hrun
      rcases hpoint with hp | hp | hp <;> rw [hp] at hrun <;> cases hrun
    | sleep q _ _ hp _ => rcases hpoint with hp' | hp' | hp' <;> rw [hp] at hp' <;> cases hp'
    | enterIo q b _ _ hp herr hthrow =>
      obtain rfl : b = a := by
        rcases hpoint with hp' | hp' | hp' <;> rw [hp] at hp' <;> cases hp'
        rfl
      exact Or.inr (Or.inl ⟨hp, hthrow, herr⟩)
    | io q b _ hready hp hval =>
      obtain rfl : b = a := by
        rcases hpoint with hp' | hp' | hp' <;> rw [hp] at hp' <;> cases hp'
        rfl
      refine Or.inr (Or.inr ⟨?_, hval⟩)
      rw [op_of_coros hc, Coro.op_eq_some]
      exact ⟨hp, (t.of_mem_queued hc (by simp [queued, hready])).1⟩

/-- A row changes its operation only at the front of `ready_` or by an event. -/
theorem RowStep.op_cases (hr : RowStep w code s s' h c c') (t : Table none s)
    (hc : s.coros h = some c) :
    c'.op = c.op ∨ s.stack = [] ∧ (∃ q, s.ready = h :: q) ∨
      ∃ events x, s.AtHead ∧ w.poll s.world = (.ok events, x) ∧ h ∈ events ∧
        c' = { c with state := .kScheduled } := by
  have hop : c.state = .kUnschedule ∨ h ∈ s.running → c.point.op = none := by
    intro hb
    cases hp : c.point with
    | io a => exact absurd hb (not_or.mpr (t.state_of_op hc hp))
    | _ => rfl
  cases hr with
  | still hc' => exact Or.inl (by rw [hc'])
  | owns l ls _ hc' => exact Or.inl (by rw [hc']; rfl)
  | scheduled hst _ hc' =>
    rw [hc']
    exact Or.inl (by simp [Coro.op, hop (Or.inl hst)])
  | awaited me l rest k _ _ _ _ hc' =>
    rw [hc']
    left
    by_cases hst : c.state = .kUnschedule
    · simp [Coro.op, hop (Or.inl hst)]
    · simp [Coro.op, hst]
  | suspended l rest d k hstack _ _ hc' =>
    left
    rw [hc', Coro.op, Coro.op, hop (Or.inr (by simp [running, hstack]))]
    rfl
  | ended o st hends hc' _ =>
    cases hends with
    | ret l rest hstack _ =>
      left
      rw [hc', Coro.op, Coro.op, hop (Or.inr (by simp [running, hstack]))]
      rfl
    | sleep q hstack hready _ _ => exact Or.inr (Or.inl ⟨hstack, q, hready⟩)
    | enterIo q a hstack hready _ _ => exact Or.inr (Or.inl ⟨hstack, q, hready⟩)
    | io q a hstack hready _ => exact Or.inr (Or.inl ⟨hstack, q, hready⟩)
  | called i ci hci hf hn hc' =>
    rw [hc']
    left
    obtain ⟨cp, hcp, haw, -⟩ := t.next i ci h hci hf hn
    rw [hc] at hcp
    cases hcp
    obtain ⟨k, hp⟩ := Point.eq_await haw
    simp [Coro.op, Point.op, hp]
  | resumed q l hstack hready _ _ _ => exact Or.inr (Or.inl ⟨hstack, q, hready⟩)
  | posted q a hstack hready _ _ => exact Or.inr (Or.inl ⟨hstack, q, hready⟩)
  | event events x hhead hpoll hm hc' => exact Or.inr (Or.inr ⟨events, x, hhead, hpoll, hm, hc'⟩)

/-- Every other coroutine goes on waiting as it did, or is gone. -/
theorem Loop.Step.op_kept (t : Table none s) (hs : Step w code s s')
    (hawait : ∀ me l rest h k, s.stack = (me, l) :: rest → code l = .await h k → h ∉ s.running)
    (hhead : ¬ s.AtHead) (hfront : s.stack = [] → ∀ q, s.ready ≠ h :: q) :
    s'.coros h = none ∨ s'.op h = s.op h := by
  cases hc : s.coros h with
  | none =>
    cases hc' : s'.coros h with
    | none => exact Or.inl rfl
    | some c' =>
      right
      obtain ⟨-, me, l, rest, p, isVoid, st, -, -, hp, ls, rfl⟩ := hs.fresh_row hc hc'
      rw [op_of_coros hc', op_of_gone hc]
      rcases hp with ⟨hp, -⟩ | ⟨hp, -⟩ | ⟨hp, -⟩ <;>
        cases p <;> first | rfl | cases hp
  | some c =>
    refine (hs.rowStep t hawait hc).imp id ?_
    rintro ⟨c', hc', hr⟩
    rw [op_of_coros hc', op_of_coros hc]
    rcases hr.op_cases t hc with hop | ⟨hstack, q, hready⟩ | ⟨_, _, hat, -⟩
    · exact hop
    · exact absurd hready (hfront hstack q)
    · exact absurd hat hhead

/-! ## The queue and the world, operation by operation -/

namespace Loop

/-- An operation appends to `ready_`, and leaves the world and `Runone`'s count. -/
structure Appends (s s' : Loop Loc G A X V) : Prop where
  world : s'.world = s.world
  left : s'.left = s.left
  ready : ∃ r, s'.ready = s.ready ++ r

theorem Appends.of_eq (hw : s'.world = s.world) (hl : s'.left = s.left)
    (hr : s'.ready = s.ready) : Appends s s' := ⟨hw, hl, [], by rw [hr, List.append_nil]⟩

theorem schedule_appends (d : ℕ) (s : Loop Loc G A X V) : Appends s (Handle.schedule d s) := by
  unfold Handle.schedule
  split
  · split
    · exact ⟨rfl, rfl, [d], rfl⟩
    · exact .of_eq rfl rfl rfl
  · exact .of_eq rfl rfl rfl

theorem finish_appends {o : Outcome V} (hf : s.finish h o = some s') : Appends s s' := by
  obtain ⟨c, -, s₁, he, -, ⟨-, rfl⟩ | ⟨p, cp, -, -, rfl⟩⟩ := finish_cases hf
  · exact .of_eq he.world he.left he.ready
  · exact ⟨he.world, he.left, [p], by rw [call_ready, modify_ready, he.ready]⟩

theorem callAll_fields : ∀ {events : List ℕ} {s : Loop Loc G A X V},
    s.callAll events = some s' →
    s'.world = s.world ∧ s'.ready = s.ready ++ events ∧ s'.schedule = s.schedule := by
  intro events
  induction events with
  | nil =>
    intro s hs
    rw [callAll, Option.some.injEq] at hs
    rw [← hs]
    exact ⟨rfl, by simp, rfl⟩
  | cons e events ih =>
    intro s hs
    rw [callAll] at hs
    split at hs
    · obtain ⟨hw, hr, hsch⟩ := ih hs
      exact ⟨hw, by rw [hr]; simp, hsch⟩
    · cases hs

theorem exec_appends {now : ℤ} (hs : s.exec code now = some s') : Appends s s' := by
  obtain ⟨me, l, rest, -, hop⟩ := operation_of_exec hs
  cases hop with
  | step f _ he | keep d k c _ _ _ _ he | got d k c _ _ _ he | done d k c _ _ he
  | release d k _ _ he | spawn c sched inner l' _ he =>
    subst he
    exact .of_eq rfl rfl rfl
  | future d k c _ _ _ _ he =>
    subst he
    obtain ⟨hw, hl, r, hr⟩ := schedule_appends d s
    exact ⟨hw, hl, r, hr⟩
  | suspend d k c _ _ _ he =>
    subst he
    obtain ⟨hw, hl, r, hr⟩ := schedule_appends d
      ((({ s with stack := rest } : Loop Loc G A X V).setState .kSuspend me).setPoint
        (.await d k) me |>.modify d fun c => { c with next := some me })
    exact ⟨hw, hl, r, hr⟩
  | destroy d k _ _ he =>
    subst he
    have he := erased_destroy s.seq d
      (dropLocal me d ({ s with stack := (me, k) :: rest } : Loop Loc G A X V))
    exact .of_eq he.world he.left he.ready
  | ret o _ hf =>
    obtain ⟨hw, hl, r, hr⟩ := finish_appends hf
    exact ⟨hw, hl, r, hr⟩

end Loop

/-! ## The list is complete -/

/-- A body that has ended waits for nothing. -/
theorem finish_op {o : Outcome V} (hf : s.finish h o = some s') : s'.op h = none := by
  obtain ⟨c, hc, -⟩ := finish_cases hf
  rcases finish_row hf hc with hg | ⟨c', hc', ⟨hne, -⟩ | ⟨-, ⟨st, rfl⟩, -⟩ | ⟨hne, -⟩⟩
  · exact op_of_gone hg
  · exact absurd rfl hne
  · rw [op_of_coros hc']
    rfl
  · exact absurd rfl hne

/-- The front of `ready_`. -/
theorem Loop.frontStep (hs : s.resume w = some s') :
    ∃ h c q r, s.left = s'.left + 1 ∧ s.ready = h :: q ∧ s.coros h = some c ∧
      s'.ready = q ++ r ∧ FrontStep w s s' h c := by
  obtain ⟨h, n, q, c, hleft, hready, hc, hit⟩ := iteration_of_resume hs
  have hself := popped_coros_self (n := n) (q := q) hc
  have hend : ∀ {o : Outcome V} {s₂ : Loop Loc G A X V}, s₂.ready = q → s₂.left = n →
      Loop.finish h o s₂ = some s' → s'.world = s₂.world ∧ s'.op h = none ∧
        s.left = s'.left + 1 ∧ ∃ r, s'.ready = q ++ r := by
    intro o s₂ hq hn hf
    obtain ⟨hw, hl, r, hr⟩ := finish_appends hf
    exact ⟨hw, finish_op hf, by rw [hl, hn, hleft], r, by rw [hr, hq]⟩
  have hstart : ∀ {l}, s' = { (s.popped h n q).setPoint .running h with stack := [(h, l)] } →
      s'.world = s.world ∧ s'.op h = none ∧ s.left = s'.left + 1 ∧ s'.ready = q ++ [] := by
    rintro l rfl
    refine ⟨rfl, ?_, hleft, (List.append_nil q).symm⟩
    rw [op_of_coros (c := { c with state := .kUnschedule, point := .running })
      (by rw [setPoint, modify_coros_self, hself]; rfl)]
    rfl
  refine ⟨h, c, q, ?_⟩
  cases hit with
  | initial l hp he =>
    obtain ⟨hw, ho, hl, hr⟩ := hstart he
    exact ⟨[], hl, hready, hc, hr, .idle (by rw [hp]; rfl) (by simp [hp]) hw ho⟩
  | await d k cd hp _ he =>
    obtain ⟨hw, ho, hl, hr⟩ := hstart he
    exact ⟨[], hl, hready, hc, hr, .idle (by rw [hp]; rfl) (by simp [hp]) hw ho⟩
  | refused a e hp henter hf =>
    obtain ⟨hw, ho, hl, r, hr⟩ := hend rfl rfl hf
    exact ⟨r, hl, hready, hc, hr, .refused a e hp henter hw ho⟩
  | failed a e x x' hp henter hpost hf =>
    obtain ⟨hw, ho, hl, r, hr⟩ := hend rfl rfl hf
    exact ⟨r, hl, hready, hc, hr, .failed a e x hp henter (by rw [hw]; exact hpost) ho⟩
  | posted a x x' hp henter hpost he =>
    subst he
    refine ⟨[], hleft, hready, hc, (List.append_nil q).symm, .posted a x hp henter hpost ?_⟩
    rw [op_of_coros (c := { c with point := .io a, state := .kSuspend }) (by
      rw [setPoint, setState, modify_coros_self, modify_coros_self,
        show Loop.coros { s.popped h n q with world := x' } h = _ from hself]
      rfl)]
    rfl
  | sleep hp hf =>
    obtain ⟨hw, ho, hl, r, hr⟩ := hend rfl rfl hf
    exact ⟨r, hl, hready, hc, hr, .idle (by rw [hp]; rfl) (by simp [hp]) hw ho⟩
  | io a hp hf =>
    obtain ⟨hw, ho, hl, r, hr⟩ := hend rfl rfl hf
    exact ⟨r, hl, hready, hc, hr, .ended a hp hw ho⟩

/-- **A `Select` and the timers**: the events are called, and nobody else is touched. -/
theorem Loop.RoundStep.world (hr : RoundStep w s s') :
    ∃ events due, s.AtHead ∧ w.poll s.world = (.ok events, s'.world) ∧
      s'.ready = s.ready ++ events ++ due ∧ (∀ h ∈ due, h ∈ s.schedule.map Task.handle) ∧
      s'.left = s'.ready.length ∧
      (∀ i, (s'.coros i).isSome = (s.coros i).isSome) ∧
      ∀ i, s'.op i = if i ∈ events then (s.op i).map fun p => (p.1, .kScheduled) else s.op i := by
  obtain @⟨s₁, now, events, x, hhead, hstop, hpoll, hcall⟩ := hr
  obtain ⟨hw, hr, hsch⟩ := callAll_fields hcall
  obtain ⟨due, hsub, hdue⟩ := Task.drain_eq_append (time now) s₁.schedule s₁.ready
  have hgone : ∀ i, s.coros i = none → (s₁.runone now).coros i = none :=
    fun i hi => (callAll_gone hcall hi :)
  have hrow : ∀ i c, s.coros i = some c → (s₁.runone now).coros i =
      some (if i ∈ events then { c with state := .kScheduled } else c) :=
    fun i c hi => (callAll_row hcall hi :)
  refine ⟨events, due.map Task.handle, hhead, ?_, ?_, fun i hi => ?_, rfl, fun i => ?_, fun i => ?_⟩
  · show w.poll s.world = (.ok events, s₁.world)
    rw [hw]
    exact hpoll
  · show (Task.drain (time now) s₁.schedule s₁.ready).2 = _
    rw [hdue, hr]
  · obtain ⟨tk, htk, rfl⟩ := List.mem_map.mp hi
    rw [← show s₁.schedule = s.schedule from hsch]
    exact List.mem_map_of_mem (hsub tk htk)
  · cases hi : s.coros i with
    | none => rw [hgone i hi]
    | some c => rw [hrow i c hi]; rfl
  · cases hi : s.coros i with
    | none =>
      rw [op_of_gone (hgone i hi), op_of_gone hi]
      simp
    | some c =>
      rw [op_of_coros (hrow i c hi), op_of_coros hi]
      split
      · cases hp : c.point <;> simp [Coro.op, Point.op, hp]
      · rfl

/-- **The list of `WorldStep` is complete.** -/
theorem Loop.Step.worldStep (t : Table none s) (hs : Step w code s s')
    (hawait : ∀ me l rest h k, s.stack = (me, l) :: rest → code l = .await h k →
      h ∉ s.running) : WorldStep w s s' := by
  have hkept := fun i => hs.op_kept (h := i) t hawait
  cases hs with
  | exec now hs =>
    have hstack : s.stack ≠ [] := by
      intro hstack
      simp [Loop.exec, hstack] at hs
    obtain ⟨hw, hl, r, hr⟩ := exec_appends hs
    exact .exec r hstack hw hl hr fun i => hkept i (fun hat => hstack hat.1)
      fun hn => absurd hn hstack
  | resume hstack hs =>
    obtain ⟨h, c, q, r, hleft, hready, hc, hr, hfront⟩ := Loop.frontStep hs
    refine .front h c q r hstack hleft hready hc hr hfront fun i hi => hkept i ?_ ?_
    · intro hat
      rw [hat.2] at hleft
      omega
    · intro _ q' hq'
      rw [hready] at hq'
      cases hq'
      exact hi rfl
  | round hs =>
    obtain ⟨events, due, hhead, hpoll, hr, -, hl, hsome, hop⟩ := hs.world
    exact .round events due hhead hpoll hr hl hsome hop
  | env hs => exact .env hs rfl

end EfaExamples
