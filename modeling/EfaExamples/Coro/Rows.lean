import EfaExamples.Coro.TableStep
/-!
# What a step does to a coroutine

`RowStep` lists everything one step of the loop can do to one coroutine that
it does not destroy, and `Step.rowStep` says the list is complete. The
invariants of the later files are each a case analysis over the list, and
unfold no operation.
-/

namespace EfaExamples

open Loop

variable {Loc G A X V : Type} {w : World A X V} {code : Loc → Op Loc G A V}
variable {s s' s₁ : Loop Loc G A X V} {h : ℕ} {c c' : Coro Loc A V}

/-- `enter` or `post` throws. -/
def World.Throws (w : World A X V) (a : A) (h : ℕ) (x : X) : Prop :=
  (∃ e, w.enter a x = .error e) ∨ ∃ y e z, w.enter a x = .ok y ∧ w.post a h y = (some e, z)

/-- How the body of `h` came to its end: by itself, or as the front of
`ready_` where the end follows without another operation. -/
inductive Ends (w : World A X V) (code : Loc → Op Loc G A V) (s : Loop Loc G A X V) (h : ℕ)
    (c : Coro Loc A V) (o : Outcome V) : Prop
  | ret (l : Loc) (rest : List (ℕ × Loc)) : s.stack = (h, l) :: rest → code l = .ret o →
      Ends w code s h c o
  | sleep (q : List ℕ) : s.stack = [] → s.ready = h :: q → c.point = .sleep → o = .ok none →
      Ends w code s h c o
  | enterIo (q : List ℕ) (a : A) : s.stack = [] → s.ready = h :: q → c.point = .initialIo a →
      (∃ e, o = .error e) → w.Throws a h s.world → Ends w code s h c o
  | io (q : List ℕ) (a : A) : s.stack = [] → s.ready = h :: q → c.point = .io a →
      o = (w.resume a h s.world).1 → Ends w code s h c o

/-- **What a step can do to a coroutine.** -/
inductive RowStep (w : World A X V) (code : Loc → Op Loc G A V) (s s' : Loop Loc G A X V)
    (h : ℕ) (c c' : Coro Loc A V) : Prop
  /-- nothing -/
  | still : c' = c → RowStep w code s s' h c c'
  /-- it executes, and takes or gives up `Coro` objects -/
  | owns (l : Loc) (ls : List ℕ) : (h, l) ∈ s'.stack → c' = { c with locals := ls } →
      RowStep w code s s' h c c'
  /-- a `Future` schedules it -/
  | scheduled : c.state = .kUnschedule → c.point.isRunning = false →
      c' = { c with state := .kScheduled } → RowStep w code s s' h c c'
  /-- the executing coroutine suspends on it -/
  | awaited (me : ℕ) (l : Loc) (rest : List (ℕ × Loc)) (k : Outcome V → Loc) :
      s.stack = (me, l) :: rest → code l = .await h k → c.point.isFinal = false →
      c.point.isRunning = false →
      c' = { c with
        next := some me
        state := if c.state = .kUnschedule then .kScheduled else c.state } →
      RowStep w code s s' h c c'
  /-- it is the one that suspends -/
  | suspended (l : Loc) (rest : List (ℕ × Loc)) (d : ℕ) (k : Outcome V → Loc) :
      s.stack = (h, l) :: rest → code l = .await d k →
      (∃ cd, s.coros d = some cd ∧ cd.point.isFinal = false ∧ cd.point.isRunning = false ∧
        s'.coros d = some { cd with
          next := some h
          state := if cd.state = .kUnschedule then .kScheduled else cd.state }) →
      c' = { c with point := .await d k, state := .kSuspend } → RowStep w code s s' h c c'
  /-- its body ends, and its `next` is called -/
  | ended (o : Outcome V) (st : HandleState) : Ends w code s h c o →
      c' = { c with point := .final, state := st, result := some o, locals := [] } →
      (∀ p, c.next = some p → ∃ cp, s'.coros p = some cp ∧ cp.state = .kScheduled) →
      RowStep w code s s' h c c'
  /-- what it awaits has ended and calls it -/
  | called (i : ℕ) (ci : Coro Loc A V) : s.coros i = some ci → ci.point.isFinal = false →
      ci.next = some h → c' = { c with state := .kScheduled } → RowStep w code s s' h c c'
  /-- `Runone` resumes it -/
  | resumed (q : List ℕ) (l : Loc) : s.stack = [] → s.ready = h :: q → s'.stack = [(h, l)] →
      (c.point = .initial l ∨
        ∃ d k cd, c.point = .await d k ∧ s.coros d = some cd ∧ l = k cd.get) →
      c' = { c with point := .running, state := .kUnschedule } → RowStep w code s s' h c c'
  /-- `Runone` starts it, and it posts its operation -/
  | posted (q : List ℕ) (a : A) : s.stack = [] → s.ready = h :: q → c.point = .initialIo a →
      c' = { c with point := .io a, state := .kSuspend } → RowStep w code s s' h c c'
  /-- it has an event -/
  | event (events : List ℕ) (x : X) : s.AtHead → w.poll s.world = (.ok events, x) → h ∈ events →
      c' = { c with state := .kScheduled } → RowStep w code s s' h c c'

/-- **Where the coroutine is after the step**, and with what result. Most of what a step can do
to it changes neither. -/
inductive PointStep (w : World A X V) (code : Loc → Op Loc G A V) (s s' : Loop Loc G A X V)
    (h : ℕ) (c c' : Coro Loc A V) : Prop
  | kept : c'.point = c.point → c'.result = c.result → c'.get = c.get →
      PointStep w code s s' h c c'
  | suspended (l : Loc) (rest : List (ℕ × Loc)) (d : ℕ) (k : Outcome V → Loc) :
      s.stack = (h, l) :: rest → code l = .await d k →
      (∃ cd, s.coros d = some cd ∧ cd.point.isFinal = false) → c'.point = .await d k →
      PointStep w code s s' h c c'
  | ended (o : Outcome V) : Ends w code s h c o → c'.point = .final → c'.result = some o →
      PointStep w code s s' h c c'
  | resumed (q : List ℕ) (l : Loc) : s.stack = [] → s.ready = h :: q → s'.stack = [(h, l)] →
      (c.point = .initial l ∨
        ∃ d k cd, c.point = .await d k ∧ s.coros d = some cd ∧ l = k cd.get) →
      c'.point = .running → PointStep w code s s' h c c'
  | posted (q : List ℕ) (a : A) : s.stack = [] → s.ready = h :: q → c.point = .initialIo a →
      c'.point = .io a → PointStep w code s s' h c c'

theorem RowStep.pointStep (hr : RowStep w code s s' h c c') : PointStep w code s s' h c c' := by
  cases hr with
  | still heq
  | owns _ _ _ heq
  | scheduled _ _ heq
  | awaited _ _ _ _ _ _ _ _ heq
  | called _ _ _ _ _ heq
  | event _ _ _ _ _ heq =>
    subst heq
    exact .kept rfl rfl rfl
  | suspended l rest d k hstack hop hd heq =>
    subst heq
    obtain ⟨cd, hd, hf, -⟩ := hd
    exact .suspended l rest d k hstack hop ⟨cd, hd, hf⟩ rfl
  | ended o st hends heq _ =>
    subst heq
    exact .ended o hends rfl rfl
  | resumed q l hstack hready hstack' hp heq =>
    subst heq
    exact .resumed q l hstack hready hstack' hp rfl
  | posted q a hstack hready hp heq =>
    subst heq
    exact .posted q a hstack hready hp rfl

/-! ## The operations -/

namespace Loop

/-- The end of a body, for every coroutine. -/
theorem finish_row {me : ℕ} {o : Outcome V} (hf : s.finish me o = some s')
    (hc : s.coros h = some c) :
    s'.coros h = none ∨ ∃ c', s'.coros h = some c' ∧
      (h ≠ me ∧ c' = c ∨
        h = me ∧
          (∃ st, c' = { c with point := .final, state := st, result := some o, locals := [] }) ∧
          (∀ p, c.next = some p → ∃ cp, s'.coros p = some cp ∧ cp.state = .kScheduled) ∨
        h ≠ me ∧ (∃ cm, s.coros me = some cm ∧ cm.next = some h) ∧
          c' = { c with state := .kScheduled }) := by
  obtain ⟨cm, hcm, s₁, he, hcm₁, hcase⟩ := finish_cases hf
  rcases he.coros h with h₁ | h₁
  · rw [hc] at h₁
    right
    by_cases hh : h = me
    · subst hh
      rw [hc] at hcm
      cases hcm
      rcases hcase with ⟨hn, rfl⟩ | ⟨p, cp, hn, hcp, rfl⟩
      · refine ⟨_, by rw [modify_coros_self, h₁]; rfl, Or.inr (Or.inl ⟨rfl, ⟨c.state, rfl⟩, ?_⟩)⟩
        intro p hp
        rw [hn] at hp
        cases hp
      · obtain ⟨cp', hcp'⟩ := Option.isSome_iff_exists.mp (show ((s₁.modify h fun c =>
          { c with point := .final, result := some o, locals := [] }).coros p).isSome = true by
            rw [modify_coros_isSome, hcp]; rfl)
        have hcall : ∀ p', c.next = some p' → ∃ cp, ((s₁.modify h fun c =>
            { c with point := .final, result := some o, locals := [] }).call p).coros p' = some cp ∧
            cp.state = .kScheduled := by
          intro p' hp'
          rw [hn, Option.some.injEq] at hp'
          subst hp'
          exact ⟨{ cp' with state := .kScheduled },
            by rw [call_coros, setState, modify_coros_self, hcp']; rfl, rfl⟩
        by_cases hph : h = p
        · refine ⟨{ c with point := .final, state := .kScheduled, result := some o, locals := [] },
            ?_, Or.inr (Or.inl ⟨rfl, ⟨_, rfl⟩, hcall⟩)⟩
          rw [call_coros, setState, ← hph, modify_coros_self, modify_coros_self, h₁]
          rfl
        · refine ⟨{ c with point := .final, result := some o, locals := [] }, ?_,
            Or.inr (Or.inl ⟨rfl, ⟨c.state, rfl⟩, hcall⟩)⟩
          rw [call_coros, setState, modify_coros_of_ne hph, modify_coros_self, h₁]
          rfl
    · rcases hcase with ⟨-, rfl⟩ | ⟨p, cp, hn, hcp, rfl⟩
      · exact ⟨c, by rw [modify_coros_of_ne hh]; exact h₁, Or.inl ⟨hh, rfl⟩⟩
      · by_cases hp : h = p
        · subst hp
          refine ⟨{ c with state := .kScheduled }, ?_, Or.inr (Or.inr ⟨hh, ⟨cm, hcm, hn⟩, rfl⟩)⟩
          rw [call_coros, setState, modify_coros_self, modify_coros_of_ne hh, h₁]
          rfl
        · refine ⟨c, ?_, Or.inl ⟨hh, rfl⟩⟩
          rw [call_coros, setState, modify_coros_of_ne hp, modify_coros_of_ne hh]
          exact h₁
  · left
    rcases hcase with ⟨-, rfl⟩ | ⟨p, cp, -, -, rfl⟩
    · rw [modify_coros_eq_none]
      exact h₁
    · rw [call_coros, setState, modify_coros_eq_none, modify_coros_eq_none]
      exact h₁

theorem finish_gone {me : ℕ} {o : Outcome V} (hf : s.finish me o = some s')
    (hc : s.coros h = none) : s'.coros h = none := by
  obtain ⟨cm, hcm, s₁, he, hcm₁, hcase⟩ := finish_cases hf
  have h₁ : s₁.coros h = none := by
    rcases he.coros h with h₁ | h₁
    · exact h₁.trans hc
    · exact h₁
  rcases hcase with ⟨-, rfl⟩ | ⟨p, cp, -, -, rfl⟩
  · rw [modify_coros_eq_none]
    exact h₁
  · rw [call_coros, setState, modify_coros_eq_none, modify_coros_eq_none]
    exact h₁

/-- `Handle::schedule`, for every coroutine. -/
theorem schedule_row {d : ℕ} (hc : s.coros h = some c) :
    (Handle.schedule d s).coros h = some (if h = d ∧ c.state = .kUnschedule then
      { c with state := .kScheduled } else c) := by
  unfold Handle.schedule
  by_cases hd : h = d
  · subst hd
    simp only [hc, true_and]
    split
    · rw [call_coros, setState, modify_coros_self, hc]
      rfl
    · exact hc
  · simp only [hd, false_and, if_false]
    split
    · split
      · rw [call_coros, setState, modify_coros_of_ne hd]
        exact hc
      · exact hc
    · exact hc

theorem schedule_stack {d : ℕ} : (Handle.schedule d s).stack = s.stack := by
  unfold Handle.schedule
  split
  · split <;> rfl
  · rfl

theorem schedule_gone {d : ℕ} (hc : s.coros h = none) : (Handle.schedule d s).coros h = none := by
  unfold Handle.schedule
  split
  · split
    · rw [call_coros, setState, modify_coros_eq_none]
      exact hc
    · exact hc
  · exact hc

/-- `await_suspend`, for every coroutine. -/
theorem awaitSuspend_row {me d : ℕ} {k : Outcome V → Loc} (hc : s.coros h = some c)
    (hne : d ≠ me) :
    (s.awaitSuspend me d k).coros h = some
      (if h = me then { c with point := .await d k, state := .kSuspend }
      else if h = d then { c with
        next := some me
        state := if c.state = .kUnschedule then .kScheduled else c.state }
      else c) := by
  unfold awaitSuspend
  by_cases hm : h = me
  · subst hm
    have h₁ : (((s.setState .kSuspend h).setPoint (.await d k) h).modify d fun c =>
        { c with next := some h }).coros h =
        some { c with point := .await d k, state := .kSuspend } := by
      rw [modify_coros_of_ne (Ne.symm hne), setPoint, setState, modify_coros_self,
        modify_coros_self, hc]
      rfl
    rw [schedule_row h₁, if_neg (fun hh => hne hh.1.symm), if_pos rfl]
  · rw [if_neg hm]
    by_cases hd : h = d
    · subst hd
      have h₁ : (((s.setState .kSuspend me).setPoint (.await h k) me).modify h fun c =>
          { c with next := some me }).coros h = some { c with next := some me } := by
        rw [modify_coros_self, setPoint, setState, modify_coros_of_ne hm, modify_coros_of_ne hm, hc]
        rfl
      rw [schedule_row h₁, if_pos rfl]
      by_cases hst : c.state = .kUnschedule
      · simp [hst]
      · simp [hst]
    · have h₁ : (((s.setState .kSuspend me).setPoint (.await d k) me).modify d fun c =>
          { c with next := some me }).coros h = some c := by
        rw [modify_coros_of_ne hd, setPoint, setState, modify_coros_of_ne hm,
          modify_coros_of_ne hm]
        exact hc
      rw [schedule_row h₁, if_neg (fun hh => hd hh.1), if_neg hd]

theorem schedule_isSome {d : ℕ} :
    ((Handle.schedule d s).coros h).isSome = (s.coros h).isSome := by
  cases hc : s.coros h with
  | none => rw [schedule_gone hc]
  | some c => rw [schedule_row hc]; rfl

theorem awaitSuspend_gone {me d : ℕ} {k : Outcome V → Loc} (hc : s.coros h = none) :
    (s.awaitSuspend me d k).coros h = none := by
  unfold awaitSuspend
  refine schedule_gone ?_
  simp only [setPoint, setState, modify_coros_eq_none]
  exact hc

/-- `IO::Select`'s calls, for every coroutine. -/
theorem callAll_row : ∀ {events : List ℕ} {s : Loop Loc G A X V} {c : Coro Loc A V},
    s.callAll events = some s' → s.coros h = some c →
    s'.coros h = some (if h ∈ events then { c with state := .kScheduled } else c) := by
  intro events
  induction events with
  | nil =>
    intro s c hs hc
    rw [callAll, Option.some.injEq] at hs
    rw [← hs]
    simpa using hc
  | cons e events ih =>
    intro s c hs hc
    rw [callAll] at hs
    split at hs
    · by_cases he : h = e
      · subst he
        rw [ih hs (c := { c with state := .kScheduled })
          (by rw [call_coros, setState, modify_coros_self, hc]; rfl)]
        simp
      · rw [ih hs (c := c) (by rw [call_coros, setState, modify_coros_of_ne he]; exact hc)]
        simp [he]
    · cases hs

theorem callAll_gone : ∀ {events : List ℕ} {s : Loop Loc G A X V},
    s.callAll events = some s' → s.coros h = none → s'.coros h = none := by
  intro events
  induction events with
  | nil =>
    intro s hs hc
    rw [callAll, Option.some.injEq] at hs
    rw [← hs]
    exact hc
  | cons e events ih =>
    intro s hs hc
    rw [callAll] at hs
    split at hs
    · exact ih hs (by rw [call_coros, setState, modify_coros_eq_none]; exact hc)
    · cases hs

/-- An erased coroutine is gone and the others are as they were. -/
theorem Erased.row (he : Erased s s') (hc : s.coros h = some c) :
    s'.coros h = none ∨ s'.coros h = some c := by
  rcases he.coros h with h₁ | h₁
  · exact Or.inr (h₁.trans hc)
  · exact Or.inl h₁

end Loop

/-! ## The steps -/

/-- What a body's operation does to a coroutine. -/
theorem exec_row {now : ℤ} (t : Table none s) (hs : s.exec code now = some s')
    (hawait : ∀ me l rest h k, s.stack = (me, l) :: rest → code l = .await h k →
      h ∉ s.running) (hc : s.coros h = some c) :
    s'.coros h = none ∨ ∃ c', s'.coros h = some c' ∧ RowStep w code s s' h c c' := by
  have hidle : h ∉ s.running → c.point.isRunning = false := by
    intro hm
    by_contra hr
    exact hm ((t.onStack h (by simp)).mpr ⟨c, hc, by simpa using hr⟩)
  obtain ⟨me, l, rest, hstack, hop⟩ := operation_of_exec hs
  obtain ⟨cme, hcme, hcrun⟩ := (t.onStack me (by simp)).mp (by simp [running, hstack])
  have hnew : h ≠ s.seq := fun hh => absurd (t.fresh h c hc) (by omega)
  have hdrop : ∀ (d : ℕ) (l' : Loc), ∃ c', (Loop.dropLocal me d
      { s with stack := (me, l') :: rest }).coros h = some c' ∧
      (c' = c ∨ h = me ∧ ∃ ls, c' = { c with locals := ls }) := by
    intro d l'
    rw [dropLocal]
    by_cases hm : h = me
    · refine ⟨{ c with locals := c.locals.filter (· ≠ d) }, ?_, Or.inr ⟨hm, _, rfl⟩⟩
      rw [hm, modify_coros_self, ← hm, show Loop.coros { s with stack := (h, l') :: rest } h =
        some c from hc]
      rfl
    · exact ⟨c, by rw [modify_coros_of_ne hm]; exact hc, Or.inl rfl⟩
  cases hop with
  | step f _ he | keep d k cd _ _ _ _ he | got d k cd _ _ _ he | done d k cd _ _ he =>
    subst he
    exact Or.inr ⟨c, hc, .still rfl⟩
  | spawn cn sched inner l' _ he =>
    subst he
    right
    have hs₁ : (s.spawn cn).coros h = some c := by
      rw [spawn_coros, if_neg hnew]
      exact hc
    by_cases hm : h = me
    · refine ⟨{ c with locals := s.seq :: c.locals }, ?_,
        .owns l' _ (by rw [hm]; exact List.mem_append_right _ List.mem_cons_self) rfl⟩
      show ((s.spawn cn).addLocal me s.seq).coros h = _
      rw [addLocal, hm, modify_coros_self, ← hm, hs₁]
      rfl
    · exact ⟨c, (modify_coros_of_ne hm).trans hs₁, .still rfl⟩
  | future d k cd _ hd hholds hf he =>
    subst he
    right
    show ∃ c', (Handle.schedule d s).coros h = some c' ∧ _
    rw [schedule_row hc]
    by_cases hcase : h = d ∧ c.state = .kUnschedule
    · rw [if_pos hcase]
      have hlt : me < d := by
        simp only [holds, hcme, decide_eq_true_eq] at hholds
        exact (t.locals me cme d hcme hholds).1
      refine ⟨_, rfl, .scheduled hcase.2 (hidle fun hm => ?_) rfl⟩
      have hsort := t.sorted
      simp only [running, hstack, List.map_cons, List.pairwise_cons, List.mem_cons] at hsort hm
      rcases hm with hm | hm
      · omega
      · have := hsort.1 h hm
        omega
    · rw [if_neg hcase]
      exact ⟨c, rfl, .still rfl⟩
  | suspend d k cd hop hd hf he =>
    subst he
    have hnot := hawait me l rest d k hstack hop
    have hne : d ≠ me := fun hh => hnot (by simp [running, hstack, hh])
    have hdr : cd.point.isRunning = false := by
      by_contra hr
      exact hnot ((t.onStack d (by simp)).mpr ⟨cd, hd, by simpa using hr⟩)
    right
    rw [awaitSuspend_row (s := { s with stack := rest }) hc hne]
    by_cases hm : h = me
    · rw [if_pos hm]
      refine ⟨_, rfl, .suspended l rest d k (by rw [hstack, hm]) hop ⟨cd, hd, hf, hdr, ?_⟩ rfl⟩
      rw [awaitSuspend_row (s := { s with stack := rest }) hd hne, if_neg hne, if_pos rfl, hm]
    · rw [if_neg hm]
      by_cases hhd : h = d
      · subst hhd
        rw [if_pos rfl]
        rw [hc] at hd
        cases hd
        exact ⟨_, rfl, .awaited me l rest k hstack hop hf hdr rfl⟩
      · rw [if_neg hhd]
        exact ⟨c, rfl, .still rfl⟩
  | destroy d k _ _ he =>
    subst he
    have he := erased_destroy s.seq d (Loop.dropLocal me d { s with stack := (me, k) :: rest })
    obtain ⟨c', hc', hcase⟩ := hdrop d k
    refine (he.row hc').imp id fun h₁ => ⟨_, h₁, ?_⟩
    rcases hcase with rfl | ⟨rfl, ls, rfl⟩
    · exact .still rfl
    · exact .owns k ls (by rw [he.stack]; exact List.mem_cons_self) rfl
  | release d k _ _ he =>
    subst he
    right
    obtain ⟨c', hc', rfl | ⟨rfl, ls, rfl⟩⟩ := hdrop d k
    · exact ⟨_, hc', .still rfl⟩
    · exact ⟨_, hc', .owns k ls List.mem_cons_self rfl⟩
  | ret o hop hs =>
    refine (finish_row (s := { s with stack := rest }) hs hc).imp id ?_
    rintro ⟨c', hc', ⟨-, rfl⟩ | ⟨rfl, ⟨st, rfl⟩, hcall⟩ | ⟨hm, ⟨cm, hcm, hn⟩, rfl⟩⟩
    · exact ⟨_, hc', .still rfl⟩
    · exact ⟨_, hc', .ended o st (.ret l rest hstack hop) rfl hcall⟩
    · refine ⟨_, hc', .called me cm hcm ?_ hn rfl⟩
      rw [show Loop.coros { s with stack := rest } me = s.coros me from rfl, hcme] at hcm
      cases hcm
      cases hp : cme.point <;> rw [hp] at hcrun <;> first | rfl | cases hcrun

/-- What an iteration of `Runone` does to a coroutine. -/
theorem resume_row (t : Table none s) (hstack : s.stack = []) (hs : s.resume w = some s')
    (hc : s.coros h = some c) :
    s'.coros h = none ∨ ∃ c', s'.coros h = some c' ∧ RowStep w code s s' h c c' := by
  obtain ⟨i, n, q, ci, -, hready, hci, hit⟩ := iteration_of_resume hs
  obtain ⟨-, -, hif, -⟩ := t.of_mem_queued hci (by simp [Loop.queued, hready])
  have hci₁ : (s.popped i n q).coros i = some { ci with state := .kUnschedule } :=
    popped_coros_self hci
  have hc₁ : h ≠ i → (s.popped i n q).coros h = some c := fun hh =>
    (popped_coros_of_ne hh).trans hc
  -- the front's body ends
  have hend : ∀ {o : Outcome V} (s₂ : Loop Loc G A X V) (st : HandleState),
      s₂.finish i o = some s' → s₂.coros i = some { ci with state := st } →
      (h ≠ i → s₂.coros h = some c) → Ends w code s i ci o →
      s'.coros h = none ∨ ∃ c', s'.coros h = some c' ∧ RowStep w code s s' h c c' := by
    intro o s₂ st hf hi₂ hne₂ hends
    by_cases hh : h = i
    · subst hh
      rw [hc] at hci
      cases hci
      refine (finish_row hf hi₂).imp id ?_
      rintro ⟨c', hc', ⟨hm, -⟩ | ⟨-, ⟨st', rfl⟩, hcall⟩ | ⟨hm, -⟩⟩
      · exact absurd rfl hm
      · exact ⟨_, hc', .ended o st' hends rfl hcall⟩
      · exact absurd rfl hm
    · refine (finish_row hf (hne₂ hh)).imp id ?_
      rintro ⟨c', hc', ⟨-, rfl⟩ | ⟨hm, -⟩ | ⟨-, ⟨cm, hcm, hn⟩, rfl⟩⟩
      · exact ⟨_, hc', .still rfl⟩
      · exact absurd hm hh
      · rw [hi₂] at hcm
        cases hcm
        exact ⟨_, hc', .called i ci hci hif hn rfl⟩
  have hstart : ∀ l, (ci.point = .initial l ∨
      ∃ d k cd, ci.point = .await d k ∧ s.coros d = some cd ∧ l = k cd.get) →
      s' = { (s.popped i n q).setPoint .running i with stack := [(i, l)] } →
      s'.coros h = none ∨ ∃ c', s'.coros h = some c' ∧ RowStep w code s s' h c c' := by
    rintro l hl rfl
    right
    by_cases hh : h = i
    · subst hh
      rw [hc] at hci
      cases hci
      refine ⟨{ c with point := .running, state := .kUnschedule }, ?_,
        .resumed q l hstack hready rfl hl rfl⟩
      show ((s.popped h n q).setPoint .running h).coros h = _
      rw [setPoint, modify_coros_self, hci₁]
      rfl
    · refine ⟨c, ?_, .still rfl⟩
      show ((s.popped i n q).setPoint .running i).coros h = _
      rw [setPoint, modify_coros_of_ne hh]
      exact hc₁ hh
  cases hit with
  | initial l hp he => exact hstart l (Or.inl hp) he
  | await d k cd hp hd he =>
    -- writing the front's state leaves the result the waiter reads
    obtain ⟨cd₀, hd₀, rfl | ⟨-, rfl⟩⟩ := popped_coros_eq_some hd
    · exact hstart _ (Or.inr ⟨d, k, _, hp, hd₀, rfl⟩) he
    · exact hstart _ (Or.inr ⟨d, k, cd₀, hp, hd₀, rfl⟩) he
  | refused a e hp henter hf =>
    exact hend _ _ hf hci₁ hc₁ (.enterIo q a hstack hready hp ⟨e, rfl⟩ (Or.inl ⟨e, henter⟩))
  | failed a e x x' hp henter hpost hf =>
    refine hend _ .kSuspend hf ?_ (fun hh => ?_) (.enterIo q a hstack hready hp ⟨e, rfl⟩
      (Or.inr ⟨x, e, x', henter, hpost⟩))
    · rw [setState, modify_coros_self, show Loop.coros { s.popped i n q with world := x' } i = _
        from hci₁]
      rfl
    · rw [setState, modify_coros_of_ne hh]
      exact hc₁ hh
  | posted a x x' hp henter hpost he =>
    subst he
    right
    by_cases hh : h = i
    · subst hh
      rw [hc] at hci
      cases hci
      refine ⟨{ c with point := .io a, state := .kSuspend }, ?_, .posted q a hstack hready hp rfl⟩
      rw [setPoint, setState, modify_coros_self, modify_coros_self,
        show Loop.coros { s.popped h n q with world := x' } h = _ from hci₁]
      rfl
    · refine ⟨c, ?_, .still rfl⟩
      rw [setPoint, setState, modify_coros_of_ne hh, modify_coros_of_ne hh]
      exact hc₁ hh
  | sleep hp hf => exact hend _ _ hf hci₁ hc₁ (.sleep q hstack hready hp rfl)
  | io a hp hf =>
    exact hend { s.popped i n q with world := _ } _ hf hci₁ hc₁ (.io q a hstack hready hp rfl)

/-- **The list of `RowStep` is complete.** -/
theorem Loop.Step.rowStep (t : Table none s) (hs : Step w code s s')
    (hawait : ∀ me l rest h k, s.stack = (me, l) :: rest → code l = .await h k →
      h ∉ s.running) (hc : s.coros h = some c) :
    s'.coros h = none ∨ ∃ c', s'.coros h = some c' ∧ RowStep w code s s' h c c' := by
  cases hs with
  | exec now hs => exact exec_row t hs hawait hc
  | resume hstack hs => exact resume_row t hstack hs hc
  | round hs =>
    cases hs with
    | @mk s₁ now events x hhead hstop hpoll hcall =>
      right
      have h₁ := callAll_row hcall (s := { s with world := x }) hc
      rw [show (s₁.runone now).coros h = _ from h₁]
      by_cases he : h ∈ events
      · rw [if_pos he]
        exact ⟨_, rfl, .event events x hhead hpoll he rfl⟩
      · rw [if_neg he]
        exact ⟨c, rfl, .still rfl⟩
  | env hs => exact Or.inr ⟨c, hc, .still rfl⟩

/-- Of a coroutine that is there before and after. -/
theorem Loop.Step.row (t : Table none s) (hs : Step w code s s')
    (hawait : ∀ me l rest h k, s.stack = (me, l) :: rest → code l = .await h k →
      h ∉ s.running) (hc : s.coros h = some c) (hc' : s'.coros h = some c') :
    RowStep w code s s' h c c' := by
  rcases hs.rowStep t hawait hc with hgone | ⟨c₁, hc₁, hr⟩
  · rw [hgone] at hc'
    cases hc'
  · rw [hc'] at hc₁
    obtain rfl := Option.some.inj hc₁
    exact hr

/-- **A step makes one coroutine at most**, under the next id, and the one
executing is its creator. -/
theorem Loop.Step.fresh_row (hs : Step w code s s') (hn : s.coros h = none)
    (hc' : s'.coros h = some c') :
    h = s.seq ∧ ∃ me l rest p isVoid st, s.stack = (me, l) :: rest ∧
      (∃ l', (me, l') ∈ s'.stack) ∧
      (p.isInitial = true ∧ st = .kUnschedule ∨ p.isRunning = true ∧ st = .kUnschedule ∨
        p.isSleep = true ∧ st = .kScheduled) ∧
      ∃ ls, c' = { Coro.new p isVoid (some me) with state := st, locals := ls } := by
  have hsome : s'.coros h ≠ none := by rw [hc']; simp
  cases hs with
  | exec now hs =>
    obtain ⟨me, l, rest, hstack, hop⟩ := operation_of_exec hs
    cases hop with
    | step f _ he | keep d k cd _ _ _ _ he | got d k cd _ _ _ he | done d k cd _ _ he =>
      subst he
      exact (hsome hn).elim
    | spawn cn sched inner l' hmade he =>
      subst he
      obtain ⟨p, isVoid, st, rfl, hkind⟩ := hmade.new
      have hc' : ((s.spawn { Coro.new p isVoid (some me) with state := st }).modify me
          fun c => { c with locals := s.seq :: c.locals }).coros h = some c' := hc'
      have hh : h = s.seq := by
        by_contra hh
        rcases modify_coros_eq_some.mp hc' with ⟨hm, c₀, hc₀, -⟩ | ⟨-, hc₀⟩
        · rw [← hm, spawn_coros, if_neg hh, hn] at hc₀
          cases hc₀
        · rw [spawn_coros, if_neg hh, hn] at hc₀
          cases hc₀
      refine ⟨hh, me, l, rest, p, isVoid, st, hstack,
        ⟨l', List.mem_append_right _ List.mem_cons_self⟩, hkind, ?_⟩
      -- `me` may have added a local to its frame
      rcases modify_coros_eq_some.mp hc' with ⟨hm, c₀, hc₀, rfl⟩ | ⟨-, hc₀⟩
      · rw [← hm, spawn_coros, if_pos hh, Option.some.injEq] at hc₀
        exact ⟨s.seq :: c₀.locals, by rw [← hc₀, hm]⟩
      · rw [spawn_coros, if_pos hh, Option.some.injEq] at hc₀
        exact ⟨[], hc₀.symm⟩
    | future d k cd _ _ _ _ he =>
      subst he
      exact (hsome (schedule_gone hn)).elim
    | suspend d k cd _ _ _ he =>
      subst he
      exact (hsome (awaitSuspend_gone (s := { s with stack := rest }) hn)).elim
    | destroy d k _ _ he =>
      subst he
      have h₁ := (erased_destroy s.seq d
        (Loop.dropLocal me d { s with stack := (me, k) :: rest })).coros_eq hc'
      have h₂ : (Loop.dropLocal me d { s with stack := (me, k) :: rest }).coros h = none := by
        rw [dropLocal, modify_coros_eq_none]
        exact hn
      rw [h₂] at h₁
      cases h₁
    | release d k _ _ he =>
      subst he
      exact (hsome (by rw [dropLocal, modify_coros_eq_none]; exact hn)).elim
    | ret o _ hs => exact (hsome (finish_gone (s := { s with stack := rest }) hs hn)).elim
  | resume hstack hs =>
    refine (hsome ?_).elim
    obtain ⟨i, n, q, ci, -, -, -, hit⟩ := iteration_of_resume hs
    have hn₁ : (s.popped i n q).coros h = none := by
      rw [popped, setState, modify_coros_eq_none]
      exact hn
    cases hit with
    | initial l _ he | await d k cd _ _ he =>
      subst he
      show (setPoint _ _ _).coros h = none
      rw [setPoint, modify_coros_eq_none]
      exact hn₁
    | refused a e _ _ hf | sleep _ hf => exact finish_gone hf hn₁
    | io a _ hf => exact finish_gone (s := { s.popped i n q with world := _ }) hf hn₁
    | failed a e x x' _ _ _ hf =>
      refine finish_gone hf ?_
      rw [setState, modify_coros_eq_none]
      exact hn₁
    | posted a x x' _ _ _ he =>
      subst he
      rw [setPoint, modify_coros_eq_none, setState, modify_coros_eq_none]
      exact hn₁
  | round hs =>
    cases hs with
    | @mk s₁ now events x hhead hstop hpoll hcall =>
      have h₁ : s₁.coros h = none := callAll_gone hcall hn
      exact (hsome h₁).elim
  | env hs => exact (hsome hn).elim

/-! ## What only grows -/

theorem finish_seq {me : ℕ} {o : Outcome V} (hf : s.finish me o = some s') : s'.seq = s.seq := by
  obtain ⟨c, -, s₁, he, -, ⟨-, rfl⟩ | ⟨p, cp, -, -, rfl⟩⟩ := finish_cases hf
  · exact he.seq
  · exact he.seq

theorem schedule_seq {d : ℕ} : (Handle.schedule d s).seq = s.seq := by
  unfold Handle.schedule
  split
  · split <;> rfl
  · rfl

theorem awaitSuspend_seq {me d : ℕ} {k : Outcome V → Loc} :
    (s.awaitSuspend me d k).seq = s.seq := by
  unfold awaitSuspend
  exact schedule_seq

theorem callAll_seq : ∀ {events : List ℕ} {s : Loop Loc G A X V},
    s.callAll events = some s' → s'.seq = s.seq := by
  intro events
  induction events with
  | nil =>
    intro s hs
    rw [callAll, Option.some.injEq] at hs
    rw [← hs]
  | cons e events ih =>
    intro s hs
    rw [callAll] at hs
    split at hs
    · exact (ih hs).trans call_seq
    · cases hs

/-- `seq_` never goes back. -/
theorem Loop.Step.seq_le (hs : Step w code s s') : s.seq ≤ s'.seq := by
  cases hs with
  | exec now hs =>
    obtain ⟨me, l, rest, -, hop⟩ := operation_of_exec hs
    cases hop with
    | step f _ he | keep d k cd _ _ _ _ he | got d k cd _ _ _ he | done d k cd _ _ he
    | release d k _ _ he => exact he ▸ le_refl _
    | spawn cn sched inner l' _ he => exact he ▸ Nat.le_succ _
    | future d k cd _ _ _ _ he => exact he ▸ schedule_seq.ge
    | suspend d k cd _ _ _ he => exact he ▸ (awaitSuspend_seq (s := { s with stack := rest })).ge
    | destroy d k _ _ he =>
      exact he ▸ (erased_destroy s.seq d
        (Loop.dropLocal me d { s with stack := (me, k) :: rest })).seq.ge
    | ret o _ hs => exact (finish_seq hs).ge
  | resume hstack hs =>
    obtain ⟨i, n, q, ci, -, -, -, hit⟩ := iteration_of_resume hs
    cases hit with
    | initial l _ he | await d k cd _ _ he | posted a x x' _ _ _ he => exact he ▸ le_refl _
    | refused a e _ _ hf | failed a e x x' _ _ _ hf | sleep _ hf | io a _ hf =>
      exact (finish_seq hf).ge
  | round hs =>
    cases hs with
    | mk hhead hstop hpoll hcall => exact (callAll_seq hcall).ge
  | env hs => exact le_refl _

/-- Along a run the count of handles does not go back. -/
theorem seq_le_of_le {σ : ℕ → Loop Loc G A X V} {n j i : ℕ}
    (hstep : ∀ m < n, Step w code (σ m) (σ (m + 1))) (hji : j ≤ i) (hi : i ≤ n) :
    (σ j).seq ≤ (σ i).seq := by
  obtain ⟨m, rfl⟩ := Nat.exists_eq_add_of_le hji
  clear hji
  induction m with
  | zero => exact le_refl _
  | succ m ih => exact (ih (by omega)).trans (hstep _ (by omega)).seq_le

end EfaExamples
