import EfaExamples.Coro.Inversion
import EfaExamples.Coro.Table
/-!
# One step keeps the table

The table lemma of each of the loop's operations, and the step lemma. What a
step has to respect is `StepOk`: it destroys only what is `Clean`, a
`co_await` is not of a coroutine that is still executing, and the events of
a `Select` are distinct coroutines waiting for the fabric. The plain event
loop meets the last two by itself.
-/

namespace EfaExamples

open Loop

variable {Loc G A X V : Type} {w : World A X V} {code : Loc → Op Loc G A V}
variable {e : Option ℕ} {s s' s₁ s₂ : Loop Loc G A X V} {h d : ℕ} {c : Coro Loc A V}

namespace Table

/-! ## Local computation -/

/-- Nothing but the continuations on the stack, the memory, the world and the
count of `Runone` differs. -/
theorem of_fields (s' : Loop Loc G A X V) (t : Table e s) (hseq : s'.seq = s.seq) (hcoros : s'.coros = s.coros)
    (hready : s'.ready = s.ready) (hschedule : s'.schedule = s.schedule)
    (hrunning : s'.running = s.running) : Table e s' := by
  refine t.of_sameRows ⟨hseq, ?_, by rw [hschedule]; exact fun _ => id, hrunning, ?_, ?_⟩
  · unfold Loop.queued
    rw [hready, hschedule]
  · intro i c hc
    rw [hcoros] at hc
    exact ⟨c, hc, rfl, rfl, rfl, rfl, fun d hd => Or.inl hd⟩
  · intro i hi
    rw [hcoros] at hi
    exact hi

/-- A frame takes or gives up `Coro` objects. -/
theorem of_locals (t : Table e s) {f : List ℕ → List ℕ}
    (hf : ∀ ls, ∀ d ∈ f ls, d ∈ ls ∨ h < d ∧ d < s.seq) :
    Table e (s.modify h fun c => { c with locals := f c.locals }) := by
  refine t.of_sameRows ⟨rfl, List.Perm.refl _, fun _ => id, rfl, ?_, ?_⟩
  · intro i c hc
    rcases modify_coros_eq_some.mp hc with ⟨hi, c₀, hc₀, rfl⟩ | ⟨-, hc⟩
    · exact ⟨c₀, by rw [hi]; exact hc₀, rfl, rfl, rfl, rfl, fun d hd => hi ▸ hf _ d hd⟩
    · exact ⟨c, hc, rfl, rfl, rfl, rfl, fun d hd => Or.inl hd⟩
  · exact fun i => modify_coros_eq_none.mp

theorem addLocal (t : Table e s) (hd : h < d ∧ d < s.seq) : Table e (s.addLocal h d) :=
  t.of_locals (f := (d :: ·)) fun ls i hi => by
    rcases List.mem_cons.mp hi with rfl | hi
    · exact Or.inr hd
    · exact Or.inl hi

theorem dropLocal (t : Table e s) : Table e (s.dropLocal h d) :=
  t.of_locals (f := (·.filter (· ≠ d))) fun _ _ hi => Or.inl (List.mem_of_mem_filter hi)

/-! ## The queues -/

/-- The timers of `Runone`. -/
theorem runone (t : Table e s) (now : ℤ) : Table e (s.runone now) :=
  t.of_sameRows ⟨rfl, runone_queued_perm, fun _ => Task.mem_of_mem_drain, rfl,
    fun _ c hc => ⟨c, hc, rfl, rfl, rfl, rfl, fun _ hd => Or.inl hd⟩, fun _ => id⟩

/-- `IO::Select` calls distinct coroutines, each waiting for the fabric. -/
theorem callAll : ∀ {events : List ℕ} {s : Loop Loc G A X V}, Table none s → events.Nodup →
    (∀ h ∈ events, ∃ c, s.coros h = some c ∧ c.point.isIo = true ∧ c.state = .kSuspend) →
    s.callAll events = some s' → Table none s' := by
  intro events
  induction events with
  | nil =>
    intro s t _ _ hs
    rw [Loop.callAll, Option.some.injEq] at hs
    rw [← hs]
    exact t
  | cons h events ih =>
    intro s t hnodup hev hs
    obtain ⟨c, hc, hio, hst⟩ := hev h List.mem_cons_self
    rw [Loop.callAll, hc, Option.isSome_some, if_pos rfl] at hs
    have hrow := t.row h c hc (by simp)
    have hzero := hrow.count_eq_zero (by rw [hst]; decide)
    have hpoint : ∃ a, c.point = .io a := by
      cases hp : c.point <;> rw [hp] at hio <;> first | exact ⟨_, rfl⟩ | cases hio
    obtain ⟨a, hp⟩ := hpoint
    refine ih (t.call hc hzero (by rw [hp]; rfl) ?_ (by rw [hp]; exact Or.inr ⟨rfl, rfl⟩))
      (List.nodup_cons.mp hnodup).2 ?_ hs
    · intro i ci hci hf hn
      obtain ⟨cp, hcp, haw, -⟩ := t.next i ci h hci hf hn
      rw [hc] at hcp
      cases hcp
      rw [hp] at haw
      cases haw
    · intro i hi
      obtain ⟨ci, hci, hio', hst'⟩ := hev i (List.mem_cons_of_mem _ hi)
      have hne : i ≠ h := fun heq => (List.nodup_cons.mp hnodup).1 (heq ▸ hi)
      exact ⟨ci, by rw [call_coros, setState, modify_coros_of_ne hne]; exact hci, hio', hst'⟩

/-! ## Reaching a suspension point -/

/-- A coroutine that awaits nothing, or is not kSuspend, is the `next` of
nothing that has to end. -/
theorem next_ne (t : Table e s) (hc : s.coros h = some c)
    (haw : c.point.awaited = none ∨ c.state ≠ .kSuspend) :
    ∀ i ci, s.coros i = some ci → ci.point.isFinal = false → ci.next ≠ some h := by
  intro i ci hci hf hn
  obtain ⟨cp, hcp, hpa, hsus⟩ := t.next i ci h hci hf hn
  rw [hc] at hcp
  cases hcp
  rcases haw with haw | hst
  · rw [haw] at hpa; cases hpa
  · exact hst hsus

/-- The coroutine between suspension points goes on executing. -/
theorem start (t : Table (some h) s) (hc : s.coros h = some c) (hst : c.state = .kUnschedule)
    (hstack : s.stack = []) (l : Loc) :
    Table none { s.setPoint .running h with stack := [(h, l)] } := by
  have hmod : ({ s.setPoint .running h with stack := [(h, l)] } : Loop Loc G A X V) =
      Loop.modify h (fun _ => { c with point := .running })
        { s with stack := [(h, l)], world := s.world } :=
    modify_congr (s := { s with stack := [(h, l)] }) hc rfl
  rw [hmod]
  refine t.settle { c with point := .running } [(h, l)] s.world hc ?_ (by simp) (t.next_ne hc (Or.inr (by rw [hst]; decide))) (fun p _ hn => hn)
    (by simp [Point.isRunning]) ⟨hst, rfl⟩ rfl fun d hd => hd
  intro i hi
  simp [running, hstack, hi]

/-- The coroutine between suspension points, whose state is already
kSuspend, waits for the fabric. -/
theorem suspendIo {a : A} {x : X} (t : Table (some h) s) (hc : s.coros h = some c)
    (haw : c.point.awaited = none ∨ c.state ≠ .kSuspend) :
    Table none ((({ s with world := x } : Loop Loc G A X V).setState .kSuspend h).setPoint
      (.io a) h) := by
  have hmod : (({ s with world := x } : Loop Loc G A X V).setState .kSuspend h).setPoint (.io a) h =
      Loop.modify h (fun _ => { c with point := .io a, state := .kSuspend })
        { s with stack := s.stack, world := x } := by
    rw [setPoint, setState, modify_modify]
    exact modify_congr (s := { s with world := x }) hc rfl
  rw [hmod]
  obtain ⟨c₀, hc₀, -, -, -, hnot⟩ := t.between h rfl
  exact t.settle { c with point := .io a, state := .kSuspend } s.stack x hc (fun i _ => Iff.rfl) t.sorted (t.next_ne hc haw) (fun p _ hn => hn)
    ⟨fun hm => absurd hm hnot, fun hr => by simp [Point.isRunning] at hr⟩
    (Or.inl ⟨rfl, rfl⟩) rfl fun d hd => hd

/-- **`await_suspend`** of a `co_await` on a coroutine that is not executing. -/
theorem awaitSuspend {me : ℕ} {cd : Coro Loc A V} {k : Outcome V → Loc}
    (t : Table (some me) s) (hc : s.coros me = some c) (hst : c.state ≠ .kSuspend)
    (hd : s.coros d = some cd) (hf : cd.point.isFinal = false) (hne : d ≠ me)
    (hr : d ∉ s.running) : Table none (s.awaitSuspend me d k) := by
  have hmod : (s.setState .kSuspend me).setPoint (.await d k) me =
      Loop.modify me (fun _ => { c with point := .await d k, state := .kSuspend })
        { s with stack := s.stack, world := s.world } := by
    rw [setPoint, setState, modify_modify]
    exact modify_congr hc rfl
  obtain ⟨c₀, hc₀, -, -, -, hnot⟩ := t.between me rfl
  have t₁ := t.settle { c with point := .await d k, state := .kSuspend } s.stack s.world hc
    (fun i _ => Iff.rfl) t.sorted
    (t.next_ne hc (Or.inr hst)) (fun p _ hn => hn)
    ⟨fun hm => absurd hm hnot, fun hr => by simp [Point.isRunning] at hr⟩
    (Or.inl ⟨rfl, rfl⟩) rfl fun d hd => hd
  rw [← hmod] at t₁
  -- the awaited coroutine gets its `next`, which changes no row
  set s₁ := (s.setState .kSuspend me).setPoint (.await d k) me with hs₁
  have hd₁ : s₁.coros d = some cd := by
    rw [hs₁]
    simp only [setPoint, setState, modify_coros_of_ne hne]
    exact hd
  have hme₁ : s₁.coros me = some { c with point := .await d k, state := .kSuspend } := by
    simp [hs₁, hc]
  have hrow := t₁.row d cd hd₁ (by simp)
  have t₂ : Table none (s₁.modify d fun c => { c with next := some me }) := by
    refine t₁.of_update { cd with next := some me } (Or.inl rfl) hd₁ rfl ?_
      (fun _ _ => rfl) ?_ (fun _ _ => Iff.rfl) t₁.sorted id ?_ ?_ (Or.inl ⟨rfl, ?_, ?_⟩) rfl
      fun d hd => hd
    · intro i
      rw [modify_coros]
      split
      · rename_i hi
        rw [hi, hd₁]
        rfl
      · rfl
    · intro tk htk
      by_cases hh : tk.handle = d
      · obtain ⟨ct, hct, hsl⟩ := t₁.timer tk htk
        rw [hh, hd₁] at hct
        cases hct
        exact Or.inr ⟨hh, hsl⟩
      · exact Or.inl ⟨htk, hh⟩
    · intro i ci _ hci hfi hn
      obtain ⟨cp, hcp, haw, hsus⟩ := t₁.next i ci d hci hfi hn
      rw [hd₁] at hcp
      cases hcp
      exact ⟨haw, hsus⟩
    · intro p _ hn
      simp only [Option.some.injEq] at hn
      subst hn
      exact ⟨_, by rw [modify_coros_of_ne (Ne.symm hne)]; exact hme₁, rfl, rfl⟩
    · refine hrow.mono fun i _ ho => ⟨ho.1, fun ci hci => ?_⟩
      rcases modify_coros_eq_some.mp hci with ⟨hi, c₁, hc₁, rfl⟩ | ⟨-, hci⟩
      · exact ho.2 c₁ (by rw [hi]; exact hc₁)
      · exact ho.2 ci hci
    · refine (t₁.onStack d (by simp)).trans ⟨?_, fun hrun => ⟨cd, hd₁, hrun⟩⟩
      rintro ⟨c', hc', hrun⟩
      rw [hd₁] at hc'
      cases hc'
      exact hrun
  exact t₂.schedule (c := { cd with next := some me }) (by rw [modify_coros_self, hd₁]; rfl) hr hf

/-- `await_suspend` of one of the connection's coroutines sets kSuspend before
it posts, and may yet throw. -/
theorem setSuspend (t : Table (some h) s) : Table (some h) (s.setState .kSuspend h) := by
  obtain ⟨c, hc, -, hf, hzero, hnot⟩ := t.between h rfl
  refine t.of_update { c with state := .kSuspend } (Or.inr rfl) hc rfl ?_ (fun _ _ => rfl)
    (fun tk htk => Or.inl ⟨htk, handle_ne_of_count_eq_zero hzero htk⟩) (fun _ _ => Iff.rfl)
    t.sorted id ?_ ?_ (Or.inr ⟨rfl, by simp, hf, hzero, hnot⟩) rfl fun _ hd => hd
  · intro i
    rw [setState, modify_coros]
    split
    · rename_i hi
      rw [hi, hc]
      rfl
    · rfl
  · intro i ci _ hci hfi hn
    obtain ⟨cp, hcp, haw, -⟩ := t.next i ci h hci hfi hn
    rw [hc] at hcp
    cases hcp
    exact ⟨haw, rfl⟩
  · intro p _ hn
    obtain ⟨cp, hcp, haw, hsus⟩ := t.next h c p hc hf hn
    by_cases hp : p = h
    · subst hp
      rw [hc] at hcp
      cases hcp
      exact ⟨{ c with state := .kSuspend }, by rw [setState, modify_coros_self, hc]; rfl, haw, rfl⟩
    · exact ⟨cp, by rw [setState, modify_coros_of_ne hp]; exact hcp, haw, hsus⟩

/-! ## The end of a body -/

/-- `Clean` only looks at which coroutines are gone. -/
theorem clean_of_isSome (hs : Clean s s') (h : ∀ i, (s₁.coros i).isSome = (s'.coros i).isSome) :
    Clean s s₁ := by
  intro i hi hgone
  have hgone' : s'.coros i = none := by
    have := h i
    rw [hgone] at this
    exact Option.not_isSome_iff_eq_none.mp (by simp [← this])
  obtain ⟨h₁, h₂, h₃⟩ := hs i hi hgone'
  exact ⟨h₁, h₂, fun j c hj hl hf => h₃ j c hj (by rw [← h j]; exact hl) hf⟩

/-- What may be destroyed stays so while queues and stack shrink. -/
theorem clean_of_le (hs : Clean s s') (hq : ∀ i, s₁.queued.count i ≤ s.queued.count i)
    (hr : ∀ i ∈ s₁.running, i ∈ s.running)
    (hc : ∀ i c, s₁.coros i = some c → ∃ c₀, s.coros i = some c₀ ∧ c₀.next = c.next ∧
      c₀.point = c.point) : Clean s₁ s' := by
  intro i hi hgone
  obtain ⟨c, hci⟩ := Option.isSome_iff_exists.mp hi
  obtain ⟨c₀, hc₀, -⟩ := hc i c hci
  obtain ⟨h₁, h₂, h₃⟩ := hs i (by rw [hc₀]; rfl) hgone
  refine ⟨by have := hq i; omega, fun hm => h₂ (hr i hm), fun j cj hj hl hf => ?_⟩
  obtain ⟨cj₀, hj₀, hn, hp⟩ := hc j cj hj
  rw [← hn]
  exact h₃ j cj₀ hj₀ hl (by rw [hp]; exact hf)

/-- **The end of a body** of the coroutine between suspension points. -/
theorem finish {o : Outcome V} (t : Table (some h) s) (hf : s.finish h o = some s')
    (haw : ∀ c, s.coros h = some c → c.point.awaited = none ∨ c.state ≠ .kSuspend)
    (hclean : Clean s s') : Table none s' := by
  obtain ⟨c, hc, s₁, he, hc₁, hcase⟩ := finish_cases hf
  have hiff : ∀ i, (s₁.coros i).isSome = (s'.coros i).isSome := by
    intro i
    rcases hcase with ⟨-, rfl⟩ | ⟨p, cp, -, -, rfl⟩
    · rw [modify_coros_isSome]
    · rw [call_coros, setState, modify_coros_isSome, modify_coros_isSome]
  have t₁ : Table (some h) s₁ := t.of_erased he (clean_of_isSome hclean hiff) fun i hi => by
    cases hi
    simp [hc₁]
  obtain ⟨c₀, hc₀, hst, -, -, hnot⟩ := t₁.between h rfl
  rw [hc₁] at hc₀
  cases hc₀
  have hnext := t₁.next_ne hc₁ (haw c hc)
  -- the coroutine is at its final suspension point
  have hmod : s₁.modify h (fun c => { c with point := .final, result := some o, locals := [] }) =
      Loop.modify h (fun _ => { c with point := .final, result := some o, locals := [] })
        { s₁ with stack := s₁.stack, world := s₁.world } := modify_congr hc₁ rfl
  have t₂ := t₁.settle { c with point := .final, result := some o, locals := [] }
    s₁.stack s₁.world hc₁ (fun i _ => Iff.rfl) t₁.sorted hnext
    (fun p hff _ => by simp [Point.isFinal] at hff)
    ⟨fun hm => absurd hm hnot, fun hr => by simp [Point.isRunning] at hr⟩
    ⟨hst, rfl⟩ rfl (fun d hd => by cases hd)
  rw [← hmod] at t₂
  rcases hcase with ⟨-, rfl⟩ | ⟨p, cp, hn, hcp, rfl⟩
  · exact t₂
  -- its waiter is called, and may go on since what it awaits is over
  · obtain ⟨cp', hcp', hpa, hsus⟩ := t₁.next h c p hc₁ (by
      obtain ⟨c₀, hc₀, -, hff, -⟩ := t₁.between h rfl
      rw [hc₁] at hc₀
      cases hc₀
      exact hff) hn
    rw [hcp] at hcp'
    cases hcp'
    have hph : p ≠ h := fun hph => hnext h c hc₁ (by
      obtain ⟨c₀, hc₀, -, hff, -⟩ := t₁.between h rfl
      rw [hc₁] at hc₀
      cases hc₀
      exact hff) (hph ▸ hn)
    have hcp₂ := (modify_coros_of_ne (s := s₁)
      (f := fun c => { c with point := .final, result := some o, locals := [] }) hph).trans hcp
    have hpoint : ∃ k, cp.point = .await h k := by
      cases hp : cp.point <;> rw [hp] at hpa <;> simp only [Point.awaited, reduceCtorEq,
        Option.some.injEq] at hpa
      exact ⟨_, by rw [hpa]⟩
    obtain ⟨k, hpk⟩ := hpoint
    refine t₂.call hcp₂ ((t₂.row p cp hcp₂ (by simp)).count_eq_zero (by rw [hsus]; decide))
      (by rw [hpk]; rfl) ?_ ?_
    · intro i ci hci hfi hni
      obtain ⟨cp', hcp', hpa', -⟩ := t₂.next i ci p hci hfi hni
      rw [hcp₂] at hcp'
      cases hcp'
      rw [hpa, Option.some.injEq] at hpa'
      subst hpa'
      rcases modify_coros_eq_some.mp hci with ⟨-, c₁, -, rfl⟩ | ⟨hhh, -⟩
      · simp [Point.isFinal] at hfi
      · exact hhh rfl
    · rw [hpk]
      refine Or.inr ⟨rfl, rfl, t₁.fresh h c hc₁, fun ch hch => ?_⟩
      rcases modify_coros_eq_some.mp hch with ⟨-, c₁, -, rfl⟩ | ⟨hhh, -⟩
      · rfl
      · exact absurd rfl hhh

end Table

/-! ## The step lemma -/

/-- **What the table asks of a step.** -/
structure StepOk (w : World A X V) (code : Loc → Op Loc G A V) (s s' : Loop Loc G A X V) :
    Prop where
  clean : Table.Clean s s'
  await : ∀ me l rest h k, s.stack = (me, l) :: rest → code l = .await h k → h ∉ s.running
  events : RoundStep w s s' → ∀ events x, w.poll s.world = (.ok events, x) →
    events.Nodup ∧ ∀ h ∈ events, ∃ c, s.coros h = some c ∧ c.point.isIo = true ∧
      c.state = .kSuspend

namespace Table

/-- The body's operations. -/
theorem exec {now : ℤ} (t : Table none s) (hs : s.exec code now = some s')
    (hclean : Clean s s')
    (hawait : ∀ me l rest h k, s.stack = (me, l) :: rest → code l = .await h k →
      h ∉ s.running) : Table none s' := by
  obtain ⟨me, l, rest, hstack, hop⟩ := operation_of_exec hs
  have hrun : ∀ l', ((me, l') :: rest).map Prod.fst = s.running := by
    simp [running, hstack]
  have hmem : me ∈ s.running := by
    rw [← hrun l]
    exact List.mem_cons_self
  obtain ⟨cme, hcme, hcrun⟩ := (t.onStack me (by simp)).mp hmem
  have hlt := t.fresh me cme hcme
  have hstate : cme.state = .kUnschedule := by
    have := t.row me cme hcme (by simp)
    cases hp : cme.point <;> rw [hp] at hcrun this <;> first | exact this.1 | cases hcrun
  cases hop with
  | step f _ he | keep d k cd _ _ _ _ he | got d k cd _ _ _ he | done d k cd _ _ he =>
    subst he
    exact t.of_fields _ rfl rfl rfl rfl (hrun _)
  | spawn c sched inner l' hmade he =>
    subst he
    obtain ⟨hlocals, hnext, hcreator, hawaited⟩ := hmade.blank
    refine (Table.addLocal (s := { s.spawn c with
      schedule := sched, stack := inner ++ (me, l') :: rest }) (h := me) (d := s.seq) ?_
        ⟨hlt, Nat.lt_succ_self _⟩).of_fields _ rfl rfl rfl rfl rfl
    refine t.of_spawn hlt rfl (fun i => rfl) hmade.count_queued (fun _ => hmade.mem_schedule)
      ((hmade.running rest).trans ?_) ?_ hnext hcreator hlocals hawaited
    · rw [← hrun l]
      rfl
    · cases hmade with
      | call | io => exact Or.inl ⟨rfl, rfl⟩
      | oneway | sleep => exact ⟨rfl, rfl⟩
  | future h k c _ hc hholds hf he =>
    subst he
    have hmeh : me < h := by
      simp only [holds, hcme, decide_eq_true_eq] at hholds
      exact (t.locals me cme h hcme hholds).1
    have hsort : ∀ i ∈ s.running, i ≤ me := by
      have hp := t.sorted
      rw [← hrun l, List.map_cons, List.pairwise_cons] at hp
      intro i hi
      rw [← hrun l, List.map_cons, List.mem_cons] at hi
      rcases hi with rfl | hi
      · exact le_refl _
      · exact Nat.le_of_lt (hp.1 i hi)
    have t₁ := t.schedule hc (fun hm => absurd (hsort h hm) (by omega)) hf
    refine t₁.of_fields _ rfl rfl rfl rfl ?_
    show ((me, k) :: rest).map Prod.fst = _
    rw [hrun]
    unfold Handle.schedule running
    simp only [hc]
    split <;> rfl
  | suspend h k c hop hc hf he =>
    subst he
    have hnot := hawait me l rest h k hstack hop
    rw [← hrun l, List.map_cons, List.mem_cons, not_or] at hnot
    exact (t.pop_stack hstack).awaitSuspend hcme (by rw [hstate]; decide) hc hf hnot.1 hnot.2
  | destroy h k _ _ he =>
    subst he
    have t₁ : Table none ({ s with stack := (me, k) :: rest }.dropLocal me h) :=
      (t.of_fields { s with stack := (me, k) :: rest } rfl rfl rfl rfl (hrun _)).dropLocal
    refine t₁.of_erased (erased_destroy _ _ _) ?_ (fun i hi => by cases hi)
    refine clean_of_le hclean (fun i => le_refl _) (fun i hi => by rw [← hrun k]; exact hi) ?_
    intro i c hc
    rcases modify_coros_eq_some.mp hc with ⟨hi, c₀, hc₀, rfl⟩ | ⟨-, hc⟩
    · exact ⟨c₀, by rw [hi]; exact hc₀, rfl, rfl⟩
    · exact ⟨c, hc, rfl, rfl⟩
  | release h k _ _ he =>
    subst he
    exact (t.of_fields { s with stack := (me, k) :: rest } rfl rfl rfl rfl (hrun _)).dropLocal
  | ret o _ hs =>
    refine (t.pop_stack hstack).finish hs ?_ ?_
    · intro c hc
      rw [hcme] at hc
      cases hc
      exact Or.inr (by rw [hstate]; decide)
    · refine clean_of_le hclean (fun i => le_refl _) (fun i hi => ?_)
        fun i c hc => ⟨c, hc, rfl, rfl⟩
      rw [← hrun l, List.map_cons]
      exact List.mem_cons_of_mem _ hi

/-- One iteration of the loop of `Runone`. -/
theorem resume (t : Table none s) (hstack : s.stack = []) (hs : s.resume w = some s')
    (hclean : Clean s s') : Table none s' := by
  obtain ⟨h, n, q, c, -, hready, hc, hit⟩ := iteration_of_resume hs
  have t₁ : Table (some h) (s.popped h n q) := t.pop_ready hready hc
  have hc₁ : (s.popped h n q).coros h = some { c with state := .kUnschedule } := popped_coros_self hc
  have hclean₁ : Clean (s.popped h n q) s' := by
    refine clean_of_le hclean (fun i => ?_) (fun i hi => hi) fun i ci hci => ?_
    · simp only [Loop.queued, popped_ready, popped_schedule, hready, List.cons_append]
      exact List.count_le_count_cons
    · obtain ⟨c₀, hc₀, rfl | ⟨-, rfl⟩⟩ := popped_coros_eq_some hci
      · exact ⟨_, hc₀, rfl, rfl⟩
      · exact ⟨c₀, hc₀, rfl, rfl⟩
  have hend : ∀ (o : Outcome V) (x : X),
      Loop.finish h o { s.popped h n q with world := x } = some s' → Table none s' := by
    intro o x hf
    refine (t₁.of_fields { s.popped h n q with world := x } rfl rfl rfl rfl rfl).finish hf ?_ hclean₁
    intro c' hc'
    rw [show Loop.coros { s.popped h n q with world := x } h = some { c with state := .kUnschedule }
      from hc₁] at hc'
    cases hc'
    exact Or.inr (by simp)
  cases hit with
  | initial l _ he | await d k cd _ _ he =>
    subst he
    exact t₁.start hc₁ rfl hstack _
  | refused a e _ _ hf | sleep _ hf => exact hend _ (s.popped h n q).world hf
  | io a _ hf => exact hend _ _ hf
  | failed a e x x' hp _ _ hf =>
    have t₂ := (t₁.of_fields { s.popped h n q with world := x' } rfl rfl rfl rfl rfl).setSuspend
    refine t₂.finish hf ?_ (clean_of_le hclean₁ (fun i => le_refl _) (fun i hi => hi) ?_)
    · intro c' hc'
      rw [setState, modify_coros_self, show Loop.coros { s.popped h n q with world := x' } h = _
        from hc₁, Option.map_some, Option.some.injEq] at hc'
      rw [← hc', hp]
      exact Or.inl rfl
    · intro i ci hci
      rcases modify_coros_eq_some.mp hci with ⟨hi, c₀, hc₀, rfl⟩ | ⟨-, hci⟩
      · exact ⟨c₀, by rw [hi]; exact hc₀, rfl, rfl⟩
      · exact ⟨ci, hci, rfl, rfl⟩
  | posted a x x' _ _ _ he =>
    subst he
    exact t₁.suspendIo hc₁ (Or.inr (by simp))

/-- **The step lemma.** -/
theorem step (t : Table none s) (hs : Step w code s s') (hok : StepOk w code s s') :
    Table none s' := by
  cases hs with
  | exec now hs => exact t.exec hs hok.clean hok.await
  | resume hstack hs => exact t.resume hstack hs hok.clean
  | round hs =>
    have hev := hok.events hs
    cases hs with
    | @mk s₁ now events x hhead hstop hpoll hcall =>
      obtain ⟨hnodup, hev⟩ := hev events x hpoll
      have t₁ := t.of_fields { s with world := x } rfl rfl rfl rfl rfl
      exact (t₁.callAll hnodup hev hcall).runone now
  | env hs => exact t.of_fields _ rfl rfl rfl rfl rfl

/-- The loop that `Run` starts has a table. -/
theorem boot (isVoid : Bool) (l : Loc) (g : G) (x : X) :
    Table none (Loop.boot isVoid l g x : Loop Loc G A X V) := by
  have t : Table none ({
      seq := 1
      coros := fun i => if i = 0 then some (.new (.initial l) isVoid none) else none
      ready := [], schedule := [], left := 0, stack := [], mem := g, world := x } :
      Loop Loc G A X V) := by
    constructor
    · intro h c hc _
      rw [Option.ite_none_right_eq_some] at hc
      obtain ⟨-, hc⟩ := hc
      cases hc
      exact Or.inl ⟨rfl, rfl⟩
    · intro h hh
      cases hh
    · exact fun _ _ => rfl
    · intro h c hc
      rw [Option.ite_none_right_eq_some] at hc
      rw [hc.1]
      exact Nat.zero_lt_one
    · intro h _
      refine ⟨fun hm => (by cases hm), fun ⟨c, hc, hr⟩ => ?_⟩
      rw [Option.ite_none_right_eq_some] at hc
      obtain ⟨-, hc⟩ := hc
      cases hc
      cases hr
    · exact List.Pairwise.nil
    · intro h c p hc _ hn
      rw [Option.ite_none_right_eq_some] at hc
      obtain ⟨-, hc⟩ := hc
      cases hc
      cases hn
    · exact fun _ htk => by cases htk
    · intro h c p hc hcr
      rw [Option.ite_none_right_eq_some] at hc
      obtain ⟨-, hc⟩ := hc
      cases hc
      cases hcr
    · intro h c d hc hd
      rw [Option.ite_none_right_eq_some] at hc
      obtain ⟨-, hc⟩ := hc
      cases hc
      cases hd
  exact t.schedule (h := 0) (c := .new (.initial l) isVoid none) rfl (by simp [running]) rfl

end Table

end EfaExamples
