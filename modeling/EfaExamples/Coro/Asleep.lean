import EfaExamples.Coro.Clock
/-!
# A sleeper stays out of `ready_`

Nothing awaits for a sleeping coroutine and no body is its own, so nothing calls it:
in the loop of `src/coro` its handle comes to `ready_` only when a round moves its
task. This is of any program.
-/

namespace EfaExamples

open Loop

variable {Loc G V : Type} {code : Loc → Op Loc G Empty V}
variable {s s' s₁ : Loop Loc G Empty Unit V} {h i : ℕ} {now : ℤ} {moved : List Task}

/-- **The handle is not called by anyone**: it is not in `ready_` and not executing, is nobody's
`next`, and would not be scheduled. -/
structure Asleep (s : Loop Loc G Empty Unit V) (h : ℕ) : Prop where
  ready : h ∉ s.ready
  running : h ∉ s.running
  next : ∀ i c, s.coros i = some c → c.next ≠ some h
  state : ∀ c, s.coros h = some c → c.state = .kScheduled

namespace Asleep

/-- Only `ready_`, the stack and the coroutines matter. -/
theorem of_fields (ha : Asleep s h) (hready : s'.ready = s.ready)
    (hrunning : ∀ i ∈ s'.running, i ∈ s.running)
    (hcoros : ∀ i c, s'.coros i = some c → s.coros i = some c) : Asleep s' h where
  ready := hready ▸ ha.ready
  running hm := ha.running (hrunning h hm)
  next i c hc := ha.next i c (hcoros i c hc)
  state c hc := ha.state c (hcoros h c hc)

/-- One coroutine is written to. -/
theorem modify {f : Coro Loc Empty V → Coro Loc Empty V} (ha : Asleep s h)
    (hnext : ∀ c, s.coros i = some c → (f c).next ≠ some h)
    (hstate : i = h → ∀ c, s.coros i = some c → (f c).state = .kScheduled) :
    Asleep (s.modify i f) h where
  ready := ha.ready
  running := ha.running
  next j c hc := by
    rcases modify_coros_eq_some.mp hc with ⟨rfl, c₀, hc₀, rfl⟩ | ⟨-, hc⟩
    · exact hnext c₀ hc₀
    · exact ha.next j c hc
  state c hc := by
    rcases modify_coros_eq_some.mp hc with ⟨rfl, c₀, hc₀, rfl⟩ | ⟨-, hc⟩
    · exact hstate rfl c₀ hc₀
    · exact ha.state c hc

theorem call (ha : Asleep s h) (hi : i ≠ h) : Asleep (s.call i) h where
  ready hm := by
    rw [call_ready, List.mem_append, List.mem_singleton] at hm
    exact hm.elim ha.ready fun he => hi he.symm
  running := ha.running
  next j c hc := by
    rcases modify_coros_eq_some.mp hc with ⟨rfl, c₀, hc₀, rfl⟩ | ⟨-, hc⟩
    · exact ha.next j c₀ hc₀
    · exact ha.next j c hc
  state c hc := by
    rcases modify_coros_eq_some.mp hc with ⟨he, -⟩ | ⟨-, hc⟩
    · exact absurd he.symm hi
    · exact ha.state c hc

/-- A coroutine is made. -/
theorem spawn {c : Coro Loc Empty V} (ha : Asleep s h) (hn : c.next = none)
    (hst : s.seq = h → c.state = .kScheduled) : Asleep (s.spawn c) h where
  ready := ha.ready
  running := ha.running
  next i c' hc := by
    rw [spawn_coros] at hc
    split at hc
    · obtain rfl := Option.some.inj hc
      simp [hn]
    · exact ha.next i c' hc
  state c' hc := by
    rw [spawn_coros] at hc
    split at hc
    · rename_i hh
      obtain rfl := Option.some.inj hc
      exact hst hh.symm
    · exact ha.state c' hc

/-- A `Future` of the sleeper leaves it alone. -/
theorem schedule (ha : Asleep s h) : Asleep (Handle.schedule i s) h := by
  unfold Handle.schedule
  split
  · rename_i c hc
    split
    · rename_i hst
      refine ha.call ?_
      rintro rfl
      rw [ha.state c hc] at hst
      cases hst
    · exact ha
  · exact ha

/-- The end of another body does not call it. -/
theorem finish {o : Outcome V} (ha : Asleep s h) (hi : i ≠ h) (hf : s.finish i o = some s') :
    Asleep s' h := by
  obtain ⟨c, hc, s₁, he, hc₁, hcase⟩ := finish_cases hf
  have ha₁ : Asleep s₁ h := ha.of_fields he.ready
    (fun j hj => by rwa [Loop.running, he.stack] at hj) fun j c hc => he.coros_eq hc
  have ha₂ : Asleep (s₁.modify i fun c =>
      { c with point := .final, result := some o, locals := [] }) h :=
    ha₁.modify (fun c hc => ha₁.next i c hc) fun hih => absurd hih hi
  rcases hcase with ⟨-, rfl⟩ | ⟨p, cp, hn, -, rfl⟩
  · exact ha₂
  · refine ha₂.call ?_
    rintro rfl
    exact ha.next i c hc hn

/-- **An operation**, unless it makes the coroutine, and not as a `Sleep`. -/
theorem exec (ha : Asleep s h) (hs : s.exec code now = some s')
    (hborn : s.seq = h → s'.seq ≠ h → ∃ delay, s.Sleeps code delay) : Asleep s' h := by
  obtain ⟨me, l, rest, hstack, hop⟩ := operation_of_exec hs
  have hme : me ≠ h := by
    rintro rfl
    exact ha.running (by simp [Loop.running, hstack])
  have hrest : ∀ i ∈ rest.map Prod.fst, i ∈ s.running := fun i hi => by
    rw [Loop.running, hstack]
    exact List.mem_cons_of_mem _ hi
  have htop : ∀ (l' : Loc) (mem : G), Asleep { s with mem := mem, stack := (me, l') :: rest } h :=
    fun l' mem => ha.of_fields rfl (fun i hi => by rw [Loop.running, hstack]; exact hi)
      fun _ _ hc => hc
  have hpop : Asleep ({ s with stack := rest } : Loop Loc G Empty Unit V) h :=
    ha.of_fields rfl hrest fun _ _ hc => hc
  cases hop with
  | step f _ he => exact he ▸ htop _ _
  | keep d k c _ _ _ _ he | got d k c _ _ _ he | done d k c _ _ he => exact he ▸ htop _ s.mem
  | spawn c sched inner l' hm he =>
    obtain ⟨hblank, hnext, -, -⟩ := hm.blank
    -- if it is the sleeper that is made, it is made by `Sleep`
    have hsleep : s.seq = h → c.state = .kScheduled ∧ inner = [] := by
      intro hh
      have hseq : s'.seq ≠ h := by
        rw [he]
        show s.seq + 1 ≠ h
        omega
      obtain ⟨delay, me', l₁, rest', k, hstack', hcode⟩ := hborn hh hseq
      obtain ⟨htop, -⟩ := List.cons.inj (hstack'.symm.trans hstack)
      obtain ⟨-, rfl⟩ := Prod.mk.inj htop
      cases hm with
      | call isVoid l' k hc | oneway isVoid l' k hc | io a k hc =>
        rw [hc] at hcode
        cases hcode
      | sleep delay k hc => exact ⟨rfl, rfl⟩
    have hinner : ∀ i ∈ inner.map Prod.fst, i ≠ h := by
      intro i hi hih
      cases hm with
      | call | io | sleep => cases hi
      | oneway isVoid l' k hc =>
        rw [List.map_singleton, List.mem_singleton] at hi
        obtain ⟨-, hnil⟩ := hsleep (hi.symm.trans hih)
        cases hnil
    have hspawn : Asleep (s.spawn c) h := ha.spawn hnext fun hh => (hsleep hh).1
    have hlocal : Asleep ((s.spawn c).addLocal me s.seq) h :=
      hspawn.modify (fun c hc => hspawn.next me c hc) fun hih => absurd hih hme
    refine he ▸ ⟨hlocal.ready, fun hmem => ?_, hlocal.next, hlocal.state⟩
    simp only [Loop.running, List.map_append, List.map_cons, List.mem_append,
      List.mem_cons] at hmem
    rcases hmem with hmem | hmem | hmem
    · exact hinner h hmem rfl
    · exact hme hmem.symm
    · exact ha.running (hrest h hmem)
  | future d k c _ _ _ _ he =>
    exact he ▸ (ha.schedule (i := d)).of_fields rfl
      (fun i hi => by rw [Loop.running, schedule_stack, hstack]; exact hi) fun _ _ hc => hc
  | suspend d k c _ _ _ he =>
    have hstate := hpop.modify (i := me) (f := fun c => { c with state := .kSuspend })
      (fun c hc => ha.next me c hc) fun hih => absurd hih hme
    have hpoint := hstate.modify (i := me) (f := fun c => { c with point := .await d k })
      (fun c hc => hstate.next me c hc) fun hih => absurd hih hme
    have hnext := hpoint.modify (i := d) (f := fun c => { c with next := some me })
      (fun c _ hn => hme (Option.some.inj hn)) fun hih c hc => hpoint.state c (hih ▸ hc)
    exact he ▸ hnext.schedule
  | destroy d k _ _ he =>
    have ha₁ : Asleep (Loop.dropLocal me d { s with stack := (me, k) :: rest }) h :=
      (htop k s.mem).modify (fun c hc => ha.next me c hc) fun hih => absurd hih hme
    have he₁ := erased_destroy s.seq d (Loop.dropLocal me d { s with stack := (me, k) :: rest })
    exact he ▸ ha₁.of_fields he₁.ready (fun j hj => by rwa [Loop.running, he₁.stack] at hj)
      fun j c hc => he₁.coros_eq hc
  | release d k _ _ he =>
    exact he ▸ (htop k s.mem).modify (fun c hc => ha.next me c hc) fun hih => absurd hih hme
  | ret o _ hf => exact hpop.finish hme hf

/-- **An iteration of `Runone`**: it is another's. -/
theorem resume (ha : Asleep s h) (hs : s.resume coroWorld = some s') : Asleep s' h := by
  obtain ⟨i, n, q, c, -, hready, -, hit⟩ := iteration_of_resume hs
  have hi : i ≠ h := by
    rintro rfl
    exact ha.ready (by rw [hready]; exact List.mem_cons_self)
  have hpopped : Asleep (s.popped i n q) h := by
    have hq : Asleep ({ s with left := n, ready := q } : Loop Loc G Empty Unit V) h :=
      ⟨fun hm => ha.ready (by rw [hready]; exact List.mem_cons_of_mem _ hm), ha.running, ha.next,
        ha.state⟩
    exact hq.modify (fun c hc => ha.next i c hc) fun hih => absurd hih hi
  have hbegin : ∀ l, Asleep { (s.popped i n q).setPoint .running i with stack := [(i, l)] } h := by
    intro l
    have hpoint := hpopped.modify (i := i) (f := fun c => { c with point := .running })
      (fun c hc => hpopped.next i c hc) fun hih => absurd hih hi
    refine ⟨hpoint.ready, fun hm => ?_, hpoint.next, hpoint.state⟩
    rw [Loop.running, List.map_singleton, List.mem_singleton] at hm
    exact hi hm.symm
  cases hit with
  | initial l _ he => exact he ▸ hbegin l
  | await d k cd _ _ he => exact he ▸ hbegin _
  | sleep _ hf => exact hpopped.finish hi hf
  | refused a | failed a | posted a | io a => exact a.elim

/-- **A step** keeps the sleeper out of `ready_`, unless it is a round that moves it. -/
theorem step (ha : Asleep s h) (hs : StepAt coroWorld code now moved s s')
    (hborn : s.seq = h → s'.seq ≠ h → ∃ delay, s.Sleeps code delay) :
    h ∈ moved.map Task.handle ∨ Asleep s' h := by
  cases hs with
  | exec hs => exact Or.inr (ha.exec hs hborn)
  | resume _ hs => exact Or.inr (ha.resume hs)
  | round hs =>
    cases hs with
    | @mk s s₁ events x hhead hstop hpoll hcall =>
      obtain ⟨rfl, rfl⟩ : [] = events ∧ s.world = x := by
        simpa [coroWorld] using hpoll
      obtain rfl : s = s₁ := Option.some.inj hcall
      by_cases hm : h ∈ (Task.due (time now) s.schedule).map Task.handle
      · exact Or.inl hm
      · refine Or.inr ⟨fun hr => ?_, ha.running, ha.next, ha.state⟩
        rw [runone, Task.drain_eq] at hr
        exact (List.mem_append.mp hr).elim ha.ready hm
  | env hs => exact hs.elim

/-- Before the loop starts no handle but the root's has been given out. -/
theorem boot {isVoid : Bool} {l : Loc} {g : G} (hh : h ≠ 0) :
    Asleep (Loop.boot isVoid l g () : Loop Loc G Empty Unit V) h := by
  rw [boot_eq]
  refine ⟨by simpa using hh, by simp [Loop.running], fun i c hc => ?_, fun c hc => ?_⟩
  · dsimp only at hc
    split at hc
    · rw [← Option.some.inj hc]
      simp [Coro.new]
    · cases hc
  · simp [hh] at hc

end Asleep

end EfaExamples
