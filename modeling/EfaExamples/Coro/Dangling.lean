import EfaExamples.Common.Run
import EfaExamples.Coro.Frames
import EfaExamples.Coro.Waiting
/-!
# References to coroutines

A handle stands in `ready_`, in `schedule_`, in the `next` of another
coroutine, or outside the loop. `Coro::Destroy` calls `Handle::cancel`, which
takes it out of none of them. `NoDangling` says that no reference is to a
coroutine that is gone, and `NoDangling.step` that a step keeps it if what
the step destroys, if anything, leaves it true. This is of any program: the
frames alone see to it that every other reference a step makes is to a
coroutine that exists.
-/

namespace EfaExamples

open Loop

variable {Loc G A X V : Type} {w : World A X V} {code : Loc → Op Loc G A V}
variable {s s' s₁ : Loop Loc G A X V} {h d i : ℕ} {c : Coro Loc A V}
variable {f : Coro Loc A V → Coro Loc A V}

/-- What a world whose references are `refs` does to them: only a post makes a
new one, of the coroutine that posts, and events are among them. -/
structure World.Keeps (w : World A X V) (refs : X → ℕ → Prop) : Prop where
  enter : ∀ {a x x' i}, w.enter a x = .ok x' → refs x' i → refs x i
  post : ∀ {a h x i}, refs (w.post a h x).2 i → refs x i ∨ i = h
  resume : ∀ {a h x i}, refs (w.resume a h x).2 i → refs x i
  poll : ∀ {x events x' i}, w.poll x = (.ok events, x') → refs x' i → refs x i
  events : ∀ {x events x' i}, w.poll x = (.ok events, x') → i ∈ events → refs x i
  env : ∀ {x x' i}, w.env x x' → refs x' i → refs x i

/-- Something refers to the coroutine of a handle. -/
inductive Refers (refs : X → ℕ → Prop) (s : Loop Loc G A X V) (h : ℕ) : Prop
  | ready : h ∈ s.ready → Refers refs s h
  | schedule : h ∈ s.schedule.map Task.handle → Refers refs s h
  | next (i : ℕ) (c : Coro Loc A V) : s.coros i = some c → c.next = some h → Refers refs s h
  | world : refs s.world h → Refers refs s h

/-- **A coroutine that is gone is referred to by nothing.** -/
def NoDangling (refs : X → ℕ → Prop) (s : Loop Loc G A X V) : Prop :=
  ∀ h, Refers refs s h → (s.coros h).isSome = true

namespace Loop

/-- What the executing body's operation destroys is gone in the state it gives,
and nothing else has happened yet: the end of a `Coro`'s life, or of a body
and with it of its locals. -/
def destruction (code : Loc → Op Loc G A V) (s : Loop Loc G A X V) : Option (Loop Loc G A X V) :=
  match s.stack with
  | [] => none
  | (me, l) :: rest =>
    match code l with
    | .destroy h k =>
      if s.holds me h then
        some (({ s with stack := (me, k) :: rest }.dropLocal me h).destroy s.seq h)
      else none
    | .ret _ => (s.coros me).map fun c => { s with stack := rest }.destroyLocals c.locals
    | _ => none

end Loop

namespace NoDangling

variable {refs : X → ℕ → Prop}

/-! ## The changes a step is made of -/

/-- No coroutine goes, and every new reference is to one that exists. -/
theorem of_refers (nd : NoDangling refs s)
    (hlive : ∀ i, (s.coros i).isSome = true → (s'.coros i).isSome = true)
    (hrefers : ∀ i, Refers refs s' i → Refers refs s i ∨ (s'.coros i).isSome = true) :
    NoDangling refs s' := by
  intro i hi
  rcases hrefers i hi with hi | hi
  · exact hlive i (nd i hi)
  · exact hi

/-- Only the coroutines, the queues and the world matter. -/
theorem of_fields (s' : Loop Loc G A X V) (nd : NoDangling refs s) (hcoros : s'.coros = s.coros)
    (hready : ∀ i ∈ s'.ready, i ∈ s.ready ∨ (s.coros i).isSome = true)
    (hschedule : s'.schedule = s.schedule)
    (hworld : ∀ i, refs s'.world i → refs s.world i ∨ (s.coros i).isSome = true) :
    NoDangling refs s' := by
  refine nd.of_refers (by rw [hcoros]; exact fun _ => id) fun i hi => ?_
  rw [hcoros]
  cases hi with
  | ready hi => exact (hready i hi).imp .ready id
  | schedule hi => exact Or.inl (.schedule (by rw [← hschedule]; exact hi))
  | next j c hc hn => exact Or.inl (.next j c (by rw [← hcoros]; exact hc) hn)
  | world hi => exact (hworld i hi).imp .world id

/-- One coroutine is written to, and its `next` is to one that exists. -/
theorem modify (nd : NoDangling refs s)
    (hf : ∀ c p, s.coros h = some c → (f c).next = some p →
      c.next = some p ∨ (s.coros p).isSome = true) : NoDangling refs (s.modify h f) := by
  refine nd.of_refers (fun i hi => by rw [modify_coros_isSome]; exact hi) fun i hi => ?_
  rw [modify_coros_isSome]
  cases hi with
  | ready hi => exact Or.inl (.ready hi)
  | schedule hi => exact Or.inl (.schedule hi)
  | next j c hc hn =>
    rcases modify_coros_eq_some.mp hc with ⟨rfl, c₀, hc₀, rfl⟩ | ⟨-, hc⟩
    · exact (hf c₀ i hc₀ hn).imp (.next j c₀ hc₀) id
    · exact Or.inl (.next j c hc hn)
  | world hi => exact Or.inl (.world hi)

/-- A write that leaves `next`. -/
theorem modify_of_next (nd : NoDangling refs s) (hf : ∀ c, (f c).next = c.next) :
    NoDangling refs (s.modify h f) :=
  nd.modify fun c p _ hn => Or.inl (by rw [← hf]; exact hn)

theorem call (nd : NoDangling refs s) (hh : (s.coros h).isSome = true) :
    NoDangling refs (s.call h) := by
  refine (nd.modify_of_next (h := h) (f := fun c => { c with state := .kScheduled })
    fun _ => rfl).of_fields _ rfl ?_ rfl fun _ => Or.inl
  intro i hi
  rcases List.mem_append.mp hi with hi | hi
  · exact Or.inl hi
  · rw [List.mem_singleton.mp hi, modify_coros_isSome]
    exact Or.inr hh

theorem schedule (nd : NoDangling refs s) : NoDangling refs (Handle.schedule h s) := by
  unfold Handle.schedule
  split
  · rename_i c hc
    split
    · exact nd.call (by rw [hc]; rfl)
    · exact nd
  · exact nd

/-- `await_suspend`, of a coroutine that exists. -/
theorem awaitSuspend {me : ℕ} {k : Outcome V → Loc} (nd : NoDangling refs s)
    (hme : (s.coros me).isSome = true) : NoDangling refs (s.awaitSuspend me d k) := by
  have nd₁ : NoDangling refs (s.setState .kSuspend me) := nd.modify_of_next fun _ => rfl
  have nd₂ : NoDangling refs ((s.setState .kSuspend me).setPoint (.await d k) me) :=
    nd₁.modify_of_next fun _ => rfl
  refine (nd₂.modify (h := d) (f := fun c => { c with next := some me })
    fun c p _ hp => Or.inr ?_).schedule
  rw [Option.some.injEq] at hp
  rw [← hp, setPoint, setState, modify_coros_isSome, modify_coros_isSome]
  exact hme

/-- A coroutine is made. -/
theorem spawn (nd : NoDangling refs s) (hn : c.next = none)
    (hcoros : ∀ i, s'.coros i = if i = s.seq then some c else s.coros i)
    (hready : s'.ready = s.ready)
    (hschedule : ∀ t ∈ s'.schedule, t ∈ s.schedule ∨ t.handle = s.seq)
    (hworld : s'.world = s.world) : NoDangling refs s' := by
  have hlive : ∀ i, (s.coros i).isSome = true → (s'.coros i).isSome = true := by
    intro i hi
    rw [hcoros]
    split
    · rfl
    · exact hi
  refine nd.of_refers hlive fun i hi => ?_
  cases hi with
  | ready hi => exact Or.inl (.ready (by rw [← hready]; exact hi))
  | schedule hi =>
    obtain ⟨t, ht, rfl⟩ := List.mem_map.mp hi
    rcases hschedule t ht with ht | ht
    · exact Or.inl (.schedule (List.mem_map_of_mem ht))
    · exact Or.inr (by rw [ht, hcoros, if_pos rfl]; rfl)
  | next j cj hcj hnj =>
    rw [hcoros] at hcj
    split at hcj
    · cases hcj
      rw [hn] at hnj
      cases hnj
    · exact Or.inl (.next j cj hcj hnj)
  | world hi => exact Or.inl (.world (by rw [← hworld]; exact hi))

/-- The rest of the end of a body, its locals being gone. -/
theorem finalSuspend {o : Outcome V} (nd : NoDangling refs s)
    (hf : (s.modify h fun c => { c with point := .final, result := some o, locals := [] }).finalSuspend
      h = some s') : NoDangling refs s' := by
  have nd₁ := nd.modify_of_next (h := h)
    (f := fun c => { c with point := .final, result := some o, locals := [] }) fun _ => rfl
  unfold Loop.finalSuspend at hf
  split at hf
  · cases hf
  · split at hf
    · cases hf
      exact nd₁
    · split at hf
      · rename_i hp
        cases hf
        exact nd₁.call hp
      · cases hf

/-- The end of a body that owns no coroutine. -/
theorem finish {o : Outcome V} (nd : NoDangling refs s) (hf : s.finish h o = some s')
    (hl : ∀ c, s.coros h = some c → c.locals = []) : NoDangling refs s' := by
  unfold Loop.finish at hf
  split at hf
  · cases hf
  · rename_i c hc
    rw [hl c hc] at hf
    exact nd.finalSuspend hf

theorem callAll : ∀ {events : List ℕ} {s : Loop Loc G A X V}, NoDangling refs s →
    s.callAll events = some s' → NoDangling refs s' := by
  intro events
  induction events with
  | nil =>
    intro s nd hs
    rw [Loop.callAll, Option.some.injEq] at hs
    rw [← hs]
    exact nd
  | cons e events ih =>
    intro s nd hs
    rw [Loop.callAll] at hs
    split at hs
    · rename_i he
      exact ih (nd.call he) hs
    · cases hs

end NoDangling

/-! ## One step -/

/-- **What a body's operation does** to frames and references. -/
theorem exec_noDangling {refs : X → ℕ → Prop} {now : ℤ} (fr : Frames s) (nd : NoDangling refs s)
    (hd : ∀ s₁ ∈ s.destruction code, NoDangling refs s₁) (hs : s.exec code now = some s') :
    Frames s' ∧ NoDangling refs s' := by
  obtain ⟨me, l, rest, hstack, hop⟩ := operation_of_exec hs
  obtain ⟨cme, hcme, hrun⟩ := fr.executing me (by simp [running, hstack])
  have hlt := fr.fresh me cme hcme
  have hgoto : ∀ l', Frames ({ s with stack := (me, l') :: rest } : Loop Loc G A X V) ∧
      NoDangling refs ({ s with stack := (me, l') :: rest } : Loop Loc G A X V) :=
    fun l' => ⟨fr.goto hstack l', nd.of_fields _ rfl (fun _ => Or.inl) rfl fun _ => Or.inl⟩
  have hdrop : ∀ (h : ℕ) (l' : Loc),
      Frames (dropLocal me h ({ s with stack := (me, l') :: rest } : Loop Loc G A X V)) ∧
      NoDangling refs (dropLocal me h ({ s with stack := (me, l') :: rest } : Loop Loc G A X V)) := by
    intro h l'
    refine ⟨(hgoto l').1.modify (fun c hc d hd => ?_) (fun c hc hlf => ?_) fun _ _ _ => rfl,
      (hgoto l').2.modify_of_next fun _ => rfl⟩
    · exact fr.locals me c hc d (List.mem_of_mem_filter hd)
    · show c.locals.filter _ = []
      rw [fr.leaf me c hc hlf]
      rfl
  cases hop with
  | step f _ he =>
    subst he
    exact ⟨(hgoto (f s.mem).2).1.of_fields _ rfl rfl rfl,
      (hgoto (f s.mem).2).2.of_fields _ rfl (fun _ => Or.inl) rfl fun _ => Or.inl⟩
  | keep h k c _ _ _ _ he | got h k c _ _ _ he | done h k c _ _ he =>
    subst he
    exact hgoto _
  | spawn c sched inner l' hmade he =>
    subst he
    obtain ⟨hl, hn, -, -⟩ := hmade.blank
    set s₁ : Loop Loc G A X V :=
      { s.spawn c with schedule := sched, stack := inner ++ (me, l') :: rest } with hs₁
    have fr₁ : Frames s₁ := fr.spawn hl rfl (fun i => spawn_coros) ((hmade.running rest).trans (by
      simp [running, hstack]))
    have nd₁ : NoDangling refs s₁ := nd.spawn hn (fun i => spawn_coros) rfl
      (fun t ht => (hmade.mem_schedule ht).imp_right And.left) rfl
    -- then its object is put into the executing frame
    have hme₁ : s₁.coros me = some cme := by
      rw [hs₁, show Loop.coros { s.spawn c with schedule := sched, stack := _ } me =
        (s.spawn c).coros me from rfl, spawn_coros, if_neg (Nat.ne_of_lt hlt)]
      exact hcme
    have fr₂ : Frames (s₁.addLocal me s.seq) := by
      refine fr₁.modify (fun c' hc' d hd => ?_) (fun c' hc' hlf => ?_) fun _ _ _ => rfl
      · rcases List.mem_cons.mp hd with rfl | hd
        · exact hlt
        · exact fr₁.locals me c' hc' d hd
      · rw [hme₁] at hc'
        cases hc'
        rw [Point.eq_running hrun] at hlf
        cases hlf
    have nd₂ : NoDangling refs (s₁.addLocal me s.seq) := nd₁.modify_of_next fun _ => rfl
    exact ⟨fr₂.of_fields _ rfl rfl rfl,
      nd₂.of_fields _ rfl (fun _ => Or.inl) rfl fun _ => Or.inl⟩
  | future h k c _ _ _ _ he =>
    subst he
    have fr₁ := (fr.schedule (h := h)).of_fields
      { Handle.schedule h s with stack := (me, k) :: rest } rfl rfl
      (by simp [running, schedule_stack, hstack])
    exact ⟨fr₁, (nd.schedule (h := h)).of_fields _ rfl (fun _ => Or.inl) rfl fun _ => Or.inl⟩
  | suspend h k c _ _ _ he =>
    subst he
    have nd₁ : NoDangling refs ({ s with stack := rest } : Loop Loc G A X V) :=
      nd.of_fields _ rfl (fun _ => Or.inl) rfl fun _ => Or.inl
    exact ⟨(fr.pop hstack).awaitSuspend fun hm => lt_irrefl me (fr.lt_of_mem_rest hstack hm),
      nd₁.awaitSuspend (by rw [show Loop.coros { s with stack := rest } me = _ from hcme]; rfl)⟩
  | destroy h k hop hholds he =>
    have hyoung : me < h := by
      simp only [holds, hcme, decide_eq_true_eq] at hholds
      exact fr.locals me cme hcme h hholds
    refine ⟨?_, hd s' ?_⟩
    · rw [he]
      refine (hdrop h k).1.erased (erased_destroy _ _ _) fun i hi => ?_
      refine Frames.destroy_coros_of_lt _ _ _ (hdrop h k).1.locals i ?_
      rcases List.mem_cons.mp (show i ∈ me :: rest.map Prod.fst from hi) with rfl | hi
      · exact hyoung
      · exact lt_trans (fr.lt_of_mem_rest hstack hi) hyoung
    · unfold Loop.destruction
      simp only [hstack, hop, hholds, if_true]
      rw [he]
      rfl
  | release h k _ _ he =>
    subst he
    exact hdrop h k
  | ret o hop hf =>
    refine ⟨(fr.pop hstack).finish hf fun i hi => fr.lt_of_mem_rest hstack hi, ?_⟩
    unfold Loop.finish at hf
    simp only [hcme] at hf
    refine NoDangling.finalSuspend (hd _ ?_) hf
    unfold Loop.destruction
    simp only [hstack, hop, hcme]
    rfl

/-- **What an iteration of `Runone` does** to frames and references. -/
theorem resume_noDangling {refs : X → ℕ → Prop} (hk : w.Keeps refs) (fr : Frames s)
    (nd : NoDangling refs s) (hstack : s.stack = []) (hs : s.resume w = some s') :
    Frames s' ∧ NoDangling refs s' := by
  obtain ⟨h, n, q, c, -, hready, hc, hit⟩ := iteration_of_resume hs
  have hself := popped_coros_self (n := n) (q := q) hc
  have hempty : ∀ i ∈ s.running, i < h := by simp [running, hstack]
  have fr₀ : Frames ({ s with left := n, ready := q } : Loop Loc G A X V) :=
    fr.of_fields _ rfl rfl rfl
  have nd₀ : NoDangling refs ({ s with left := n, ready := q } : Loop Loc G A X V) :=
    nd.of_fields _ rfl (fun i hi => Or.inl (by rw [hready]; exact List.mem_cons_of_mem h hi)) rfl
      fun _ => Or.inl
  have fr₁ : Frames (s.popped h n q) := fr₀.modify_of_same (fun _ => rfl) fun _ => rfl
  have nd₁ : NoDangling refs (s.popped h n q) := nd₀.modify_of_next fun _ => rfl
  -- the front goes on executing
  have hstart : ∀ l : Loc, s' = { (s.popped h n q).setPoint .running h with stack := [(h, l)] } →
      Frames s' ∧ NoDangling refs s' := by
    rintro l rfl
    have fr₂ : Frames ((s.popped h n q).setPoint .running h) :=
      fr₁.modify (fun c hc => fr₁.locals h c hc) (fun _ _ hlf => by cases hlf)
        fun hm => absurd (hempty h hm) (lt_irrefl h)
    have nd₂ : NoDangling refs ((s.popped h n q).setPoint .running h) :=
      nd₁.modify_of_next fun _ => rfl
    refine ⟨⟨fr₂.fresh, fr₂.locals, fr₂.leaf, fun i hi => ?_, by simp [running]⟩,
      nd₂.of_fields _ rfl (fun _ => Or.inl) rfl fun _ => Or.inl⟩
    rw [List.mem_singleton.mp (show i ∈ [h] from hi)]
    exact ⟨{ c with state := .kUnschedule, point := .running }, by
      show ((s.popped h n q).setPoint .running h).coros h = _
      rw [setPoint, modify_coros_self, hself]
      rfl, rfl⟩
  -- the world has moved on
  have hworld : ∀ x : X, (∀ i, refs x i → refs s.world i ∨ i = h) →
      Frames ({ s.popped h n q with world := x } : Loop Loc G A X V) ∧
        NoDangling refs ({ s.popped h n q with world := x } : Loop Loc G A X V) := fun x hx =>
    ⟨fr₁.of_fields _ rfl rfl rfl, nd₁.of_fields _ rfl (fun _ => Or.inl) rfl
      fun i hi => (hx i hi).imp_right fun hi => by rw [hi, hself]; rfl⟩
  have hposted : ∀ {a : A} {x : X} {e : Option (Exn V)} {x' : X}, w.enter a s.world = .ok x →
      w.post a h x = (e, x') → ∀ i, refs x' i → refs s.world i ∨ i = h := by
    intro a x e x' henter hpost i hi
    rw [show x' = (w.post a h x).2 by rw [hpost]] at hi
    exact (hk.post hi).imp_left (hk.enter henter)
  -- one of the library's coroutines owns none
  have hleaf : c.point.isLeaf = true → ∀ c', (s.popped h n q).coros h = some c' → c'.locals = [] :=
    fun hlf c' hc' => fr₁.leaf h c' hc' (by rw [hself] at hc'; cases hc'; exact hlf)
  have hsuspend : ∀ {x' : X}, c.point.isLeaf = true → ∀ c',
      (({ s.popped h n q with world := x' } : Loop Loc G A X V).setState .kSuspend h).coros h =
        some c' → c'.locals = [] := by
    intro x' hlf c' hc'
    rcases modify_coros_eq_some.mp hc' with ⟨-, c₀, hc₀, rfl⟩ | ⟨hne, -⟩
    · exact hleaf hlf c₀ hc₀
    · exact absurd rfl hne
  cases hit with
  | initial l _ he => exact hstart l he
  | await d k cd _ _ he => exact hstart _ he
  | refused a e hp _ hf =>
    exact ⟨fr₁.finish hf hempty, nd₁.finish hf (hleaf (by rw [hp]; rfl))⟩
  | failed a e x x' hp henter hpost hf =>
    obtain ⟨fr₂, nd₂⟩ := hworld x' (hposted henter hpost)
    have fr₃ := fr₂.modify_of_same (h := h) (f := fun c => { c with state := .kSuspend })
      (fun _ => rfl) fun _ => rfl
    have nd₃ := nd₂.modify_of_next (h := h) (f := fun c => { c with state := .kSuspend })
      fun _ => rfl
    exact ⟨fr₃.finish hf hempty, nd₃.finish hf (hsuspend (by rw [hp]; rfl))⟩
  | posted a x x' hp henter hpost he =>
    subst he
    obtain ⟨fr₂, nd₂⟩ := hworld x' (hposted henter hpost)
    have fr₃ := fr₂.modify_of_same (h := h) (f := fun c => { c with state := .kSuspend })
      (fun _ => rfl) fun _ => rfl
    have nd₃ := nd₂.modify_of_next (h := h) (f := fun c => { c with state := .kSuspend })
      fun _ => rfl
    exact ⟨fr₃.modify (fun c' hc' => fr₃.locals h c' hc')
      (fun c' hc' _ => hsuspend (by rw [hp]; rfl) c' hc') fun hm => absurd (hempty h hm) (lt_irrefl h),
      nd₃.modify_of_next fun _ => rfl⟩
  | sleep hp hf => exact ⟨fr₁.finish hf hempty, nd₁.finish hf (hleaf (by rw [hp]; rfl))⟩
  | io a hp hf =>
    obtain ⟨fr₂, nd₂⟩ := hworld _ fun i hi => Or.inl (hk.resume hi)
    exact ⟨fr₂.finish hf hempty, nd₂.finish hf (hleaf (by rw [hp]; rfl))⟩

/-- **The step lemma**: a step keeps the frames, and makes no reference to a
coroutine that is gone if its destruction leaves none. -/
theorem Loop.Step.noDangling {refs : X → ℕ → Prop} (hk : w.Keeps refs) (fr : Frames s)
    (nd : NoDangling refs s) (hd : ∀ s₁ ∈ s.destruction code, NoDangling refs s₁)
    (hs : Step w code s s') : Frames s' ∧ NoDangling refs s' := by
  cases hs with
  | exec now hs => exact exec_noDangling fr nd hd hs
  | resume hstack hs => exact resume_noDangling hk fr nd hstack hs
  | round hs =>
    obtain @⟨s₁, now, events, x, -, -, hpoll, hcall⟩ := hs
    have fr₁ : Frames ({ s with world := x } : Loop Loc G A X V) := fr.of_fields _ rfl rfl rfl
    have nd₁ : NoDangling refs ({ s with world := x } : Loop Loc G A X V) :=
      nd.of_fields _ rfl (fun _ => Or.inl) rfl fun i hi => Or.inl (hk.poll hpoll hi)
    have nd₂ : NoDangling refs s₁ := nd₁.callAll hcall
    refine ⟨(fr₁.callAll hcall).of_fields _ rfl rfl rfl, fun i hi => nd₂ i ?_⟩
    obtain ⟨due, hdue, hready⟩ := Task.drain_eq_append (time now) s₁.schedule s₁.ready
    cases hi with
    | ready hi =>
      have hi : i ∈ (Task.drain (time now) s₁.schedule s₁.ready).2 := hi
      rw [hready] at hi
      rcases List.mem_append.mp hi with hi | hi
      · exact .ready hi
      · obtain ⟨t, ht, rfl⟩ := List.mem_map.mp hi
        exact .schedule (List.mem_map_of_mem (hdue t ht))
    | schedule hi =>
      obtain ⟨t, ht, rfl⟩ := List.mem_map.mp hi
      exact .schedule (List.mem_map_of_mem (Task.mem_of_mem_drain ht))
    | next j c hc hn => exact .next j c hc hn
    | world hi => exact .world hi
  | env hs =>
    exact ⟨fr.of_fields _ rfl rfl rfl, nd.of_fields _ rfl (fun _ => Or.inl) rfl
      fun i hi => Or.inl (hk.env hs hi)⟩

/-! ## Which destructions leave nothing dangling -/

/-- **Coroutine `h` may go**: of what is left in `s₁`, nothing refers to it. -/
structure Unlinked (refs : X → ℕ → Prop) (s s₁ : Loop Loc G A X V) (h : ℕ) : Prop where
  ready : h ∉ s.ready
  schedule : h ∉ s.schedule.map Task.handle
  next : ∀ i c, s.coros i = some c → (s₁.coros i).isSome = true → c.next ≠ some h
  world : ¬ refs s.world h

/-- **The destruction is clean**: what the operation about to be performed
destroys, if anything, may go. -/
def CleanDestruction (refs : X → ℕ → Prop) (code : Loc → Op Loc G A V) (s : Loop Loc G A X V) :
    Prop :=
  ∀ s₁ ∈ s.destruction code, ∀ h, (s.coros h).isSome = true → s₁.coros h = none →
    Unlinked refs s s₁ h

/-- A destruction changes no queue and no `next`. -/
theorem Loop.destruction_eq (hd : s.destruction code = some s₁) :
    s₁.ready = s.ready ∧ s₁.schedule = s.schedule ∧ s₁.world = s.world ∧
      ∀ i c₁, s₁.coros i = some c₁ → ∃ c, s.coros i = some c ∧ c.next = c₁.next := by
  unfold Loop.destruction at hd
  split at hd
  · cases hd
  · rename_i me l rest hstack
    split at hd
    · rename_i h k _
      split at hd
      · rw [Option.some.injEq] at hd
        subst hd
        have he := erased_destroy s.seq h
          (dropLocal me h ({ s with stack := (me, k) :: rest } : Loop Loc G A X V))
        refine ⟨he.ready, he.schedule, he.world, fun i c₁ hc₁ => ?_⟩
        rcases modify_coros_eq_some.mp (he.coros_eq hc₁) with ⟨rfl, c, hc, rfl⟩ | ⟨-, hc⟩
        · exact ⟨c, hc, rfl⟩
        · exact ⟨c₁, hc, rfl⟩
      · cases hd
    · obtain ⟨c, -, rfl⟩ := Option.map_eq_some_iff.mp hd
      have he := erased_destroyLocals c.locals ({ s with stack := rest } : Loop Loc G A X V)
      exact ⟨he.ready, he.schedule, he.world, fun i c₁ hc₁ => ⟨c₁, he.coros_eq hc₁, rfl⟩⟩
    · cases hd

/-- **`Coro::Destroy` takes no reference away**, so what it destroys must have
been referred to by nothing that stays. -/
theorem noDangling_destruction_iff {refs : X → ℕ → Prop} (nd : NoDangling refs s) :
    (∀ s₁ ∈ s.destruction code, NoDangling refs s₁) ↔ CleanDestruction refs code s := by
  constructor
  · intro hd s₁ hs₁ h _ hgone
    obtain ⟨hready, hsch, hw, hrows⟩ := destruction_eq hs₁
    have hnot : ¬ Refers refs s₁ h := fun hr => by
      have := hd s₁ hs₁ h hr
      rw [hgone] at this
      cases this
    refine ⟨fun hm => hnot (.ready (by rw [hready]; exact hm)),
      fun hm => hnot (.schedule (by rw [hsch]; exact hm)), fun i c hc hl hn => ?_,
      fun hr => hnot (.world (by rw [hw]; exact hr))⟩
    obtain ⟨c₁, hc₁⟩ := Option.isSome_iff_exists.mp hl
    obtain ⟨c', hc', hn'⟩ := hrows i c₁ hc₁
    rw [hc] at hc'
    cases hc'
    exact hnot (.next i c₁ hc₁ (by rw [← hn']; exact hn))
  · intro hclean s₁ hs₁ h hr
    obtain ⟨hready, hsch, hw, hrows⟩ := destruction_eq hs₁
    -- the reference was there before, to a coroutine that existed
    have hold : Refers refs s h ∧ ((s.coros h).isSome = true → s₁.coros h = none → False) := by
      cases hr with
      | ready hm =>
        rw [hready] at hm
        exact ⟨.ready hm, fun hl hg => (hclean s₁ hs₁ h hl hg).ready hm⟩
      | schedule hm =>
        rw [hsch] at hm
        exact ⟨.schedule hm, fun hl hg => (hclean s₁ hs₁ h hl hg).schedule hm⟩
      | next i c₁ hc₁ hn =>
        obtain ⟨c, hc, hn'⟩ := hrows i c₁ hc₁
        rw [← hn'] at hn
        exact ⟨.next i c hc hn,
          fun hl hg => (hclean s₁ hs₁ h hl hg).next i c hc (by rw [hc₁]; rfl) hn⟩
      | world hm =>
        rw [hw] at hm
        exact ⟨.world hm, fun hl hg => (hclean s₁ hs₁ h hl hg).world hm⟩
    by_contra hn
    exact hold.2 (nd h hold.1) (Option.not_isSome_iff_eq_none.mp hn)

/-- The loop that `Run` starts has its frames in order. -/
theorem Frames.boot (isVoid : Bool) (l : Loc) (g : G) (x : X) :
    Frames (Loop.boot isVoid l g x : Loop Loc G A X V) := by
  rw [boot_eq]
  refine ⟨fun i c hc => ?_, fun i c hc => ?_, fun i c hc => ?_, by simp [running], by simp [running]⟩
  all_goals
    rw [Option.ite_none_right_eq_some] at hc
    obtain ⟨rfl, hc⟩ := hc
    cases hc
  · exact Nat.zero_lt_one
  · exact fun d hd => by cases hd
  · exact fun hlf => by cases hlf

/-- Nor does anything dangle there, if the world refers to nothing. -/
theorem NoDangling.boot {refs : X → ℕ → Prop} (isVoid : Bool) (l : Loc) (g : G) {x : X}
    (hx : ∀ i, ¬ refs x i) : NoDangling refs (Loop.boot isVoid l g x : Loop Loc G A X V) := by
  rw [boot_eq]
  intro i hi
  cases hi with
  | ready hi =>
    rw [List.mem_singleton.mp hi]
    rfl
  | schedule hi => cases hi
  | next j c hc hn =>
    rw [Option.ite_none_right_eq_some] at hc
    obtain ⟨-, hc⟩ := hc
    cases hc
    cases hn
  | world hi => exact absurd hi (hx i)

/-- **Nothing dangles exactly if every destruction is clean**, along any run of
any program: this is of every state reached, and of every state between a
destruction and what its operation does next. -/
theorem noDangling_run_iff {refs : X → ℕ → Prop} {init : Loop Loc G A X V → Prop}
    {σ : ℕ → Loop Loc G A X V} {n : ℕ} (hk : w.Keeps refs)
    (hinit : ∀ s, init s → Frames s ∧ NoDangling refs s)
    (hrun : IsRun init (Step w code) σ n) :
    (∀ i ≤ n, NoDangling refs (σ i) ∧ ∀ s₁ ∈ (σ i).destruction code, NoDangling refs s₁) ↔
      ∀ i ≤ n, CleanDestruction refs code (σ i) := by
  constructor
  · exact fun h i hi => (noDangling_destruction_iff (h i hi).1).mp (h i hi).2
  · intro hclean
    have hinv : ∀ i ≤ n, Frames (σ i) ∧ NoDangling refs (σ i) := by
      intro i
      induction i with
      | zero => exact fun _ => hinit _ hrun.start
      | succ i ih =>
        intro hi
        obtain ⟨fr, nd⟩ := ih (by omega)
        exact (hrun.next i hi).noDangling hk fr nd
          ((noDangling_destruction_iff nd).mpr (hclean i (by omega)))
    exact fun i hi => ⟨(hinv i hi).2, (noDangling_destruction_iff (hinv i hi).2).mpr (hclean i hi)⟩

end EfaExamples
