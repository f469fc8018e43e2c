import EfaExamples.Common.Forest
import EfaExamples.Common.Run
import EfaExamples.Coro.Dangling
import EfaExamples.Coro.Scheduler
/-!
# Who owns a coroutine

A `Coro` object is a local of the frame whose body made the call, until the
frame ends, destroys it, or moves it to storage of its own. The forest of a
state says so of all coroutines at once, and what a step does to the loop is
one of five things it does to the forest (`Step.nests`). So of every program
whatever is there hangs under the root or under a coroutine moved away, by
frames that have not ended, and when the root has ended nothing else is left
but what was moved away (`nested_run`).
-/

namespace EfaExamples

open Loop

variable {Loc G A X V : Type} {w : World A X V} {code : Loc → Op Loc G A V}
variable {s s' s₁ : Loop Loc G A X V} {h d i : ℕ} {c : Coro Loc A V}
variable {f : Coro Loc A V → Coro Loc A V}

/-- What the forest says of a coroutine. -/
def Coro.owner (c : Coro Loc A V) : Owner ℕ where
  maker := c.creator
  held := c.locals
  ended := c.point.isFinal

namespace Loop

/-- **The forest of the frames.** -/
def forest (s : Loop Loc G A X V) : Forest ℕ := fun i => (s.coros i).map Coro.owner

/-- The coroutine that the executing body is about to move out of its frame. -/
def released (code : Loc → Op Loc G A V) (s : Loop Loc G A X V) : Option ℕ :=
  match s.stack with
  | [] => none
  | (_, l) :: _ =>
    match code l with
    | .release h _ => some h
    | _ => none

/-- A step in which the executing body moves coroutine `h` out of its frame. -/
def Moved (code : Loc → Op Loc G A V) (s s' : Loop Loc G A X V) (h : ℕ) : Prop :=
  s.released code = some h ∧ ∃ now, s.exec code now = some s'

/-- **`p` owns `h`**: the frame of `p` has not ended, `p`'s body made `h`, and its `Coro` object
is a local there. -/
def Owns (s : Loop Loc G A X V) (p h : ℕ) : Prop :=
  ∃ cp c, s.coros p = some cp ∧ s.coros h = some c ∧ cp.point.isFinal = false ∧
    h ∈ cp.locals ∧ c.creator = some p

/-! ## The forest of what is written -/

theorem forest_congr (hcoros : s'.coros = s.coros) : s'.forest = s.forest := by
  unfold forest
  rw [hcoros]

theorem forest_modify {g : Owner ℕ → Owner ℕ}
    (hf : ∀ c, s.coros h = some c → (f c).owner = g c.owner) :
    (s.modify h f).forest = s.forest.write h g := by
  funext i
  show ((s.modify h f).coros i).map Coro.owner =
    if i = h then ((s.coros i).map Coro.owner).map g else (s.coros i).map Coro.owner
  rw [modify_coros]
  split
  · rename_i hi
    subst hi
    cases hc : s.coros i with
    | none => rfl
    | some c => exact congrArg some (hf c hc)
  · rfl

/-- A write that leaves creator, locals, and whether the body has ended. -/
theorem forest_modify_of_same (hf : ∀ c, s.coros h = some c → (f c).owner = c.owner) :
    (s.modify h f).forest = s.forest := by
  rw [forest_modify (g := id) hf]
  funext i
  rw [Forest.write]
  split
  · exact congrFun Option.map_id _
  · rfl

@[simp] theorem forest_setState (st : HandleState) : (s.setState st h).forest = s.forest :=
  forest_modify_of_same fun _ _ => rfl

@[simp] theorem forest_call : (s.call h).forest = s.forest :=
  (forest_congr rfl).trans (forest_setState .kScheduled)

@[simp] theorem forest_schedule : (Handle.schedule h s).forest = s.forest := by
  unfold Handle.schedule
  split
  · split
    · exact forest_call
    · rfl
  · rfl

theorem forest_popped {n : ℕ} {q : List ℕ} : (s.popped h n q).forest = s.forest :=
  (forest_setState .kUnschedule).trans (forest_congr rfl)

theorem forest_callAll : ∀ {events : List ℕ} {s : Loop Loc G A X V},
    s.callAll events = some s' → s'.forest = s.forest := by
  intro events
  induction events with
  | nil =>
    intro s hs
    rw [callAll, Option.some.injEq] at hs
    rw [hs]
  | cons e events ih =>
    intro s hs
    rw [callAll] at hs
    split at hs
    · exact (ih hs).trans forest_call
    · cases hs

/-- `await_suspend` of a body that executes. -/
theorem forest_awaitSuspend {me : ℕ} {k : Outcome V → Loc} (hme : s.coros me = some c)
    (hrun : c.point.isRunning = true) : (s.awaitSuspend me d k).forest = s.forest := by
  rw [awaitSuspend, forest_schedule,
    forest_modify_of_same (f := fun c => { c with next := some me }) fun _ _ => rfl, setPoint,
    forest_modify_of_same, forest_setState]
  intro c' hc'
  rcases modify_coros_eq_some.mp hc' with ⟨-, c₀, hc₀, rfl⟩ | ⟨hne, -⟩
  · obtain rfl := Option.some.inj (hme.symm.trans hc₀)
    rw [Coro.owner, Coro.owner, show c.point = .running from Point.eq_running hrun]
    rfl
  · exact absurd rfl hne

/-- **`Coro::Destroy` destroys in the forest.** -/
theorem forest_destroyAll (n : ℕ) : ∀ (ds : List ℕ) (s : Loop Loc G A X V),
    (ds.foldl (fun s d => s.destroy n d) s).forest = s.forest.pruneAll n ds := by
  induction n with
  | zero =>
    intro ds
    induction ds with
    | nil => exact fun _ => rfl
    | cons d ds ih =>
      intro s
      rw [List.foldl_cons, ih, Forest.pruneAll, Forest.pruneAll, List.foldl_cons]
      congr 1
      funext i
      rw [destroy, cancel_eq, Forest.prune, Forest.erase, forest, erase]
      simp only
      split <;> rfl
  | succ n ih =>
    intro ds
    induction ds with
    | nil => exact fun _ => rfl
    | cons d ds ihd =>
      intro s
      rw [List.foldl_cons, ihd, Forest.pruneAll, Forest.pruneAll, List.foldl_cons]
      congr 1
      rw [destroy, Forest.prune]
      cases hd : s.coros d with
      | none =>
        rw [show s.forest d = none by rw [forest, hd]; rfl]
      | some c =>
        rw [show s.forest d = some c.owner by rw [forest, hd]; rfl]
        simp only [cancel_eq]
        rw [ih]
        show Forest.pruneAll n c.locals _ = Forest.pruneAll n c.locals _
        congr 1
        funext i
        rw [forest, erase, Forest.erase, forest]
        simp only
        split <;> rfl

theorem forest_destroy (n : ℕ) : (s.destroy n h).forest = s.forest.prune n h :=
  forest_destroyAll n [h] s

/-- **The end of a body**: its locals are destroyed, and it has ended and holds nothing. -/
theorem forest_finish {o : Outcome V} (hf : s.finish h o = some s') :
    ∃ c, s.coros h = some c ∧ s'.forest = (s.forest.pruneAll s.seq c.locals).close h := by
  unfold finish at hf
  cases hc : s.coros h with
  | none => simp [hc] at hf
  | some c =>
    refine ⟨c, rfl, ?_⟩
    simp only [hc] at hf
    have hlocals : (s.destroyLocals c.locals).forest = s.forest.pruneAll s.seq c.locals :=
      forest_destroyAll s.seq c.locals s
    rw [Forest.close, ← hlocals, ← forest_modify (h := h)
      (f := fun c => { c with point := .final, result := some o, locals := [] }) fun _ _ => rfl]
    unfold finalSuspend at hf
    split at hf
    · cases hf
    · split at hf
      · cases hf
        rfl
      · split at hf
        · cases hf
          exact forest_call
        · cases hf

end Loop

/-! ## Frames along every step -/

theorem exec_frames {now : ℤ} (fr : Frames s) (hs : s.exec code now = some s') : Frames s' := by
  obtain ⟨me, l, rest, hstack, hop⟩ := operation_of_exec hs
  obtain ⟨cme, hcme, hrun⟩ := fr.executing me (by simp [running, hstack])
  have hlt := fr.fresh me cme hcme
  have hdrop : ∀ (h : ℕ) (l' : Loc),
      Frames (dropLocal me h ({ s with stack := (me, l') :: rest } : Loop Loc G A X V)) := by
    intro h l'
    refine (fr.goto hstack l').modify (fun c hc d hd => ?_) (fun c hc hlf => ?_) fun _ _ _ => rfl
    · exact fr.locals me c hc d (List.mem_of_mem_filter hd)
    · show c.locals.filter _ = []
      rw [fr.leaf me c hc hlf]
      rfl
  cases hop with
  | step f _ he =>
    subst he
    exact (fr.goto hstack (f s.mem).2).of_fields _ rfl rfl rfl
  | keep h k c _ _ _ _ he | got h k c _ _ _ he | done h k c _ _ he =>
    subst he
    exact fr.goto hstack _
  | spawn c sched inner l' hmade he =>
    subst he
    set s₁ : Loop Loc G A X V :=
      { s.spawn c with schedule := sched, stack := inner ++ (me, l') :: rest } with hs₁
    have fr₁ : Frames s₁ := fr.spawn hmade.blank.1 rfl (fun i => spawn_coros)
      ((hmade.running rest).trans (by simp [running, hstack]))
    have hme₁ : s₁.coros me = some cme := by
      rw [hs₁, show Loop.coros { s.spawn c with schedule := sched, stack := _ } me =
        (s.spawn c).coros me from rfl, spawn_coros, if_neg (Nat.ne_of_lt hlt)]
      exact hcme
    have fr₂ : Frames (s₁.addLocal me s.seq) := by
      refine fr₁.modify (fun c' hc' d hd => ?_) (fun c' hc' hlf => ?_) fun _ _ _ => rfl
      · rcases List.mem_cons.mp hd with rfl | hd
        · exact hlt
        · exact fr₁.locals me c' hc' d hd
      · rw [hme₁] at hc'
        cases hc'
        rw [Point.eq_running hrun] at hlf
        cases hlf
    exact fr₂.of_fields _ rfl rfl rfl
  | future h k c _ _ _ _ he =>
    subst he
    exact (fr.schedule (h := h)).of_fields { Handle.schedule h s with stack := (me, k) :: rest }
      rfl rfl (by simp [running, schedule_stack, hstack])
  | suspend h k c _ _ _ he =>
    subst he
    exact (fr.pop hstack).awaitSuspend fun hm => lt_irrefl me (fr.lt_of_mem_rest hstack hm)
  | destroy h k hop hholds he =>
    subst he
    simp only [holds, hcme, decide_eq_true_eq] at hholds
    refine (hdrop h k).erased (erased_destroy _ _ _) fun i hi => ?_
    refine Frames.destroy_coros_of_lt _ _ _ (hdrop h k).locals i ?_
    have hyoung := fr.locals me cme hcme h hholds
    rcases List.mem_cons.mp (show i ∈ me :: rest.map Prod.fst from hi) with rfl | hi
    · exact hyoung
    · exact lt_trans (fr.lt_of_mem_rest hstack hi) hyoung
  | release h k _ _ he =>
    subst he
    exact hdrop h k
  | ret o hop hf => exact (fr.pop hstack).finish hf fun i hi => fr.lt_of_mem_rest hstack hi

theorem resume_frames (fr : Frames s) (hstack : s.stack = []) (hs : s.resume w = some s') :
    Frames s' := by
  obtain ⟨h, n, q, c, -, -, hc, hit⟩ := iteration_of_resume hs
  have hself := popped_coros_self (n := n) (q := q) hc
  have hempty : ∀ i ∈ s.running, i < h := by simp [running, hstack]
  have fr₀ : Frames ({ s with left := n, ready := q } : Loop Loc G A X V) :=
    fr.of_fields _ rfl rfl rfl
  have fr₁ : Frames (s.popped h n q) := fr₀.modify_of_same (fun _ => rfl) fun _ => rfl
  -- the front goes on executing
  have hstart : ∀ l : Loc, s' = { (s.popped h n q).setPoint .running h with stack := [(h, l)] } →
      Frames s' := by
    rintro l rfl
    have fr₂ : Frames ((s.popped h n q).setPoint .running h) :=
      fr₁.modify (fun c hc => fr₁.locals h c hc) (fun _ _ hlf => by cases hlf)
        fun hm => absurd (hempty h hm) (lt_irrefl h)
    refine ⟨fr₂.fresh, fr₂.locals, fr₂.leaf, fun i hi => ?_, by simp [running]⟩
    rw [List.mem_singleton.mp (show i ∈ [h] from hi)]
    exact ⟨{ c with state := .kUnschedule, point := .running }, by
      show ((s.popped h n q).setPoint .running h).coros h = _
      rw [setPoint, modify_coros_self, hself]
      rfl, rfl⟩
  have hworld : ∀ x : X, Frames ({ s.popped h n q with world := x } : Loop Loc G A X V) := fun x =>
    fr₁.of_fields _ rfl rfl rfl
  have hsuspend : ∀ x : X,
      Frames (({ s.popped h n q with world := x } : Loop Loc G A X V).setState .kSuspend h) :=
    fun x => (hworld x).modify_of_same (fun _ => rfl) fun _ => rfl
  cases hit with
  | initial l _ he => exact hstart l he
  | await d k cd _ _ he => exact hstart _ he
  | refused a e _ _ hf => exact fr₁.finish hf hempty
  | failed a e x x' _ _ _ hf => exact (hsuspend x').finish hf hempty
  | posted a x x' hp _ _ he =>
    subst he
    -- one of the library's coroutines owns none
    refine (hsuspend x').modify (fun c' hc' => (hsuspend x').locals h c' hc') (fun c' hc' _ => ?_)
      fun hm => absurd (hempty h hm) (lt_irrefl h)
    refine (hsuspend x').leaf h c' hc' ?_
    rcases modify_coros_eq_some.mp hc' with ⟨-, c₀, hc₀, rfl⟩ | ⟨hne, -⟩
    · obtain rfl := Option.some.inj (hself.symm.trans hc₀)
      show c.point.isLeaf = true
      rw [hp]
      rfl
    · exact absurd rfl hne
  | sleep _ hf => exact fr₁.finish hf hempty
  | io a _ hf => exact (hworld _).finish hf hempty

/-- **Every step keeps the frames.** -/
theorem Loop.Step.frames (fr : Frames s) (hs : Step w code s s') : Frames s' := by
  cases hs with
  | exec now hs => exact exec_frames fr hs
  | resume hstack hs => exact resume_frames fr hstack hs
  | round hs =>
    obtain @⟨s₁, now, events, x, -, -, -, hcall⟩ := hs
    have fr₁ : Frames ({ s with world := x } : Loop Loc G A X V) := fr.of_fields _ rfl rfl rfl
    exact (fr₁.callAll hcall).of_fields _ rfl rfl rfl
  | env _ => exact fr.of_fields _ rfl rfl rfl

/-! ## What a step does to the forest -/

/-- **What a step does to the forest.** -/
inductive Nests (code : Loc → Op Loc G A V) (s s' : Loop Loc G A X V) : Prop
  | same : s'.forest = s.forest → Nests code s s'
  /-- the executing body makes a coroutine -/
  | made (me : ℕ) (c : Coro Loc A V) : s.coros me = some c → c.point.isRunning = true →
      s'.forest = s.forest.grow me s.seq → Nests code s s'
  /-- or destroys one of its own -/
  | destroyed (me d : ℕ) (c : Coro Loc A V) : s.coros me = some c → d ∈ c.locals →
      s'.forest = (s.forest.drop me d).prune s.seq d → Nests code s s'
  /-- or moves it away -/
  | moved (me d : ℕ) (c : Coro Loc A V) : Moved code s s' d → s.coros me = some c →
      d ∈ c.locals → s'.forest = s.forest.drop me d → Nests code s s'
  /-- a body ends -/
  | ended (h : ℕ) (c : Coro Loc A V) : s.coros h = some c →
      s'.forest = (s.forest.pruneAll s.seq c.locals).close h → Nests code s s'

theorem exec_nests {now : ℤ} (fr : Frames s) (hs : s.exec code now = some s') :
    Nests code s s' := by
  obtain ⟨me, l, rest, hstack, hop⟩ := operation_of_exec hs
  obtain ⟨cme, hcme, hrun⟩ := fr.executing me (by simp [running, hstack])
  have hdrop : ∀ (h : ℕ) (l' : Loc),
      (dropLocal me h ({ s with stack := (me, l') :: rest } : Loop Loc G A X V)).forest =
        s.forest.drop me h := fun h l' => (forest_modify fun _ _ => rfl).trans rfl
  have hmem : ∀ {h : ℕ}, s.holds me h = true → h ∈ cme.locals := fun hh => by
    simp only [holds, hcme, decide_eq_true_eq] at hh
    exact hh
  cases hop with
  | step f _ he | keep h k c _ _ _ _ he | got h k c _ _ _ he | done h k c _ _ he =>
    subst he
    exact .same rfl
  | spawn c sched inner l' hmade he =>
    subst he
    obtain ⟨hl, -, hcr, -⟩ := hmade.blank
    have hopen : c.point.isFinal = false := by
      cases hmade <;> rfl
    refine .made me cme hcme hrun ?_
    have hspawn : (s.spawn c).forest =
        fun i => if i = s.seq then some ⟨some me, [], false⟩ else s.forest i := by
      funext i
      show ((s.spawn c).coros i).map Coro.owner = _
      rw [spawn_coros]
      split
      · rw [Option.map_some, Coro.owner, hl, hcr, hopen]
      · rfl
    rw [Forest.grow, ← hspawn]
    exact forest_modify (s := s.spawn c) fun _ _ => rfl
  | future h k c _ _ _ _ he =>
    subst he
    exact .same ((forest_congr rfl).trans forest_schedule)
  | suspend h k c _ _ _ he =>
    subst he
    exact .same ((forest_awaitSuspend (s := { s with stack := rest }) hcme hrun).trans rfl)
  | destroy h k _ hholds he =>
    refine .destroyed me h cme hcme (hmem hholds) ?_
    rw [he, forest_destroy, hdrop]
  | release h k hop hholds he =>
    refine .moved me h cme ⟨?_, now, hs⟩ hcme (hmem hholds) (by rw [he, hdrop])
    simp only [released, hstack, hop]
  | ret o _ hf =>
    obtain ⟨c, hc, hforest⟩ := forest_finish hf
    exact .ended me c hc hforest

theorem resume_nests (hs : s.resume w = some s') : Nests code s s' := by
  obtain ⟨h, n, q, c, -, -, hc, hit⟩ := iteration_of_resume hs
  have hself := popped_coros_self (n := n) (q := q) hc
  -- the front goes to another point, not having been at its end nor being there now
  have hpoint : ∀ {s₁ : Loop Loc G A X V} {p : Point Loc A V}, s₁.forest = s.forest →
      (∀ c', s₁.coros h = some c' → c'.point = c.point) → c.point.isFinal = false →
      p.isFinal = false → (s₁.setPoint p h).forest = s.forest := by
    intro s₁ p hf hp hopen hopen'
    rw [setPoint, forest_modify_of_same, hf]
    intro c' hc'
    rw [Coro.owner, Coro.owner, hp c' hc', hopen, hopen']
  have hpopped : ∀ c', (s.popped h n q).coros h = some c' → c'.point = c.point := fun c' hc' => by
    obtain rfl := Option.some.inj (hself.symm.trans hc')
    rfl
  have hend : ∀ {s₁ : Loop Loc G A X V} {o : Outcome V}, s₁.forest = s.forest →
      s₁.seq = s.seq → s₁.finish h o = some s' → Nests code s s' := by
    intro s₁ o hforest hseq hf
    obtain ⟨c₁, hc₁, hfin⟩ := forest_finish hf
    have howner : (s.coros h).map Coro.owner = some c₁.owner := by
      rw [← show (s₁.coros h).map Coro.owner = (s.coros h).map Coro.owner from congrFun hforest h,
        hc₁]
      rfl
    rw [hc] at howner
    refine .ended h c hc ?_
    rw [hfin, hforest, hseq, show c.locals = c₁.locals from
      congrArg Owner.held (Option.some.inj howner)]
  have hsuspend : ∀ {x : X},
      (({ s.popped h n q with world := x } : Loop Loc G A X V).setState .kSuspend h).forest =
        s.forest := (forest_setState _).trans ((forest_congr rfl).trans forest_popped)
  cases hit with
  | initial l hp he =>
    exact .same (by
      rw [he]
      exact (forest_congr rfl).trans
        (hpoint forest_popped hpopped (by rw [hp]; rfl) (p := .running) rfl))
  | await d k cd hp _ he =>
    exact .same (by
      rw [he]
      exact (forest_congr rfl).trans
        (hpoint forest_popped hpopped (by rw [hp]; rfl) (p := .running) rfl))
  | refused a e _ _ hf => exact hend forest_popped rfl hf
  | failed a e x x' _ _ _ hf => exact hend hsuspend rfl hf
  | posted a x x' hp _ _ he =>
    refine .same ?_
    rw [he]
    refine hpoint hsuspend (fun c' hc' => ?_) (by rw [hp]; rfl) rfl
    rcases modify_coros_eq_some.mp hc' with ⟨-, c₀, hc₀, rfl⟩ | ⟨hne, -⟩
    · exact hpopped c₀ hc₀
    · exact absurd rfl hne
  | sleep _ hf => exact hend forest_popped rfl hf
  | io a _ hf =>
    have hforest : Loop.forest { s.popped h n q with world := (w.resume a h (s.popped h n q).world).2 } =
        s.forest := (forest_congr rfl).trans forest_popped
    exact hend hforest rfl hf

/-- **A step does one of the five things to the forest.** -/
theorem Loop.Step.nests (fr : Frames s) (hs : Step w code s s') : Nests code s s' := by
  cases hs with
  | exec now hs => exact exec_nests fr hs
  | resume _ hs => exact resume_nests hs
  | round hs =>
    obtain @⟨s₁, now, events, x, -, -, -, hcall⟩ := hs
    exact .same ((forest_congr rfl).trans ((forest_callAll hcall).trans (forest_congr rfl)))
  | env _ => exact .same (forest_congr rfl)

/-! ## Who owns whom along a run -/

/-- Handles rank the frames: a frame owns only younger coroutines. -/
theorem Frames.ranked (fr : Frames s) : s.forest.Ranked id s.seq where
  bound i o ho := by
    obtain ⟨c, hc, -⟩ := Option.map_eq_some_iff.mp ho
    exact fr.fresh i c hc
  held i o ho := by
    obtain ⟨c, hc, rfl⟩ := Option.map_eq_some_iff.mp ho
    exact fr.locals i c hc

/-- **The step lemma**: a step keeps the ownership, and only what it moves away is at large. -/
theorem Nests.owned {large : Set ℕ} (fr : Frames s) (ho : s.forest.Owned large [])
    (hn : Nests code s s') : s'.forest.Owned {h | h ∈ large ∨ Moved code s s' h} [] := by
  have hr := fr.ranked
  have hmono : large ⊆ {h | h ∈ large ∨ Moved code s s' h} := fun _ => Or.inl
  have howner : ∀ {i : ℕ} {c : Coro Loc A V}, s.coros i = some c → s.forest i = some c.owner :=
    fun hc => by rw [forest, hc]; rfl
  cases hn with
  | same he =>
    rw [he]
    exact ho.mono hmono
  | made me c hc hrun he =>
    rw [he]
    refine (ho.grow (howner hc) ?_ ?_).mono hmono
    · rw [Coro.owner, Point.eq_running hrun]
      rfl
    · refine Option.eq_none_iff_forall_ne_some.mpr fun o hseq => ?_
      exact lt_irrefl _ (hr.bound s.seq o hseq)
  | destroyed me d c hc hd he =>
    rw [he]
    exact (ho.destroy hr (howner hc) hd (Nat.le_add_left _ _)).mono hmono
  | moved me d c hmoved hc hd he =>
    rw [he]
    exact (ho.mono hmono).move (howner hc) (Or.inr hmoved)
  | ended h c hc he =>
    rw [he]
    exact (ho.finish hr (howner hc) fun d _ => Nat.le_add_left _ _).mono hmono

/-- The root is what is there first, and nothing holds it. -/
theorem owned_boot (isVoid : Bool) (l : Loc) (g : G) (x : X) :
    (boot isVoid l g x : Loop Loc G A X V).forest.Owned {0} [] := by
  have hroot : ∀ i o, (boot isVoid l g x : Loop Loc G A X V).forest i = some o →
      i = 0 ∧ o = ⟨none, [], false⟩ := by
    intro i o ho
    obtain ⟨c, hc, rfl⟩ := Option.map_eq_some_iff.mp ho
    rw [boot_eq, Option.ite_none_right_eq_some] at hc
    obtain ⟨hi, hc⟩ := hc
    cases hc
    exact ⟨hi, rfl⟩
  refine ⟨fun i o ho d hd => ?_, fun _ _ _ _ _ hd => (List.not_mem_nil hd).elim, fun i o ho => ?_,
    List.nodup_nil, fun i o ho hend => ?_, fun i o ho => Or.inl (hroot i o ho).1⟩
  · rw [(hroot i o ho).2] at hd
    cases hd
  · rw [(hroot i o ho).2]
    exact List.nodup_nil
  · rw [(hroot i o ho).2]

/-- The run lemma. -/
theorem owned_run {isVoid : Bool} {l : Loc} {g : G} {x : X} {σ : ℕ → Loop Loc G A X V} {n : ℕ}
    (hrun : IsRun (· = boot isVoid l g x) (Step w code) σ n) : ∀ i ≤ n, Frames (σ i) ∧
      (σ i).forest.Owned {h | h = 0 ∨ ∃ j < i, Moved code (σ j) (σ (j + 1)) h} [] := by
  intro i
  induction i with
  | zero =>
    intro _
    rw [hrun.start]
    exact ⟨Frames.boot isVoid l g x, (owned_boot isVoid l g x).mono fun _ => Or.inl⟩
  | succ i ih =>
    intro hi
    obtain ⟨fr, ho⟩ := ih (by omega)
    have hs := hrun.next i hi
    refine ⟨hs.frames fr, ((hs.nests fr).owned fr ho).mono ?_⟩
    rintro h ((h0 | ⟨j, hj, hmoved⟩) | hmoved)
    · exact Or.inl h0
    · exact Or.inr ⟨j, by omega, hmoved⟩
    · exact Or.inr ⟨i, by omega, hmoved⟩

/-- What the forest holds is owned. -/
theorem owns_of_holds {large : Set ℕ} {p : ℕ} (ho : s.forest.Owned large [])
    (hh : s.forest.Holds p h) : s.Owns p h := by
  obtain ⟨op, hop, hmem⟩ := hh
  obtain ⟨od, hod, hmaker⟩ := ho.maker p op hop h hmem
  have hopen : op.ended = false := by
    by_contra hend
    rw [ho.ended p op hop (by simpa using hend)] at hmem
    cases hmem
  obtain ⟨cp, hcp, rfl⟩ := Option.map_eq_some_iff.mp hop
  obtain ⟨c, hc, rfl⟩ := Option.map_eq_some_iff.mp hod
  exact ⟨cp, c, hcp, hc, hopen, hmem, hmaker⟩

/-- **Coroutines are nested**, in every state of every run of any program. The locals of a frame
are coroutines it owns, each there once. Whoever is there hangs by owners under the root, or under
one that was moved out of its frame. And when the root has ended and none was moved, nothing else
is left. -/
theorem nested_run {isVoid : Bool} {l : Loc} {g : G} {x : X} {σ : ℕ → Loop Loc G A X V} {n : ℕ}
    (hrun : IsRun (· = boot isVoid l g x) (Step w code) σ n) (hi : i ≤ n) :
    (∀ p cp, (σ i).coros p = some cp → cp.locals.Nodup ∧ ∀ h ∈ cp.locals, (σ i).Owns p h) ∧
    (∀ h, ((σ i).coros h).isSome = true →
      ∃ r, (r = 0 ∨ ∃ j < i, Moved code (σ j) (σ (j + 1)) r) ∧
        Relation.ReflTransGen (σ i).Owns r h) ∧
    ((∀ c ∈ (σ i).coros 0, c.point.isFinal = true) →
      (∀ j < i, ∀ h, ¬ Moved code (σ j) (σ (j + 1)) h) →
      ∀ h, ((σ i).coros h).isSome = true → h = 0) := by
  obtain ⟨fr, ho⟩ := owned_run hrun i hi
  have howner : ∀ {p : ℕ} {cp : Coro Loc A V}, (σ i).coros p = some cp →
      (σ i).forest p = some cp.owner := fun hc => by rw [forest, hc]; rfl
  have hhangs : ∀ h, ((σ i).coros h).isSome = true →
      ∃ r, (r = 0 ∨ ∃ j < i, Moved code (σ j) (σ (j + 1)) r) ∧
        Relation.ReflTransGen (σ i).Owns r h := by
    intro h hh
    obtain ⟨c, hc⟩ := Option.isSome_iff_exists.mp hh
    obtain ⟨r, hr, hpath⟩ := ho.hangs fr.ranked h c.owner (howner hc)
    exact ⟨r, hr, Relation.ReflTransGen.mono (fun _ _ => owns_of_holds ho) _ _ hpath⟩
  refine ⟨fun p cp hcp => ⟨ho.nodup p cp.owner (howner hcp), fun h hh => ?_⟩, hhangs, ?_⟩
  · exact owns_of_holds ho ⟨cp.owner, howner hcp, hh⟩
  · intro hroot hstay h hh
    obtain ⟨r, hr, hpath⟩ := hhangs h hh
    obtain rfl : r = 0 := hr.resolve_right fun ⟨j, hj, hmoved⟩ => hstay j hj r hmoved
    -- the root has ended, and owns none
    rcases hpath.cases_head with heq | ⟨d, ⟨cp, -, hcp, -, hopen, -⟩, -⟩
    · exact heq.symm
    · rw [hroot cp hcp] at hopen
      cases hopen

/-- A body that makes two coroutines and moves the first of them away. The second sleeps. -/
def moveCode : ℕ × ℕ → Op (ℕ × ℕ) Unit Empty Unit
  | (0, _) => .call false true (10, 0) fun h => (1, h)
  | (1, h) => .release h (2, h)
  | (2, _) => .call false true (20, 0) fun h => (3, h)
  | (3, h) => .await h fun _ => (4, h)
  | (20, _) => .sleep ⟨5, 1, 1000⟩ fun h => (21, h)
  | (21, h) => .await h fun _ => (22, h)
  | _ => .ret (.ok none)

/-- Its states until the second sleeps. -/
def moving : ℕ → Loop (ℕ × ℕ) Unit Empty Unit Unit :=
  states coroWorld moveCode Empty.elim (boot true (0, 0) () ())
    [.round 0, .resume, .exec 0, .exec 0, .exec 0, .exec 0, .round 0, .resume, .exec 0]

theorem moving_isRun : IsRun (· = boot true (0, 0) () ()) (Step coroWorld moveCode) moving 9 :=
  isRun_states (fun m => m.elim) rfl (by decide +kernel)

/-- The sleep hangs under the root, by the second coroutine, and of a nap nothing is left. -/
theorem nested_run_moving :
    (∃ r, (r = 0 ∨ ∃ j < 9, Moved moveCode (moving j) (moving (j + 1)) r) ∧
      Relation.ReflTransGen (moving 9).Owns r 3) ∧
    ∀ h, ((nap 11).coros h).isSome = true → h = 0 :=
  ⟨(nested_run moving_isRun le_rfl).2.1 3 (by decide +kernel),
    (nested_run nap_isRun le_rfl).2.2 (by decide +kernel) fun j hj h hmoved => by
      have hnone : ∀ j < 11, (nap j).released napCode = none := by decide +kernel
      rw [Moved, hnone j hj] at hmoved
      cases hmoved.1⟩

end EfaExamples
