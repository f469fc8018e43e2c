import EfaExamples.Common.Run
import EfaExamples.Coro.Change
import EfaExamples.Coro.Fairness
import EfaExamples.Coro.Waiting
/-!
# The loop runs on `IO`

`Io` has the queues of `io.h` and bodies of any kind, `Loop` has the same queues and
coroutines. Here every run of the second is one of the first: what a coroutine does that
the queues can see is a list of `Effect`s, and the loop goes round as `Io.Pass` does with
bodies that have these effects. What is proved of `Io.Pass` for every body, above all that
handles are run in the order in which they have entered `ready_`, is so of coroutines.
-/

namespace EfaExamples

open Io

namespace Loop

variable {Loc G A X V S : Type} {w : World A X V} {code : Loc → Op Loc G A V}
variable {s s' s₁ : Loop Loc G A X V} {io : Io S} {now : ℤ} {h d : ℕ}
variable {f : Coro Loc A V → Coro Loc A V} {es es' : List Effect}

/-- **The loop as `IO` sees it**: its queues, and the states of the handles that there are. -/
structure Mirrors (s : Loop Loc G A X V) (io : Io S) : Prop where
  ready : io.ready = s.ready
  schedule : io.schedule = s.schedule
  state : ∀ h c, s.coros h = some c → io.state h = c.state

namespace Mirrors

/-- What else the loop has is not seen. -/
theorem congr (hm : Mirrors s io) (hready : s'.ready = s.ready) (hsched : s'.schedule = s.schedule)
    (hcoros : s'.coros = s.coros) : Mirrors s' io where
  ready := hm.ready.trans hready.symm
  schedule := hm.schedule.trans hsched.symm
  state h c hc := hm.state h c (hcoros ▸ hc)

theorem erased (hm : Mirrors s io) (he : Erased s s') : Mirrors s' io where
  ready := hm.ready.trans he.ready.symm
  schedule := hm.schedule.trans he.schedule.symm
  state h c hc := hm.state h c (he.coros_eq hc)

theorem modify (hm : Mirrors s io) (hf : ∀ c, (f c).state = c.state) :
    Mirrors (s.modify h f) io where
  ready := hm.ready
  schedule := hm.schedule
  state i c hc := by
    rcases modify_coros_eq_some.mp hc with ⟨rfl, c₀, hc₀, rfl⟩ | ⟨-, hc⟩
    · rw [hf]
      exact hm.state i c₀ hc₀
    · exact hm.state i c hc

theorem setPoint (hm : Mirrors s io) (p : Point Loc A V) : Mirrors (s.setPoint p h) io :=
  hm.modify fun _ => rfl

theorem addLocal (hm : Mirrors s io) : Mirrors (s.addLocal h d) io := hm.modify fun _ => rfl

theorem dropLocal (hm : Mirrors s io) : Mirrors (s.dropLocal h d) io := hm.modify fun _ => rfl

theorem setState (hm : Mirrors s io) (st : HandleState) :
    Mirrors (s.setState st h) (io.setState st h) where
  ready := hm.ready
  schedule := hm.schedule
  state i c hc := by
    rcases modify_coros_eq_some.mp hc with ⟨rfl, c₀, hc₀, rfl⟩ | ⟨hne, hc⟩
    · exact Function.update_self ..
    · exact (Function.update_of_ne hne ..).trans (hm.state i c hc)

theorem call (hm : Mirrors s io) : Mirrors (s.call h) (io.call h) where
  ready := congrArg (· ++ [h]) hm.ready
  schedule := hm.schedule
  state := (hm.setState .kScheduled).state

/-- A promise is made, with its state. -/
theorem spawn (hm : Mirrors s io) (c : Coro Loc A V) :
    Mirrors (s.spawn c) (io.setState c.state s.seq) where
  ready := hm.ready
  schedule := hm.schedule
  state i c' hc := by
    rw [spawn_coros] at hc
    split at hc
    · rename_i hi
      obtain rfl := Option.some.inj hc
      rw [hi]
      exact Function.update_self ..
    · rename_i hi
      exact (Function.update_of_ne hi ..).trans (hm.state i c' hc)

end Mirrors

/-! ## The effects of a step -/

/-- **What happens between the two states**, as far as `IO` sees it. -/
def Does (s s' : Loop Loc G A X V) (es : List Effect) : Prop :=
  ∀ {S : Type} (io : Io S), Mirrors s io → Mirrors s' (es.foldl Effect.apply io)

/-- One thing after the other. -/
theorem Does.trans (h₁ : Does s s₁ es) (h₂ : Does s₁ s' es') : Does s s' (es ++ es') := by
  intro S io hm
  rw [List.foldl_append]
  exact h₂ _ (h₁ io hm)

/-- `Handle::schedule` calls, or does nothing. -/
theorem schedule_does (s : Loop Loc G A X V) (h : ℕ) : ∃ es, Does s (Handle.schedule h s) es := by
  unfold Handle.schedule
  split
  · split
    · exact ⟨[.call h], fun _ hm => hm.call⟩
    · exact ⟨[], fun _ hm => hm⟩
  · exact ⟨[], fun _ hm => hm⟩

/-- The end of a body calls whoever awaits it. -/
theorem finish_does {o : Outcome V} (hf : s.finish h o = some s') : ∃ es, Does s s' es := by
  obtain ⟨c, -, s₁, he, -, hend⟩ := finish_cases hf
  have hfinal : Does s (s₁.modify h fun c =>
      { c with point := .final, result := some o, locals := [] }) [] :=
    fun _ hm => (hm.erased he).modify fun _ => rfl
  rcases hend with ⟨-, rfl⟩ | ⟨p, cp, -, -, rfl⟩
  · exact ⟨[], hfinal⟩
  · exact ⟨[.call p], fun io hm => (hfinal io hm).call⟩

/-- `await_suspend` marks the coroutine that awaits, and schedules the one it awaits. -/
theorem awaitSuspend_does (s : Loop Loc G A X V) (me d : ℕ) (k : Outcome V → Loc) :
    ∃ es, Does s (s.awaitSuspend me d k) es := by
  have hmark : Does s (((s.setState .kSuspend me).setPoint (.await d k) me).modify d fun c =>
      { c with next := some me }) [.setState .kSuspend me] :=
    fun _ hm => ((hm.setState .kSuspend).setPoint _).modify fun _ => rfl
  obtain ⟨es, hd⟩ := schedule_does (((s.setState .kSuspend me).setPoint (.await d k) me).modify d
    fun c => { c with next := some me }) d
  exact ⟨_, hmark.trans hd⟩

/-- **An operation of a body.** -/
theorem exec_does (hs : s.exec code now = some s') : ∃ es, Does s s' es := by
  obtain ⟨me, l, rest, -, hop⟩ := operation_of_exec hs
  cases hop with
  | step f _ he | keep d k cd _ _ _ _ he | got d k cd _ _ _ he | done d k cd _ _ he =>
    exact ⟨[], fun _ hm => he ▸ hm.congr rfl rfl rfl⟩
  | spawn c sched inner l' hmade he =>
    cases hmade with
    | call | oneway | io =>
      refine ⟨[.setState .kUnschedule s.seq], fun io hm => he ▸ ⟨hm.ready, hm.schedule, ?_⟩⟩
      exact ((hm.spawn (.new _ _ (some me))).addLocal (h := me) (d := s.seq)).state
    | sleep delay k hcode =>
      refine ⟨[.callAfter now delay s.seq], fun io hm => he ▸ ⟨hm.ready, ?_, ?_⟩⟩
      · exact congrArg (Task.push ⟨deadline now delay, s.seq⟩) hm.schedule
      · exact ((hm.spawn { Coro.new .sleep true (some me) with state := .kScheduled }).addLocal
          (h := me) (d := s.seq)).state
  | future d k cd _ _ _ _ he =>
    obtain ⟨es, hd⟩ := schedule_does s d
    exact ⟨es, fun io hm => he ▸ (hd io hm).congr rfl rfl rfl⟩
  | suspend d k cd _ _ _ he =>
    obtain ⟨es, hd⟩ := awaitSuspend_does { s with stack := rest } me d k
    exact ⟨es, fun io hm => he ▸ hd io (hm.congr rfl rfl rfl)⟩
  | destroy d k _ _ he =>
    refine ⟨[], fun io hm => he ▸ Mirrors.erased (Mirrors.dropLocal ?_) (erased_destroy ..)⟩
    exact hm.congr rfl rfl rfl
  | release d k _ _ he =>
    refine ⟨[], fun io hm => he ▸ Mirrors.dropLocal ?_⟩
    exact hm.congr rfl rfl rfl
  | ret o _ hf =>
    obtain ⟨es, hd⟩ := finish_does hf
    exact ⟨es, fun io hm => hd io (hm.congr rfl rfl rfl)⟩

/-- **An iteration of the loop of `Runone`**: the front comes off, and its coroutine has its
effects until it suspends or its body begins to execute. -/
theorem resume_does (hs : s.resume w = some s') : ∃ h q es, s.left = s'.left + 1 ∧
    s.ready = h :: q ∧ Does (s.popped h s'.left q) s' es := by
  obtain ⟨h, n, q, c, hleft, hready, -, hit⟩ := iteration_of_resume hs
  obtain ⟨_, _, _, _, hn, -⟩ := frontStep hs
  obtain rfl : n = s'.left := by omega
  refine ⟨h, q, ?_⟩
  suffices hdoes : ∃ es, Does (s.popped h s'.left q) s' es by
    obtain ⟨es, hdoes⟩ := hdoes
    exact ⟨es, hn, hready, hdoes⟩
  cases hit with
  | initial l _ he | await d k cd _ _ he =>
    exact ⟨[], fun _ hm => he ▸ (hm.setPoint .running).congr rfl rfl rfl⟩
  | refused a e _ _ hf | sleep _ hf => exact finish_does hf
  | failed a e x x' _ _ _ hf =>
    obtain ⟨es, hd⟩ := finish_does hf
    exact ⟨.setState .kSuspend h :: es, fun io hm =>
      hd _ (Mirrors.congr (hm.setState (h := h) .kSuspend) rfl rfl rfl)⟩
  | posted a x x' _ _ _ he =>
    refine ⟨[.setState .kSuspend h], fun io hm => he ▸ Mirrors.setPoint ?_ _⟩
    exact (hm.setState (h := h) .kSuspend).congr rfl rfl rfl
  | io a _ hf =>
    obtain ⟨es, hd⟩ := finish_does hf
    exact ⟨es, fun io hm => hd io (hm.congr rfl rfl rfl)⟩

namespace Mirrors

/-- The front is taken off. -/
theorem popFront {n : ℕ} {q : List ℕ} (hm : Mirrors s io) (hready : s.ready = h :: q) :
    Mirrors (s.popped h n q) (io.popFront h) := by
  have htail : io.ready.tail = q := by rw [hm.ready, hready, List.tail_cons]
  have hfront : Mirrors { s with left := n, ready := q } { io with ready := io.ready.tail } :=
    ⟨htail, hm.schedule, hm.state⟩
  exact hfront.setState .kUnschedule

theorem callAll : ∀ {events : List ℕ} {s : Loop Loc G A X V} {io : Io S}, Mirrors s io →
    s.callAll events = some s' → Mirrors s' (Io.callAll events io) := by
  intro events
  induction events with
  | nil =>
    intro s io hm hs
    rw [Loop.callAll, Option.some.injEq] at hs
    exact hs ▸ hm
  | cons e events ih =>
    intro s io hm hs
    rw [Loop.callAll] at hs
    split at hs
    · exact ih hm.call hs
    · cases hs

theorem runone (hm : Mirrors s io) (now : ℤ) : Mirrors (s.runone now) (io.moveDue now) where
  ready := by
    show (Task.drain _ _ _).2 = (Task.drain _ _ _).2
    rw [hm.schedule, hm.ready]
  schedule := by
    show (Task.drain _ _ _).1 = (Task.drain _ _ _).1
    rw [hm.schedule, hm.ready]
  state := hm.state

end Mirrors

/-! ## A run of the loop, played by `IO` -/

/-- What the handles are going to do: the effects of those that the current `Runone` has still to
run, and for each pass to come its events and the effects of those it runs. -/
abbrev Tape := List (List Effect) × List (List ℕ × List (List Effect))

/-- Every handle does what the tape says. -/
def play : Body Tape := fun _ s => (s.rest.1.headD [], (s.rest.1.tail, s.rest.2))

/-- The selector returns what it says. -/
def tape : Polled Tape where
  select t :=
    match t.2 with
    | [] => (.ok [], t)
    | (events, effects) :: later => (.ok events, (effects, later))
  stopped t := t.2.isEmpty

/-- Effects leave the rest. -/
theorem rest_foldl_apply (es : List Effect) (io : Io S) : (es.foldl Effect.apply io).rest = io.rest := by
  induction es generalizing io with
  | nil => rfl
  | cons e es ih =>
    rw [List.foldl_cons, ih]
    cases e <;> rfl

theorem rest_callAll (events : List ℕ) (io : Io S) : (Io.callAll events io).rest = io.rest := by
  induction events generalizing io with
  | nil => rfl
  | cons e events ih => exact (ih (io.call e)).trans rfl

/-- **What is left of a run**, from any state of it: the effects of the body that executes, if one
does, the rest of `Runone`'s loop, and then passes. -/
theorem exists_tape (hrun : Relation.ReflTransGen (Step w code) s s') (hhead : s'.AtHead) :
    ∃ (es : List Effect) (t : Tape), (s.stack = [] → es = []) ∧
      ∀ io : Io Tape, Mirrors s io → ∃ io₁ log io',
        runHandles play s.left (es.foldl Effect.apply { io with rest := t }) = some (io₁, log) ∧
        Relation.ReflTransGen (fun a b => ∃ log, Pass play tape a b log) io₁ io' ∧
        Mirrors s' io' := by
  induction hrun using Relation.ReflTransGen.head_induction_on with
  | refl =>
    refine ⟨[], ([], []), fun _ => rfl, fun io hm => ⟨{ io with rest := ([], []) }, [],
      { io with rest := ([], []) }, ?_, .refl, hm.ready, hm.schedule, hm.state⟩⟩
    rw [hhead.2]
    rfl
  | @head s t hstep _ ih =>
    obtain ⟨es', tp, hnil, hplay⟩ := ih
    -- the tape is in place before the next state, and effects leave it there
    have hnext : ∀ io : Io Tape, io.rest = tp → Mirrors t io → ∃ io₁ log io',
        runHandles play t.left (es'.foldl Effect.apply io) = some (io₁, log) ∧
        Relation.ReflTransGen (fun a b => ∃ log, Pass play tape a b log) io₁ io' ∧
        Mirrors s' io' := by
      rintro io rfl hm
      exact hplay io hm
    cases hstep with
    | exec now hs =>
      obtain ⟨es, hdoes⟩ := exec_does hs
      refine ⟨es ++ es', tp, fun hstack => ?_, fun io hm => ?_⟩
      · simp [exec, hstack] at hs
      · rw [List.foldl_append, ← (exec_appends hs).left]
        exact hnext _ (rest_foldl_apply es _) (hdoes _ ⟨hm.ready, hm.schedule, hm.state⟩)
    | resume hstack hs =>
      obtain ⟨h, q, es, hleft, hready, hdoes⟩ := resume_does hs
      refine ⟨[], ((es ++ es') :: tp.1, tp.2), fun _ => rfl, fun io hm => ?_⟩
      have hm' : Mirrors s { io with rest := tp } := ⟨hm.ready, hm.schedule, hm.state⟩
      obtain ⟨io₁, log, io', hrun, hpasses, hend⟩ := hnext _ (rest_foldl_apply es _)
        (hdoes _ (hm'.popFront hready))
      refine ⟨io₁, .leave h :: ((es ++ es').flatMap Effect.enters).map .enter ++ log, io', ?_,
        hpasses, hend⟩
      have hfront : ({ io with rest := ((es ++ es') :: tp.1, tp.2) } : Io Tape).ready = h :: q :=
        hm.ready.trans hready
      rw [hleft, List.foldl_nil, runHandles_succ hfront]
      rw [← List.foldl_append] at hrun
      exact congrArg (Option.map _) hrun
    | round hs =>
      cases hs with
      | @mk s₁ now events x hs hstop hpoll hcall =>
        have hempty : es' = [] := hnil ((callAll_stack hcall).trans hs.1)
        refine ⟨[], ([], (events, tp.1) :: tp.2), fun _ => rfl, fun io hm => ?_⟩
        have hm' : Mirrors { s with world := x } { io with rest := tp } :=
          ⟨hm.ready, hm.schedule, hm.state⟩
        have hmoved := (hm'.callAll hcall).runone now
        obtain ⟨io₁, log, io', hrun, hpasses, hend⟩ := hnext _ (rest_callAll events _) hmoved
        rw [hempty, List.foldl_nil] at hrun
        have hcount : (s₁.runone now).left =
            ((Io.callAll events { io with rest := tp }).moveDue now).ready.length :=
          congrArg List.length hmoved.ready.symm
        rw [hcount] at hrun
        obtain ⟨ran, hone⟩ : ∃ ran,
            (Io.callAll events { io with rest := tp }).runone play now = some (io₁, ran) := by
          rw [Io.runone, hrun]
          exact ⟨_, rfl⟩
        have hpass : Pass play tape { io with rest := ([], (events, tp.1) :: tp.2) } io₁
            (events.map .enter ++ ran) := .mk now (by simp [Io.stopped, tape]) rfl hone
        exact ⟨_, [], io', by rw [hs.2]; rfl, .head ⟨_, hpass⟩ hpasses, hend⟩
    | env hs =>
      exact ⟨es', tp, hnil, fun io hm => hplay io (hm.congr rfl rfl rfl)⟩

/-- What `IO` sees of the loop that `Run` starts. -/
def bootIo (t : Tape) : Io Tape where
  ready := [0]
  schedule := []
  sorted := .nil
  state := fun _ => .kScheduled
  rest := t

/-- **The loop is one `IO`.** Whatever the bodies do, whenever `Run` is at its test the loop is as
`IO` is after some passes, and the handles that these have run are those that have entered
`ready_`, in that order, but for the ones that are still there. -/
theorem exists_passes {isVoid : Bool} {l : Loc} {g : G} {x : X}
    (hrun : Relation.ReflTransGen (Step w code) (boot isVoid l g x) s) (hhead : s.AtHead) :
    ∃ (t : Tape) (τ : ℕ → Io Tape) (log : ℕ → List (Fifo.Event ℕ)) (m : ℕ), τ 0 = bootIo t ∧
      (∀ i < m, Pass play tape (τ i) (τ (i + 1)) (log i)) ∧ Mirrors s (τ m) ∧
      Fifo.left ((List.range m).flatMap log) ++ s.ready =
        0 :: Fifo.entered ((List.range m).flatMap log) := by
  obtain ⟨es, t, hnil, hplay⟩ := exists_tape hrun hhead
  have hboot : Mirrors (boot isVoid l g x : Loop Loc G A X V) (bootIo t) := by
    rw [boot_eq]
    refine ⟨rfl, rfl, fun h c hc => ?_⟩
    dsimp only at hc
    split at hc
    · cases hc
      rfl
    · cases hc
  obtain ⟨io₁, log₁, io', hfirst, hpasses, hend⟩ := hplay _ hboot
  have hzero : io₁ = bootIo t := by
    rw [hnil (by rw [boot_eq]), boot_eq] at hfirst
    exact (congrArg Prod.fst (Option.some.inj hfirst)).symm
  obtain ⟨τ, m, hτ, rfl⟩ : ∃ τ m, IsRun (· = bootIo t) (fun a b => ∃ log, Pass play tape a b log)
      τ m ∧ τ m = io' := exists_isRun_of_reflTransGen hzero hpasses
  have hlog : ∀ i, ∃ log, i < m → Pass play tape (τ i) (τ (i + 1)) log := fun i => by
    by_cases hi : i < m
    · obtain ⟨log, hpass⟩ := hτ.next i hi
      exact ⟨log, fun _ => hpass⟩
    · exact ⟨[], fun h => absurd h hi⟩
  choose log hlog using hlog
  refine ⟨t, τ, log, m, hτ.start, hlog, hend, ?_⟩
  have hpass : ∀ i < m, Fifo.Replay (τ i).ready (log i) (τ (i + 1)).ready := fun i hi => by
    obtain ⟨-, -, -, -, -, -, -, -, -, -, -, -, hreplay⟩ := (hlog i hi).runs
    exact hreplay
  have hreplay := Fifo.Replay.flatMap_range m hpass
  have heq := hreplay.left_append_eq
  rw [hend.ready, hτ.start] at heq
  exact heq

end Loop

end EfaExamples
