import EfaExamples.Coro.Waiting
/-!
# The clock along a run

A step of the loop with the reading it takes of the clock and the tasks it
moves from `schedule_` to `ready_`. Nothing is pushed to `schedule_` but by a
`Sleep`, and nothing leaves it but what a round moves, from its front.
-/

namespace EfaExamples

namespace Loop

variable {Loc G A X V : Type} (w : World A X V) (code : Loc → Op Loc G A V)

/-- `IO::Run` goes round at the reading `now`, and `Runone` moves `moved`. -/
inductive RoundAt (now : ℤ) : List Task → Loop Loc G A X V → Loop Loc G A X V → Prop
  | mk {s s₁ : Loop Loc G A X V} {events : List ℕ} {x : X} :
      s.AtHead → s.stopped w = false → w.poll s.world = (.ok events, x) →
      { s with world := x }.callAll events = some s₁ →
      RoundAt now (Task.due (time now) s₁.schedule) s (s₁.runone now)

/-- A step at the reading `now`, should it take one. -/
inductive StepAt (now : ℤ) : List Task → Loop Loc G A X V → Loop Loc G A X V → Prop
  | exec {s s' : Loop Loc G A X V} : s.exec code now = some s' → StepAt now [] s s'
  | resume {s s' : Loop Loc G A X V} : s.stack = [] → s.resume w = some s' → StepAt now [] s s'
  | round {s s' : Loop Loc G A X V} {moved : List Task} : RoundAt w now moved s s' →
      StepAt now moved s s'
  | env {s : Loop Loc G A X V} {x : X} : w.env s.world x → StepAt now [] s { s with world := x }

variable {w code} {s s' : Loop Loc G A X V} {now : ℤ} {moved : List Task}

/-- Every step is one at some reading. -/
theorem step_iff_stepAt : Step w code s s' ↔ ∃ now moved, StepAt w code now moved s s' := by
  constructor
  · rintro (⟨now, hs⟩ | ⟨hstack, hs⟩ | ⟨⟨hhead, hstop, hpoll, hcall⟩⟩ | hs)
    · exact ⟨now, [], .exec hs⟩
    · exact ⟨0, [], .resume hstack hs⟩
    · exact ⟨_, _, .round ⟨hhead, hstop, hpoll, hcall⟩⟩
    · exact ⟨0, [], .env hs⟩
  · rintro ⟨now, moved, hs | ⟨hstack, hs⟩ | ⟨⟨hhead, hstop, hpoll, hcall⟩⟩ | hs⟩
    · exact .exec now hs
    · exact .resume hstack hs
    · exact .round ⟨hhead, hstop, hpoll, hcall⟩
    · exact .env hs

/-- **A round** takes the tasks off the front of `schedule_`, those that are due and no
other, and puts their handles at the end of `ready_`, behind those of the events. -/
theorem RoundAt.moves (hr : RoundAt w now moved s s') :
    s.schedule = moved ++ s'.schedule ∧
      (∃ events x, w.poll s.world = (.ok events, x) ∧
        s'.ready = s.ready ++ events ++ moved.map Task.handle) ∧
      (∀ t ∈ moved, t.when ≤ time now) ∧
      ∀ t ∈ s'.schedule.head?, time now < t.when := by
  cases hr with
  | @mk s s₁ events x hhead hstop hpoll hcall =>
    obtain ⟨-, hready, hsched⟩ := callAll_fields hcall
    have hrest : (s₁.runone now).schedule = s₁.schedule.dropWhile fun t => t.when ≤ time now := by
      rw [runone, Task.drain_eq]
    refine ⟨?_, ⟨events, x, hpoll, by rw [runone, Task.drain_eq, hready]⟩, fun t ht => ?_,
      fun t ht => ?_⟩
    · rw [hrest, Task.due, List.takeWhile_append_dropWhile, hsched]
    · simpa using List.mem_takeWhile_imp ht
    · rw [hrest] at ht
      have hno := List.head?_dropWhile_not (fun t : Task => decide (t.when ≤ time now)) s₁.schedule
      rw [ht] at hno
      simpa using hno

/-- Only a round moves tasks. -/
theorem StepAt.round_of_ne_nil (hs : StepAt w code now moved s s') (hm : moved ≠ []) :
    RoundAt w now moved s s' := by
  cases hs with
  | round hr => exact hr
  | exec | resume | env => exact absurd rfl hm

/-- The executing body is at a `Sleep`. -/
def Sleeps (code : Loc → Op Loc G A V) (s : Loop Loc G A X V) (delay : Duration) : Prop :=
  ∃ me l rest k, s.stack = (me, l) :: rest ∧ code l = .sleep delay k

theorem awaitSuspend_schedule {me d : ℕ} {k : Outcome V → Loc} :
    (s.awaitSuspend me d k).schedule = s.schedule := by
  unfold awaitSuspend Handle.schedule
  split
  · split <;> rfl
  · rfl

theorem finish_schedule {h : ℕ} {o : Outcome V} (hf : s.finish h o = some s') :
    s'.schedule = s.schedule := by
  obtain ⟨c, -, s₁, he, -, ⟨-, rfl⟩ | ⟨p, cp, -, -, rfl⟩⟩ := finish_cases hf
  · exact he.schedule
  · exact he.schedule

/-- **What a step does to `schedule_`**: a `Sleep` pushes a task with a new handle, and
otherwise what is moved comes off the front. -/
theorem StepAt.schedule (hs : StepAt w code now moved s s') :
    (∃ delay, s.Sleeps code delay ∧ moved = [] ∧ s'.seq = s.seq + 1 ∧
      s'.schedule = Task.push ⟨deadline now delay, s.seq⟩ s.schedule) ∨
    s.schedule = moved ++ s'.schedule ∧ ∀ t ∈ moved, t.when ≤ time now := by
  have hkept : ∀ {s₁ : Loop Loc G A X V}, s₁.schedule = s.schedule →
      s.schedule = [] ++ s₁.schedule ∧ ∀ t ∈ ([] : List Task), t.when ≤ time now := by
    intro s₁ h
    exact ⟨h.symm, fun t ht => by cases ht⟩
  cases hs with
  | exec hs =>
    obtain ⟨me, l, rest, hstack, hop⟩ := operation_of_exec hs
    cases hop with
    | step f _ he | keep d k cd _ _ _ _ he | got d k cd _ _ _ he | done d k cd _ _ he
    | release d k _ _ he => exact he ▸ Or.inr (hkept rfl)
    | spawn cn sched inner l' hm he =>
      cases hm with
      | call | oneway | io => exact he ▸ Or.inr (hkept rfl)
      | sleep delay k hcode =>
        exact he ▸ Or.inl ⟨delay, ⟨me, l, rest, k, hstack, hcode⟩, rfl, rfl, rfl⟩
    | future d k cd _ _ _ _ he =>
      refine he ▸ Or.inr (hkept ?_)
      show (Handle.schedule d s).schedule = _
      unfold Handle.schedule
      split
      · split <;> rfl
      · rfl
    | suspend d k cd _ _ _ he =>
      exact he ▸ Or.inr (hkept awaitSuspend_schedule)
    | destroy d k _ _ he =>
      exact he ▸ Or.inr (hkept (erased_destroy s.seq d
        (Loop.dropLocal me d { s with stack := (me, k) :: rest })).schedule)
    | ret o _ hf => exact Or.inr (hkept ((finish_schedule hf).trans rfl))
  | resume hstack hs =>
    obtain ⟨i, n, q, ci, -, -, -, hit⟩ := iteration_of_resume hs
    cases hit with
    | initial l _ he | await d k cd _ _ he | posted a x x' _ _ _ he =>
      exact he ▸ Or.inr (hkept rfl)
    | refused a e _ _ hf | failed a e x x' _ _ _ hf | sleep _ hf | io a _ hf =>
      exact Or.inr (hkept ((finish_schedule hf).trans rfl))
  | round hs =>
    obtain ⟨hsched, -, hdue, -⟩ := hs.moves
    exact Or.inr ⟨hsched, hdue⟩
  | env hs => exact Or.inr (hkept rfl)

end Loop

end EfaExamples
