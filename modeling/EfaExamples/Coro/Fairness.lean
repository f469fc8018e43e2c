import EfaExamples.Coro.Model.Io
/-!
# First come, first run

`Runone` counts `ready_` once, after the timers, so the bodies it runs cannot
make it longer than that: what they call waits for the next pass. Whatever they
do, `ready_` is a queue of which only the front leaves, and handles are run in
the order in which they entered it.
-/

namespace EfaExamples

open Fifo

namespace Io

variable {S : Type} {body : Body S} {w : Polled S} {s s' : Io S} {now : ℤ} {es : List (Event ℕ)}

/-! ## What the parts of a pass do to `ready_` -/

/-- A body only adds to the end of `ready_`. -/
theorem ready_foldl_apply (effects : List Effect) (s : Io S) :
    (effects.foldl Effect.apply s).ready = s.ready ++ effects.flatMap Effect.enters := by
  induction effects generalizing s with
  | nil => simp
  | cons e effects ih =>
    rw [List.foldl_cons, ih, List.flatMap_cons, ← List.append_assoc]
    cases e with
    | call => rfl
    | callAfter | setState => simp [Effect.apply, Effect.enters, callAfter, setState]

theorem ready_callAll (events : List ℕ) (s : Io S) :
    (callAll events s).ready = s.ready ++ events := by
  induction events generalizing s with
  | nil => simp [callAll]
  | cons h events ih =>
    have := ih (s.call h)
    rwa [show (s.call h).ready = s.ready ++ [h] from rfl, List.append_assoc] at this

theorem schedule_callAll (events : List ℕ) (s : Io S) :
    (callAll events s).schedule = s.schedule := by
  induction events generalizing s with
  | nil => rfl
  | cons h events ih => exact (ih (s.call h)).trans rfl

theorem ready_moveDue (now : ℤ) (s : Io S) :
    (s.moveDue now).ready = s.ready ++ (Task.due (time now) s.schedule).map Task.handle := by
  show (Task.drain (time now) s.schedule s.ready).2 = _
  rw [Task.drain_eq]

/-! ## The handles that `Runone` runs -/

/-- `Runone` takes `h` off the front of `ready_`. -/
def popFront (h : ℕ) (s : Io S) : Io S :=
  { s with ready := s.ready.tail }.setState .kUnschedule h

/-- **One iteration**: `h` comes off the front, and `run()` does what it does. -/
def runHandle (body : Body S) (s : Io S) (h : ℕ) : Io S :=
  (body h (s.popFront h)).1.foldl Effect.apply
    { s.popFront h with rest := (body h (s.popFront h)).2 }

/-- Whom the handles `Call` at once when they run one after the other, in order. -/
def called (body : Body S) : List ℕ → Io S → List ℕ
  | [], _ => []
  | h :: hs, s =>
    (body h (s.popFront h)).1.flatMap Effect.enters ++ called body hs (s.runHandle body h)

theorem ready_runHandle (body : Body S) (s : Io S) (h : ℕ) : (s.runHandle body h).ready =
    s.ready.tail ++ (body h (s.popFront h)).1.flatMap Effect.enters :=
  ready_foldl_apply _ _

theorem runHandles_succ {h n : ℕ} {q : List ℕ} (hready : s.ready = h :: q) :
    s.runHandles body (n + 1) = ((s.runHandle body h).runHandles body n).map fun p =>
      (p.1, .leave h :: ((body h (s.popFront h)).1.flatMap Effect.enters).map .enter ++ p.2) := by
  have hpop : { s with ready := q }.setState .kUnschedule h = s.popFront h := by
    rw [popFront, hready, List.tail_cons]
  rw [runHandles, hready]
  dsimp only
  rw [hpop]
  rfl

/-- **The loop of `Runone`**: as long as the handles it owes are in front, it runs them and no
other, in their order. -/
theorem exists_runHandles (body : Body S) (hs : List ℕ) (s : Io S) (hfront : hs <+: s.ready) :
    ∃ es, s.runHandles body hs.length = some (hs.foldl (runHandle body) s, es) ∧
      Replay s.ready es (hs.foldl (runHandle body) s).ready ∧
      left es = hs ∧ entered es = called body hs s := by
  induction hs generalizing s with
  | nil => exact ⟨[], rfl, .nil, rfl, rfl⟩
  | cons h hs ih =>
    obtain ⟨behind, hready⟩ := hfront
    rw [List.cons_append] at hready
    have htail := s.ready_runHandle body h
    rw [← hready, List.tail_cons] at htail
    obtain ⟨es, hrun, hreplay, hleft, hentered⟩ := ih (s.runHandle body h)
      ⟨behind ++ (body h (s.popFront h)).1.flatMap Effect.enters, by rw [htail, List.append_assoc]⟩
    refine ⟨.leave h :: ((body h (s.popFront h)).1.flatMap Effect.enters).map .enter ++ es,
      ?_, ?_, ?_, ?_⟩
    · rw [List.length_cons, runHandles_succ hready.symm, hrun]
      rfl
    · rw [← hready]
      rw [htail] at hreplay
      exact .leave ((Replay.map_enter _ _).append hreplay)
    · rw [List.cons_append, left_leave, left_append, left_map_enter, hleft, List.nil_append]
    · rw [List.cons_append, entered_leave, entered_append, entered_map_enter, hentered, called]

/-- **`Runone` returns.** It has run who was in `ready_`, and then those whose timer was due; who
has entered since is there, in the order of entering. -/
theorem exists_runone (body : Body S) (s : Io S) (now : ℤ) :
    ∃ es, s.runone body now = some ((s.moveDue now).ready.foldl (runHandle body) (s.moveDue now),
        ((Task.due (time now) s.schedule).map Task.handle).map .enter ++ es) ∧
      left es = (s.moveDue now).ready ∧
      entered es = called body (s.moveDue now).ready (s.moveDue now) ∧
      ((s.moveDue now).ready.foldl (runHandle body) (s.moveDue now)).ready = entered es ∧
      Replay s.ready (((Task.due (time now) s.schedule).map Task.handle).map .enter ++ es)
        ((s.moveDue now).ready.foldl (runHandle body) (s.moveDue now)).ready := by
  obtain ⟨es, hrun, hreplay, hleft, hentered⟩ :=
    exists_runHandles body (s.moveDue now).ready (s.moveDue now) List.prefix_rfl
  obtain ⟨-, hready⟩ := hreplay.left_eq_of_length (congrArg List.length hleft)
  refine ⟨es, by rw [runone, hrun]; rfl, hleft, hentered, hready, ?_⟩
  rw [ready_moveDue] at hreplay ⊢
  exact (Replay.map_enter _ _).append hreplay

/-- **A pass** queues the events and the timers that are due, and runs who is in `ready_` then. -/
theorem Pass.runs (h : Pass body w s s' es) :
    ∃ (events : List ℕ) (x : S) (now : ℤ) (due : List ℕ) (s₁ : Io S),
      w.select s.rest = (.ok events, x) ∧ due = (Task.due (time now) s.schedule).map Task.handle ∧
      s₁ = (callAll events { s with rest := x }).moveDue now ∧
      s₁.ready = s.ready ++ events ++ due ∧ s' = s₁.ready.foldl (runHandle body) s₁ ∧
      left es = s₁.ready ∧ entered es = events ++ due ++ called body s₁.ready s₁ ∧
      Replay s.ready es s'.ready := by
  cases h with
  | @mk events x es now hstop hselect hrun =>
    obtain ⟨es₁, hrun₁, hleft, hentered, -, hreplay⟩ :=
      exists_runone body (callAll events { s with rest := x }) now
    rw [hrun, Option.some.injEq, Prod.mk.injEq] at hrun₁
    obtain ⟨rfl, rfl⟩ := hrun₁
    have hready := ready_callAll events { s with rest := x }
    have hsched := schedule_callAll events { s with rest := x }
    refine ⟨events, x, now, _, _, hselect, rfl, rfl, by rw [ready_moveDue, hready, hsched], rfl,
      ?_, ?_, ?_⟩
    · rw [left_append, left_append, left_map_enter, left_map_enter, hleft]
      rfl
    · rw [entered_append, entered_append, entered_map_enter, entered_map_enter, hentered, hsched,
        List.append_assoc]
    · rw [hready] at hreplay
      exact (Replay.map_enter _ _).append hreplay

/-- The tasks that are due come first in `schedule_`, and `Runone` moves them and no other. -/
theorem schedule_moveDue (s : Io S) (now : ℤ) :
    s.schedule = Task.due (time now) s.schedule ++ (s.moveDue now).schedule ∧
      (Task.due (time now) s.schedule).Pairwise Task.le ∧
      (∀ t ∈ Task.due (time now) s.schedule, t.when ≤ time now) ∧
      ∀ t ∈ (s.moveDue now).schedule, time now < t.when := by
  have hlater : (s.moveDue now).schedule = s.schedule.dropWhile fun t => t.when ≤ time now := by
    show (Task.drain (time now) s.schedule s.ready).1 = _
    rw [Task.drain_eq]
  rw [hlater]
  refine ⟨List.takeWhile_append_dropWhile.symm, s.sorted.sublist (List.takeWhile_sublist _),
    fun t ht => ?_, fun t ht => ?_⟩
  · simpa using List.mem_takeWhile_imp ht
  · have hsorted := s.sorted.sublist (List.dropWhile_sublist fun t : Task => t.when ≤ time now)
    have hno := List.head?_dropWhile_not (fun t : Task => decide (t.when ≤ time now)) s.schedule
    cases hlater : s.schedule.dropWhile fun t => t.when ≤ time now with
    | nil =>
      rw [hlater] at ht
      cases ht
    | cons u later =>
      rw [hlater] at hsorted hno ht
      have hu : time now < u.when := by simpa using hno
      rcases List.mem_cons.mp ht with rfl | ht
      · exact hu
      · have := (List.pairwise_cons.mp hsorted).1 t ht
        unfold Task.le at this
        omega

/-- **Fair, first in first out.** For any queues, any reading of the clock and any bodies,
`Runone` returns after it has run who was in `ready_`, followed by the timers that are due in
their order, each once; who was called meanwhile is in `ready_`, in the order of the calls. So
`Run` comes round to `Select` for as long as it is not stopped and `Select` does not throw. And
along every run, every pass runs so, and up to any point the handles that were run are the first
of those that were there or have entered, in that order. -/
theorem runone_fair (body : Body S) (w : Polled S) :
    (∀ (s : Io S) (now : ℤ), ∃ (s₁ : Io S) (es : List (Event ℕ)) (due later : List Task),
      s.schedule = due ++ later ∧ due.Pairwise Task.le ∧ (∀ t ∈ due, t.when ≤ time now) ∧
      (∀ t ∈ later, time now < t.when) ∧
      s₁.ready = s.ready ++ due.map Task.handle ∧ s₁.schedule = later ∧ s₁.state = s.state ∧
      s₁.rest = s.rest ∧
      s.runone body now = some (s₁.ready.foldl (runHandle body) s₁,
        (due.map Task.handle).map .enter ++ es) ∧
      left es = s₁.ready ∧ entered es = called body s₁.ready s₁ ∧
      (s₁.ready.foldl (runHandle body) s₁).ready = entered es) ∧
    (∀ (s : Io S) (events : List ℕ) (x : S), s.stopped w = false →
      w.select s.rest = (.ok events, x) → ∀ now : ℤ, ∃ s' es,
        (callAll events { s with rest := x }).runone body now = some (s', es) ∧
        Pass body w s s' (events.map .enter ++ es)) ∧
    ∀ (σ : ℕ → Io S) (log : ℕ → List (Event ℕ)) (n : ℕ),
      (∀ i < n, Pass body w (σ i) (σ (i + 1)) (log i)) →
      (∀ i < n, ∃ (events : List ℕ) (x : S) (now : ℤ) (due : List ℕ) (s₁ : Io S),
        w.select (σ i).rest = (.ok events, x) ∧
        due = (Task.due (time now) (σ i).schedule).map Task.handle ∧
        s₁ = (callAll events { σ i with rest := x }).moveDue now ∧
        s₁.ready = (σ i).ready ++ events ++ due ∧
        σ (i + 1) = s₁.ready.foldl (runHandle body) s₁ ∧ left (log i) = s₁.ready ∧
        entered (log i) = events ++ due ++ called body s₁.ready s₁) ∧
      left ((List.range n).flatMap log) ++ (σ n).ready =
        (σ 0).ready ++ entered ((List.range n).flatMap log) ∧
      ∀ p, p <+: (List.range n).flatMap log → left p <+: (σ 0).ready ++ entered p := by
  refine ⟨fun s now => ?_, fun s events x hstop hselect now => ?_, fun σ log n h => ?_⟩
  · obtain ⟨es, hrun, hleft, hentered, hready, -⟩ := exists_runone body s now
    obtain ⟨hsched, hsorted, hdue, hlater⟩ := s.schedule_moveDue now
    exact ⟨s.moveDue now, es, _, _, hsched, hsorted, hdue, hlater, s.ready_moveDue now, rfl, rfl,
      rfl, hrun, hleft, hentered, hready⟩
  · obtain ⟨es, hrun, -⟩ := exists_runone body (callAll events { s with rest := x }) now
    exact ⟨_, _, hrun, .mk now hstop hselect hrun⟩
  · have hruns : ∀ i < n, Replay (σ i).ready (log i) (σ (i + 1)).ready := fun i hi => by
      obtain ⟨-, -, -, -, -, -, -, -, -, -, -, -, hreplay⟩ := (h i hi).runs
      exact hreplay
    have hreplay := Replay.flatMap_range n hruns
    refine ⟨fun i hi => ?_, hreplay.left_append_eq, fun p hp => ?_⟩
    · obtain ⟨events, x, now, due, s₁, hselect, hdue, hs₁, hready, hnext, hleft, hentered, -⟩ :=
        (h i hi).runs
      exact ⟨events, x, now, due, s₁, hselect, hdue, hs₁, hready, hnext, hleft, hentered⟩
    · obtain ⟨q, hq⟩ := hreplay.take hp
      exact ⟨q, hq.left_append_eq⟩

/-- Every body calls its own handle. -/
def callSelf : Body Unit := fun h _ => ([.call h], ())

/-- Two handles are in `ready_`, and one of two timers is due at 5 ms. -/
def twoReady : Io Unit where
  ready := [3, 4]
  schedule := [⟨5, 7⟩, ⟨6, 8⟩]
  sorted := by simp [Task.le]
  state := fun _ => .kScheduled
  rest := ()

/-- They are run once each, and then the timer that is due; all of them are in `ready_` again. -/
theorem runone_fair_callSelf : ∃ s' es, twoReady.runone callSelf 5000000 = some (s', es) ∧
    left es = [3, 4, 7] ∧ s'.ready = [3, 4, 7] := by
  obtain ⟨s₁, es, due, later, hsched, -, hdue, hlater, hready, -, -, -, hrun, hleft, hentered,
    hend⟩ := (runone_fair callSelf ⟨fun s => (.ok [], s), fun _ => true⟩).1 twoReady 5000000
  have hone : due = [⟨5, 7⟩] := by
    cases due with
    | nil =>
      have := hlater ⟨5, 7⟩ (by rw [← List.nil_append later, ← hsched]; simp [twoReady])
      exact absurd this (by decide)
    | cons t due =>
      obtain ⟨rfl, hrest⟩ := List.cons.inj hsched
      cases due with
      | nil => rfl
      | cons u due =>
        obtain ⟨rfl, -⟩ := List.cons.inj hrest
        exact absurd (hdue ⟨6, 8⟩ (by simp)) (by decide)
  rw [hone] at hready hrun
  rw [show s₁.ready = [3, 4, 7] from hready] at hrun hleft hentered hend
  exact ⟨_, _, hrun, by simpa using hleft, hend.trans hentered⟩

end Io

end EfaExamples
