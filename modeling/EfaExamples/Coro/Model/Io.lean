import EfaExamples.Common.Fifo
import EfaExamples.Coro.Model.Timer
/-!
# Class `IO`, whatever it runs

`io.h` by itself, over any handles: `run()` of a handle may do what it likes,
and to the loop it may `Call` any handles, at once or with a delay. `Loop` has
the same queues with coroutines for handles, and its runs are runs of this one.
-/

namespace EfaExamples

/-- Class `IO`, and the handles. `S` is what else the bodies and the selector have. -/
structure Io (S : Type) where
  /-- `ready_` -/
  ready : List ℕ
  /-- `schedule_` -/
  schedule : List Task
  sorted : schedule.Pairwise Task.le
  /-- `Handle::state_` -/
  state : ℕ → HandleState
  rest : S

namespace Io

variable {S : Type}

/-- `Handle::SetState`. -/
def setState (st : HandleState) (h : ℕ) (s : Io S) : Io S :=
  { s with state := Function.update s.state h st }

/-- `IO::Call(handle)`. -/
def call (h : ℕ) (s : Io S) : Io S :=
  { s.setState .kScheduled h with ready := s.ready ++ [h] }

/-- `IO::Call(delay, handle)`, at the clock reading `now`. -/
def callAfter (now : ℤ) (delay : Duration) (h : ℕ) (s : Io S) : Io S :=
  { s.setState .kScheduled h with
    schedule := Task.push ⟨deadline now delay, h⟩ s.schedule
    sorted := s.sorted.orderedInsert _ _ }

/-- What a body does that the loop can see. -/
inductive Effect
  | call (h : ℕ)
  /-- with the reading that `Call` takes of the clock -/
  | callAfter (now : ℤ) (delay : Duration) (h : ℕ)
  | setState (st : HandleState) (h : ℕ)

namespace Effect

def apply (s : Io S) : Effect → Io S
  | .call h => s.call h
  | .callAfter now delay h => s.callAfter now delay h
  | .setState st h => s.setState st h

/-- Who enters `ready_` by it. -/
def enters : Effect → List ℕ
  | .call h => [h]
  | .callAfter .. | .setState .. => []

end Effect

/-- `run()` of every handle: what it does to the loop, in order, and what it leaves of the rest. -/
abbrev Body (S : Type) := ℕ → Io S → List Effect × S

/-- The timer loop of `Runone`. -/
def moveDue (now : ℤ) (s : Io S) : Io S :=
  { s with
    schedule := (Task.drain (time now) s.schedule s.ready).1
    sorted := by
      rw [Task.drain_eq]
      exact s.sorted.sublist (List.dropWhile_sublist _)
    ready := (Task.drain (time now) s.schedule s.ready).2 }

variable (body : Body S)

/-- The second loop of `Runone`, which still has `n` handles to run, and what happens to `ready_`.
`front()` of an empty deque is undefined. -/
def runHandles : ℕ → Io S → Option (Io S × List (Fifo.Event ℕ))
  | 0, s => some (s, [])
  | n + 1, s =>
    match s.ready with
    | [] => none
    | h :: ready =>
      let s := { s with ready := ready }.setState .kUnschedule h
      let r := body h s
      (runHandles n (r.1.foldl Effect.apply { s with rest := r.2 })).map fun p =>
        (p.1, .leave h :: (r.1.flatMap Effect.enters).map .enter ++ p.2)

/-- `IO::Runone`, at the clock reading `now`. -/
def runone (now : ℤ) (s : Io S) : Option (Io S × List (Fifo.Event ℕ)) :=
  let moved := ((Task.due (time now) s.schedule).map Task.handle).map Fifo.Event.enter
  let s := s.moveDue now
  (s.runHandles body s.ready.length).map fun p => (p.1, moved ++ p.2)

/-- What `IO` has of its `Selector`. -/
structure Polled (S : Type) where
  /-- `Selector::Select`, which may throw -/
  select : S → Except String (List ℕ) × S
  /-- `Selector::Stopped` -/
  stopped : S → Bool

variable (w : Polled S)

/-- `IO::Stopped`. -/
def stopped (s : Io S) : Bool := s.schedule.isEmpty && s.ready.isEmpty && w.stopped s.rest

/-- `IO::Select`, once the selector has returned the events. -/
def callAll (events : List ℕ) (s : Io S) : Io S := events.foldl (fun s h => s.call h) s

/-- `IO::Run` goes round: `Select` and `Runone`, with what happens to `ready_`. -/
inductive Pass : Io S → Io S → List (Fifo.Event ℕ) → Prop
  | mk {s s' : Io S} {events : List ℕ} {x : S} {es : List (Fifo.Event ℕ)} (now : ℤ) :
      s.stopped w = false → w.select s.rest = (.ok events, x) →
      (callAll events { s with rest := x }).runone body now = some (s', es) →
      Pass s s' (events.map .enter ++ es)

end Io

end EfaExamples
