import EfaExamples.Coro.Model.Exec
/-!
# The event loop of `src/coro`

The loop of `src/coro` has no selector: `Run` calls `Runone` until both
queues are empty, and nothing outside the loop ever calls a handle. What the
programs it is meant for keep to, and what is said of its queues, are stated
here.
-/

namespace EfaExamples

variable {Loc G A X V : Type}

/-- No connection, and a `Select` without events. -/
def coroWorld : World Empty Unit V where
  enter a := a.elim
  post a := a.elim
  resume a := a.elim
  poll x := (.ok [], x)
  stopped _ := true
  env _ _ := False

namespace Loop

/-- `ready_` and `schedule_` taken together. -/
def queued (s : Loop Loc G A X V) : List ℕ := s.ready ++ s.schedule.map Task.handle

/-- The executing coroutine and the one it is about to `co_await`. -/
def awaiting (code : Loc → Op Loc G A V) (s : Loop Loc G A X V) : Option (ℕ × ℕ) :=
  match s.stack with
  | (me, l) :: _ =>
    match code l with
    | .await d _ => some (me, d)
    | _ => none
  | [] => none

end Loop

open Loop

variable (code : Loc → Op Loc G A V)

/-- **The step keeps to what its coroutine owns**: a body awaits only
coroutines it created itself, and none is destroyed before it is done. -/
structure Owned (s s' : Loop Loc G A X V) : Prop where
  await : ∀ p ∈ s.awaiting code, (s.coros p.2).bind Coro.creator = some p.1
  destroy : ∀ h < s.seq, ∀ c ∈ s.coros h, (s'.coros h).isNone = true → c.point.isFinal = true

instance (s s' : Loop Loc G A X V) : Decidable (Owned code s s') :=
  decidable_of_iff (_ ∧ _) ⟨fun h => ⟨h.1, h.2⟩, fun h => ⟨h.await, h.destroy⟩⟩

/-- **Each coroutine is awaited at most once**: one that is not done has no
waiter yet when it is awaited. -/
def AwaitedOnce (s : Loop Loc G A X V) : Prop :=
  ∀ p ∈ s.awaiting code, ∀ c ∈ s.coros p.2, c.point.isFinal = false → c.next = none

instance (s : Loop Loc G A X V) : Decidable (AwaitedOnce code s) :=
  inferInstanceAs (Decidable (∀ p ∈ s.awaiting code, _))

/-- **The scheduler's representation invariant.** -/
structure Scheduler (s : Loop Loc G A X V) : Prop where
  /-- kScheduled says that the handle is in one of the queues -/
  scheduled_iff : ∀ h c, s.coros h = some c → (c.state = .kScheduled ↔ h ∈ s.queued)
  /-- no handle is there twice -/
  once : s.queued.Nodup
  /-- nor is one that is done -/
  done : ∀ h c, s.coros h = some c → c.point.isFinal = true → h ∉ s.queued
  /-- a coroutine suspended on an unfinished child is kSuspend -/
  waiting : ∀ h c d cd, s.coros h = some c → c.point.awaited = some d → s.coros d = some cd →
    cd.point.isFinal = false → c.state = .kSuspend

/-- **A pending wake source, and no other**: the handle is in one of the
queues once and nobody's `next`, or it is in neither and the `next` of
exactly one coroutine that is not done, which itself has a wake source. -/
inductive HasWake (s : Loop Loc G A X V) : ℕ → Prop
  | queued {h : ℕ} : s.queued.count h = 1 →
      (∀ d c, s.coros d = some c → c.point.isFinal = false → c.next ≠ some h) → HasWake s h
  | next {h d : ℕ} {c : Coro Loc A V} : s.queued.count h = 0 → s.coros d = some c →
      c.point.isFinal = false → c.next = some h →
      (∀ d' c', s.coros d' = some c' → c'.point.isFinal = false → c'.next = some h → d' = d) →
      HasWake s d → HasWake s h

end EfaExamples
