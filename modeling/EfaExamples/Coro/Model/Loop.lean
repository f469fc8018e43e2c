import EfaExamples.Coro.Model.Timer
/-!
# The event loop's state

Class `IO` of `io.h`, `handle.cc`, and the parts of `coro.h` that act on the
loop: `Coro::Destroy` and the final suspension. The state also carries what
the machine underneath holds while the loop runs: the live coroutines, the
stack of those executing, the memory their bodies share, and the world
outside the loop, which is the selector with its fabric or, in the plain
event loop, nothing.
-/

namespace EfaExamples

/-- The event loop, with everything its coroutines can reach. -/
structure Loop (Loc G A X V : Type) where
  /-- `Handle::seq_` -/
  seq : ℕ
  /-- the coroutines that exist, each under its handle -/
  coros : ℕ → Option (Coro Loc A V)
  /-- `ready_` -/
  ready : List ℕ
  /-- `schedule_` -/
  schedule : List Task
  /-- the iterations the loop of the current `Runone` still owes -/
  left : ℕ
  /-- the coroutines executing, innermost first, each with what it does next -/
  stack : List (ℕ × Loc)
  /-- the memory the bodies share -/
  mem : G
  /-- `selector_` and the fabric behind it -/
  world : X

namespace Loop

variable {Loc G A X V : Type}

/-- Write to the coroutine of a handle. -/
def modify (h : ℕ) (f : Coro Loc A V → Coro Loc A V) (s : Loop Loc G A X V) :
    Loop Loc G A X V :=
  { s with coros := fun i => if i = h then (s.coros i).map f else s.coros i }

/-- `Handle::SetState`. -/
def setState (st : HandleState) (h : ℕ) (s : Loop Loc G A X V) : Loop Loc G A X V :=
  s.modify h fun c => { c with state := st }

/-- The coroutine suspends, or resumes, at a point. -/
def setPoint (p : Point Loc A V) (h : ℕ) (s : Loop Loc G A X V) : Loop Loc G A X V :=
  s.modify h fun c => { c with point := p }

/-- A `Coro` object is put into a frame. -/
def addLocal (h d : ℕ) (s : Loop Loc G A X V) : Loop Loc G A X V :=
  s.modify h fun c => { c with locals := d :: c.locals }

/-- A `Coro` object leaves a frame. -/
def dropLocal (h d : ℕ) (s : Loop Loc G A X V) : Loop Loc G A X V :=
  s.modify h fun c => { c with locals := c.locals.filter (· ≠ d) }

/-- The call of a coroutine function: the promise takes the next id. -/
def spawn (c : Coro Loc A V) (s : Loop Loc G A X V) : Loop Loc G A X V :=
  { s with
    seq := s.seq + 1
    coros := fun i => if i = s.seq then some c else s.coros i }

/-- `IO::Call(handle)`. -/
def call (h : ℕ) (s : Loop Loc G A X V) : Loop Loc G A X V :=
  { s.setState .kScheduled h with ready := s.ready ++ [h] }

/-- `IO::Call(delay, handle)`, at the clock reading `now`. -/
def callAfter (now : ℤ) (delay : Duration) (h : ℕ) (s : Loop Loc G A X V) :
    Loop Loc G A X V :=
  { s.setState .kScheduled h with
    schedule := Task.push ⟨deadline now delay, h⟩ s.schedule }

/-- `IO::Cancel`, whose body is a TODO. -/
def cancel (_h : ℕ) (s : Loop Loc G A X V) : Loop Loc G A X V := s

/-- `coroutine_handle::destroy` of one frame. -/
def erase (h : ℕ) (s : Loop Loc G A X V) : Loop Loc G A X V :=
  { s with coros := fun i => if i = h then none else s.coros i }

end Loop

namespace Handle

variable {Loc G A X V : Type}

/-- `Handle::schedule`. -/
def schedule (h : ℕ) (s : Loop Loc G A X V) : Loop Loc G A X V :=
  match s.coros h with
  | some c => if c.state = .kUnschedule then s.call h else s
  | none => s

/-- `Handle::cancel`. -/
def cancel (h : ℕ) (s : Loop Loc G A X V) : Loop Loc G A X V :=
  match s.coros h with
  | some c => if c.state ≠ .kUnschedule then s.cancel h else s
  | none => s

end Handle

namespace Loop

variable {Loc G A X V : Type}

/-- `Coro::Destroy`: cancel the handle, then destroy the frame, which
destroys the `Coro` objects among its locals in turn. `fuel` bounds the depth
of that ownership; a frame only owns coroutines younger than itself, so `seq`
is enough. -/
def destroy : ℕ → ℕ → Loop Loc G A X V → Loop Loc G A X V
  | 0, h, s => (Handle.cancel h s).erase h
  | fuel + 1, h, s =>
    match s.coros h with
    | none => s
    | some c => c.locals.foldl (fun s d => destroy fuel d s) ((Handle.cancel h s).erase h)

/-- A frame's locals go out of scope. -/
def destroyLocals (ds : List ℕ) (s : Loop Loc G A X V) : Loop Loc G A X V :=
  ds.foldl (fun s' d => s'.destroy s.seq d) s

/-- `final_awaiter::await_suspend`. Calling a handle whose coroutine is gone
is undefined. -/
def finalSuspend (h : ℕ) (s : Loop Loc G A X V) : Option (Loop Loc G A X V) :=
  match s.coros h with
  | none => none
  | some c =>
    match c.next with
    | none => some s
    | some p => if (s.coros p).isSome then some (s.call p) else none

/-- A body ends: its result is stored, its locals go, and it suspends for the
last time. -/
def finish (h : ℕ) (o : Outcome V) (s : Loop Loc G A X V) :
    Option (Loop Loc G A X V) :=
  match s.coros h with
  | none => none
  | some c =>
    ((s.destroyLocals c.locals).modify h fun c =>
      { c with point := .final, result := some o, locals := [] }).finalSuspend h

/-- The timers of `IO::Runone`, and the count its loop runs to. -/
def runone (now : ℤ) (s : Loop Loc G A X V) : Loop Loc G A X V :=
  let q := Task.drain (time now) s.schedule s.ready
  { s with schedule := q.1, ready := q.2, left := q.2.length }

/-- `IO::Select` calls the handle of every event; the handle of a coroutine
that is gone is undefined. -/
def callAll : List ℕ → Loop Loc G A X V → Option (Loop Loc G A X V)
  | [], s => some s
  | h :: hs, s => if (s.coros h).isSome then callAll hs (s.call h) else none

end Loop

end EfaExamples
