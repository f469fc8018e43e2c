import EfaExamples.Coro.Model.Loop
/-!
# What coroutine bodies do, and the steps of the loop

A program gives, for every location of its bodies, the one operation the body
performs there and where it goes on. The operations are the ones `coro.h`,
`future.h` and `timer.h` offer, and everything between two of them is a
single local step. The steps of the loop interleave the executing body, the
iterations of `Runone`, `Select`, and the world.
-/

namespace EfaExamples

/-- One operation of a body. -/
inductive Op (Loc G A V : Type)
  /-- local computation, over the memory the bodies share -/
  | step (f : G → G × Loc)
  /-- the call of a coroutine function; with `oneway`, its promise is made by
  `promise_type(Oneway, ...)` -/
  | call (oneway isVoid : Bool) (l : Loc) (k : ℕ → Loc)
  /-- the call of one of the connection's coroutines -/
  | io (a : A) (k : ℕ → Loc)
  /-- the call of `Sleep` -/
  | sleep (delay : Duration) (k : ℕ → Loc)
  /-- `Future{std::move(coro)}` -/
  | future (h : ℕ) (k : Loc)
  /-- `co_await` of a `Coro` or a `Future` -/
  | await (h : ℕ) (k : Outcome V → Loc)
  /-- `Coro::done` -/
  | done (h : ℕ) (k : Bool → Loc)
  /-- the end of a local `Coro`'s life -/
  | destroy (h : ℕ) (k : Loc)
  /-- a local `Coro` is moved to storage that outlives the frame -/
  | release (h : ℕ) (k : Loc)
  /-- `co_return`, or an exception that no handler of the body takes -/
  | ret (o : Outcome V)

/-- What lies outside the loop: the coroutines of a connection, and the
selector. `enter` is the body up to its `co_await`, `post` its
`await_suspend`, `resume` its `await_resume`. `poll` is `Selector::Select`
and `env` anything the fabric may do on its own. -/
structure World (A X V : Type) where
  enter : A → X → Except (Exn V) X
  post : A → ℕ → X → Option (Exn V) × X
  resume : A → ℕ → X → Outcome V × X
  poll : X → Except (Exn V) (List ℕ) × X
  /-- `Selector::Stopped` -/
  stopped : X → Bool
  env : X → X → Prop

namespace Loop

variable {Loc G A X V : Type} (w : World A X V) (code : Loc → Op Loc G A V)

/-- The `Coro` object of `d` is a local of `h`'s frame. -/
def holds (s : Loop Loc G A X V) (h d : ℕ) : Bool :=
  match s.coros h with
  | some c => d ∈ c.locals
  | none => false

/-- `awaiter_base::await_suspend`. -/
def awaitSuspend (me d : ℕ) (k : Outcome V → Loc) (s : Loop Loc G A X V) :
    Loop Loc G A X V :=
  Handle.schedule d (((s.setState .kSuspend me).setPoint (.await d k) me).modify d fun c =>
    { c with next := some me })

/-- The operation the innermost executing body is at. `now` is the reading of
the clock, should it take one. Touching a coroutine that is gone is
undefined. -/
def exec (now : ℤ) (s : Loop Loc G A X V) : Option (Loop Loc G A X V) :=
  match s.stack with
  | [] => none
  | (me, l) :: rest =>
    match code l with
    | .step f => some { s with mem := (f s.mem).1, stack := (me, (f s.mem).2) :: rest }
    | .call oneway isVoid l' k =>
      let p : Point Loc A V := if oneway then .running else .initial l'
      let s' := (s.spawn (.new p isVoid (some me))).addLocal me s.seq
      some { s' with
        stack := (if oneway then [(s.seq, l')] else []) ++ (me, k s.seq) :: rest }
    | .io a k =>
      let s' := (s.spawn (.new (.initialIo a) false (some me))).addLocal me s.seq
      some { s' with stack := (me, k s.seq) :: rest }
    | .sleep delay k =>
      let s' := ((s.spawn (.new .sleep true (some me))).callAfter now delay s.seq).addLocal me s.seq
      some { s' with stack := (me, k s.seq) :: rest }
    | .future h k =>
      match s.coros h with
      | some c =>
        if s.holds me h then
          let s' := if c.point.isFinal then s else Handle.schedule h s
          some { s' with stack := (me, k) :: rest }
        else none
      | none => none
    | .await h k =>
      match s.coros h with
      | some c =>
        if c.point.isFinal then some { s with stack := (me, k c.get) :: rest }
        else some ({ s with stack := rest }.awaitSuspend me h k)
      | none => none
    | .done h k =>
      match s.coros h with
      | some c => some { s with stack := (me, k c.point.isFinal) :: rest }
      | none => none
    | .destroy h k =>
      if s.holds me h then
        some ({ s with stack := (me, k) :: rest }.dropLocal me h |>.destroy s.seq h)
      else none
    | .release h k =>
      if s.holds me h then some ({ s with stack := (me, k) :: rest }.dropLocal me h) else none
    | .ret o => { s with stack := rest }.finish me o

/-- One of the connection's coroutines runs from its beginning to its
suspension. An exception of `await_suspend` is rethrown in the body, which
it ends. -/
def startIo (h : ℕ) (a : A) (s : Loop Loc G A X V) : Option (Loop Loc G A X V) :=
  match w.enter a s.world with
  | .error e => s.finish h (.error e)
  | .ok x =>
    match w.post a h x with
    | (some e, x) => ({ s with world := x }.setState .kSuspend h).finish h (.error e)
    | (none, x) => some (({ s with world := x }.setState .kSuspend h).setPoint (.io a) h)

/-- `promise_type::run`. Resuming a coroutine that is gone, executing or at
its final suspension point is undefined. -/
def run (h : ℕ) (s : Loop Loc G A X V) : Option (Loop Loc G A X V) :=
  match s.coros h with
  | none => none
  | some c =>
    match c.point with
    | .initial l => some { s.setPoint .running h with stack := [(h, l)] }
    | .initialIo a => s.startIo w h a
    | .await d k =>
      match s.coros d with
      | none => none
      | some cd => some { s.setPoint .running h with stack := [(h, k cd.get)] }
    | .sleep => s.finish h (.ok none)
    | .io a =>
      { s with world := (w.resume a h s.world).2 }.finish h (w.resume a h s.world).1
    | .running | .final => none

/-- One iteration of the loop of `IO::Runone`. -/
def resume (s : Loop Loc G A X V) : Option (Loop Loc G A X V) :=
  match s.left, s.ready with
  | n + 1, h :: q => (setState .kUnschedule h { s with left := n, ready := q }).run w h
  | _, _ => none

/-- `IO::Stopped`. -/
def stopped (s : Loop Loc G A X V) : Bool :=
  s.schedule.isEmpty && s.ready.isEmpty && w.stopped s.world

/-- `Runone` has returned and `IO::Run` is at its test. -/
def AtHead (s : Loop Loc G A X V) : Prop := s.stack = [] ∧ s.left = 0

/-- `IO::Run` goes round: `Select`, then `Runone` as far as its own loop. -/
inductive RoundStep : Loop Loc G A X V → Loop Loc G A X V → Prop
  | mk {s s₁ : Loop Loc G A X V} {now : ℤ} {events : List ℕ} {x : X} :
      s.AtHead → s.stopped w = false → w.poll s.world = (.ok events, x) →
      { s with world := x }.callAll events = some s₁ → RoundStep s (s₁.runone now)

/-- One step of the loop. -/
inductive Step : Loop Loc G A X V → Loop Loc G A X V → Prop
  /-- the executing body performs its operation -/
  | exec {s s' : Loop Loc G A X V} (now : ℤ) : s.exec code now = some s' → Step s s'
  /-- `Runone` runs the handle at the front -/
  | resume {s s' : Loop Loc G A X V} : s.stack = [] → s.resume w = some s' → Step s s'
  /-- `Run` goes round -/
  | round {s s' : Loop Loc G A X V} : RoundStep w s s' → Step s s'
  /-- the world moves -/
  | env {s : Loop Loc G A X V} {x : X} : w.env s.world x → Step s { s with world := x }

/-- `IO::Run` returns: its test finds the loop stopped. -/
def Returned (s : Loop Loc G A X V) : Prop := s.AtHead ∧ s.stopped w = true

/-- What `Run(coro)` of `runner.h` starts from: the root coroutine, wrapped in
a `Future` and so scheduled, and nothing else. -/
def boot (isVoid : Bool) (l : Loc) (g : G) (x : X) : Loop Loc G A X V :=
  Handle.schedule 0
    { seq := 1
      coros := fun i => if i = 0 then some (.new (.initial l) isVoid none) else none
      ready := []
      schedule := []
      left := 0
      stack := []
      mem := g
      world := x }

end Loop

end EfaExamples
