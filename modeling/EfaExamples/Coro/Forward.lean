import EfaExamples.Coro.Loop
import EfaExamples.Coro.Model.Exec
/-!
# Steps that can be taken

A run that shows something possible is built step by step. For the
operations such runs use, these lemmas give the state an operation leads to,
from what it needs of the state it is performed in.
-/

namespace EfaExamples

namespace Loop

variable {Loc G A X V : Type} {w : World A X V} {code : Loc → Op Loc G A V}
variable {s : Loop Loc G A X V} {c : Coro Loc A V} {me h : ℕ} {l : Loc} {rest : List (ℕ × Loc)}

/-- What is not scheduled yet is called. -/
theorem schedule_eq_call (hc : s.coros h = some c) (hst : c.state = .kUnschedule) :
    Handle.schedule h s = s.call h := by
  simp [Handle.schedule, hc, hst]

/-- What is scheduled or suspended stays as it is. -/
theorem schedule_eq_self (hc : s.coros h = some c) (hst : c.state ≠ .kUnschedule) :
    Handle.schedule h s = s := by
  simp [Handle.schedule, hc, hst]

theorem exec_step (now : ℤ) {f : G → G × Loc} (hstack : s.stack = (me, l) :: rest) (hop : code l = .step f) :
    s.exec code now =
      some { s with mem := (f s.mem).1, stack := (me, (f s.mem).2) :: rest } := by
  simp only [exec, hstack, hop]

theorem exec_io (now : ℤ) {a : A} {k : ℕ → Loc} (hstack : s.stack = (me, l) :: rest)
    (hop : code l = .io a k) :
    s.exec code now = some { (s.spawn (.new (.initialIo a) false (some me))).addLocal me s.seq with
      stack := (me, k s.seq) :: rest } := by
  simp only [exec, hstack, hop]

theorem exec_future (now : ℤ) {k : Loc} (hstack : s.stack = (me, l) :: rest) (hop : code l = .future h k)
    (hc : s.coros h = some c) (hf : c.point.isFinal = false) (hl : s.holds me h = true) :
    s.exec code now = some { Handle.schedule h s with stack := (me, k) :: rest } := by
  simp only [exec, hstack, hop, hc, hf, hl, if_true, Bool.false_eq_true, if_false]

theorem exec_await (now : ℤ) {k : Outcome V → Loc} (hstack : s.stack = (me, l) :: rest)
    (hop : code l = .await h k) (hc : s.coros h = some c) (hf : c.point.isFinal = false) :
    s.exec code now = some ({ s with stack := rest }.awaitSuspend me h k) := by
  simp only [exec, hstack, hop, hc, hf, Bool.false_eq_true, if_false]

theorem exec_destroy (now : ℤ) {k : Loc} (hstack : s.stack = (me, l) :: rest) (hop : code l = .destroy h k)
    (hl : s.holds me h = true) :
    s.exec code now =
      some ({ s with stack := (me, k) :: rest }.dropLocal me h |>.destroy s.seq h) := by
  simp only [exec, hstack, hop, hl, if_true]

/-! ## `Runone` -/

section Resume

variable {n : ℕ} {q : List ℕ} {a : A}

/-- One of the connection's coroutines begins, and suspends. -/
theorem resume_initialIo {x x' : X} (hl : s.left = n + 1) (hr : s.ready = h :: q)
    (hc : s.coros h = some c) (hp : c.point = .initialIo a) (henter : w.enter a s.world = .ok x)
    (hpost : w.post a h x = (none, x')) :
    s.resume w = some (({ setState .kUnschedule h { s with left := n, ready := q } with
      world := x' }.setState .kSuspend h).setPoint (.io a) h) := by
  have hc' : (setState .kUnschedule h { s with left := n, ready := q }).coros h =
      some { c with state := .kUnschedule } := by
    rw [setState, modify_coros_self, hc]
    rfl
  have henter' : w.enter a (setState .kUnschedule h { s with left := n, ready := q }).world =
      .ok x := henter
  simp only [resume, hl, hr, run, hc', hp, startIo, henter', hpost]

/-- One of them takes its result, and ends. -/
theorem resume_io (hl : s.left = n + 1) (hr : s.ready = h :: q) (hc : s.coros h = some c)
    (hp : c.point = .io a) :
    s.resume w = { setState .kUnschedule h { s with left := n, ready := q } with
      world := (w.resume a h s.world).2 }.finish h (w.resume a h s.world).1 := by
  have hc' : (setState .kUnschedule h { s with left := n, ready := q }).coros h =
      some { c with state := .kUnschedule } := by
    rw [setState, modify_coros_self, hc]
    rfl
  simp only [resume, hl, hr, run, hc', hp]
  rfl

/-- A sleep is over. -/
theorem resume_sleep (hl : s.left = n + 1) (hr : s.ready = h :: q) (hc : s.coros h = some c)
    (hp : c.point = .sleep) :
    s.resume w = (setState .kUnschedule h { s with left := n, ready := q }).finish h (.ok none) := by
  have hc' : (setState .kUnschedule h { s with left := n, ready := q }).coros h =
      some { c with state := .kUnschedule } := by
    rw [setState, modify_coros_self, hc]
    rfl
  simp only [resume, hl, hr, run, hc', hp]

/-- A body goes on after a `co_await`. -/
theorem resume_await {d : ℕ} {k : Outcome V → Loc} {cd : Coro Loc A V} (hl : s.left = n + 1)
    (hr : s.ready = h :: q) (hc : s.coros h = some c) (hp : c.point = .await d k)
    (hd : s.coros d = some cd) (hne : d ≠ h) :
    s.resume w = some { (setState .kUnschedule h { s with left := n, ready := q }).setPoint
      .running h with stack := [(h, k cd.get)] } := by
  have hc' : (setState .kUnschedule h { s with left := n, ready := q }).coros h =
      some { c with state := .kUnschedule } := by
    rw [setState, modify_coros_self, hc]
    rfl
  have hd' : (setState .kUnschedule h { s with left := n, ready := q }).coros d = some cd := by
    rw [setState, modify_coros_of_ne hne, hd]
  simp only [resume, hl, hr, run, hc', hp, hd']

end Resume

/-- A body that holds no coroutine ends, and its `next` is called. -/
theorem finish_eq_call {o : Outcome V} {p : ℕ} (hc : s.coros h = some c) (hl : c.locals = [])
    (hn : c.next = some p) (hp : (s.coros p).isSome = true) :
    s.finish h o = some ((s.modify h fun c =>
      { c with point := .final, result := some o, locals := [] }).call p) := by
  simp only [finish, hc, hl, destroyLocals, List.foldl_nil, finalSuspend, modify_coros_self,
    Option.map_some, hn, modify_coros_isSome, hp, if_true]

/-- With no timer pending, `Runone` has as many iterations to make as handles are ready. -/
theorem runone_of_schedule_nil {now : ℤ} (hs : s.schedule = []) :
    s.runone now = { s with left := s.ready.length } := by
  simp only [runone, hs, Task.drain]

end Loop

end EfaExamples
