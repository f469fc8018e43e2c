import EfaExamples.Coro.Model.Exec
/-!
# Programs in direct style

The coroutine bodies that only compute locally, sleep, and await children
they create on the spot: what they mean read as ordinary nested function
calls (`Eval`), and what the compiler makes of them on the event loop
(`direct`). A procedure is named by `P`, the locals of a body are an `E`.
-/

namespace EfaExamples

/-- A coroutine body. -/
inductive Stmt (P E V : Type)
  /-- nothing -/
  | skip
  /-- a pure local step -/
  | assign (f : E → E)
  | seq (s t : Stmt P E V)
  | ite (b : E → Bool) (s t : Stmt P E V)
  | while (b : E → Bool) (s : Stmt P E V)
  /-- `co_await Sleep(d)` -/
  | sleep (d : E → Duration)
  /-- `co_await p(arg)`, whose value is bound by `bind` -/
  | await (p : P) (arg : E → E) (bind : Option V → E → E)
  /-- `try { s } catch (x) { t }`, where `h` binds the exception -/
  | tryCatch (s : Stmt P E V) (h : Exn V → E → E) (t : Stmt P E V)
  /-- `co_return` -/
  | ret (v : E → Option V)
  | throw (x : E → Exn V)

/-- How control leaves a statement: to the next one, by a `co_return`, or by
an exception, which keeps the locals for its handler. -/
inductive Flow (E V : Type)
  | next (e : E)
  | returned (v : Option V)
  | threw (x : Exn V) (e : E)

namespace Flow

variable {E V : Type}

/-- What the body has done once control leaves all of it. -/
def outcome : Flow E V → Outcome V
  | next _ => .ok none
  | returned v => .ok v
  | threw x _ => .error x

def isNext : Flow E V → Bool
  | next _ => true
  | _ => false

def isThrew : Flow E V → Bool
  | threw _ _ => true
  | _ => false

/-- `co_await` of what has the outcome `o`: the value is bound, or the
exception rethrown. -/
def ofOutcome (bind : Option V → E → E) (e : E) : Outcome V → Flow E V
  | .ok v => next (bind v e)
  | .error x => threw x e

end Flow

/-- A program: for each procedure its body, and whether it is a `Coro<void>`. -/
structure Program (P E V : Type) where
  body : P → Stmt P E V
  isVoid : P → Bool

variable {P E V : Type}

/-! ## The direct meaning -/

/-- **The meaning in direct style**: `co_await` of a child is the call of it,
and `Sleep` does nothing. -/
inductive Eval (pr : Program P E V) : Stmt P E V → E → Flow E V → Prop
  | skip {e : E} : Eval pr .skip e (.next e)
  | assign {f : E → E} {e : E} : Eval pr (.assign f) e (.next (f e))
  | seq {s t : Stmt P E V} {e e' : E} {r : Flow E V} :
      Eval pr s e (.next e') → Eval pr t e' r → Eval pr (.seq s t) e r
  | seqLeave {s t : Stmt P E V} {e : E} {r : Flow E V} :
      Eval pr s e r → r.isNext = false → Eval pr (.seq s t) e r
  | iteTrue {b : E → Bool} {s t : Stmt P E V} {e : E} {r : Flow E V} :
      b e = true → Eval pr s e r → Eval pr (.ite b s t) e r
  | iteFalse {b : E → Bool} {s t : Stmt P E V} {e : E} {r : Flow E V} :
      b e = false → Eval pr t e r → Eval pr (.ite b s t) e r
  | whileTrue {b : E → Bool} {s : Stmt P E V} {e e' : E} {r : Flow E V} :
      b e = true → Eval pr s e (.next e') → Eval pr (.while b s) e' r → Eval pr (.while b s) e r
  | whileLeave {b : E → Bool} {s : Stmt P E V} {e : E} {r : Flow E V} :
      b e = true → Eval pr s e r → r.isNext = false → Eval pr (.while b s) e r
  | whileFalse {b : E → Bool} {s : Stmt P E V} {e : E} :
      b e = false → Eval pr (.while b s) e (.next e)
  | sleep {d : E → Duration} {e : E} : Eval pr (.sleep d) e (.next e)
  | await {p : P} {arg : E → E} {bind : Option V → E → E} {e : E} {r : Flow E V} :
      Eval pr (pr.body p) (arg e) r →
      Eval pr (.await p arg bind) e (.ofOutcome bind e r.outcome)
  | tryLeave {s t : Stmt P E V} {h : Exn V → E → E} {e : E} {r : Flow E V} :
      Eval pr s e r → r.isThrew = false → Eval pr (.tryCatch s h t) e r
  | tryCatch {s t : Stmt P E V} {h : Exn V → E → E} {e e' : E} {x : Exn V} {r : Flow E V} :
      Eval pr s e (.threw x e') → Eval pr t (h x e') r → Eval pr (.tryCatch s h t) e r
  | ret {v : E → Option V} {e : E} : Eval pr (.ret v) e (.returned (v e))
  | throw {x : E → Exn V} {e : E} : Eval pr (.throw x) e (.threw (x e) e)

/-- The call of a procedure, as an ordinary function. -/
def Call (pr : Program P E V) (p : P) (e : E) (o : Outcome V) : Prop :=
  ∃ r, Eval pr (pr.body p) e r ∧ o = r.outcome

/-! ## The coroutine -/

/-- What encloses the statement a body is at. -/
inductive Frame (P E V : Type)
  | seq (t : Stmt P E V)
  | while (b : E → Bool) (s : Stmt P E V)
  | tryCatch (h : Exn V → E → E) (t : Stmt P E V)

/-- A location of a body: where it is, and its locals. -/
inductive Site (P E V : Type)
  /-- before a statement -/
  | before (s : Stmt P E V) (k : List (Frame P E V)) (e : E)
  /-- after one -/
  | after (r : Flow E V) (k : List (Frame P E V))
  /-- the child `h` is made, and not awaited yet -/
  | made (h : ℕ) (bind : Option V → E → E) (k : List (Frame P E V)) (e : E)
  /-- the child `h` has been awaited, with the outcome `o`, and its `Coro` is
  still there -/
  | awaited (h : ℕ) (o : Outcome V) (bind : Option V → E → E) (k : List (Frame P E V)) (e : E)

/-- Control leaves a statement whose innermost enclosure is a frame. -/
def Frame.leave (k : List (Frame P E V)) : Frame P E V → Flow E V → Site P E V
  | .seq t, .next e => .before t k e
  | .while b s, .next e => .before (.while b s) k e
  | .tryCatch h t, .threw x e => .before t k (h x e)
  | _, r => .after r k

/-- A local step to a location. -/
def goto (l : Site P E V) : Op (Site P E V) Unit Empty V := .step fun g => (g, l)

/-- **The bodies on the event loop.** -/
def direct (pr : Program P E V) : Site P E V → Op (Site P E V) Unit Empty V
  | .before .skip k e => goto (.after (.next e) k)
  | .before (.assign f) k e => goto (.after (.next (f e)) k)
  | .before (.seq s t) k e => goto (.before s (.seq t :: k) e)
  | .before (.ite b s t) k e => goto (if b e then .before s k e else .before t k e)
  | .before (.while b s) k e =>
    goto (if b e then .before s (.while b s :: k) e else .after (.next e) k)
  | .before (.sleep d) k e => .sleep (d e) fun h => .made h (fun _ e => e) k e
  | .before (.await p arg bind) k e =>
    .call false (pr.isVoid p) (.before (pr.body p) [] (arg e)) fun h => .made h bind k e
  | .before (.tryCatch s h t) k e => goto (.before s (.tryCatch h t :: k) e)
  | .before (.ret v) k e => goto (.after (.returned (v e)) k)
  | .before (.throw x) k e => goto (.after (.threw (x e) e) k)
  | .after r [] => .ret r.outcome
  | .after r (f :: k) => goto (f.leave k r)
  | .made h bind k e => .await h fun o => .awaited h o bind k e
  | .awaited h o bind k e => .destroy h (.after (.ofOutcome bind e o) k)

end EfaExamples
