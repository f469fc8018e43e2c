import Mathlib.Data.Nat.Notation
/-!
# Handles, results and coroutine frames

`handle.h`, `result.h` and the data of `coro.h`. A coroutine here is its
promise (a `Handle` and a `Result<T>`) together with the frame the compiler
keeps for it, which is the point its body is suspended at and the `Coro`
objects its locals hold. The bodies themselves are a type of locations
`Loc`; what a body does at a location is `Exec.lean`'s business.

A `Handle *` is the handle's `id_`, a natural number. `seq_` hands out no id
twice, so unlike an address it never comes to mean another handle.
-/

namespace EfaExamples

/-- `Handle::State`. -/
inductive HandleState
  | kUnschedule
  | kScheduled
  | kSuspend
  deriving DecidableEq, Repr

/-- What a body can throw: a value of its own, or one of the two standard
exceptions this code raises. -/
inductive Exn (V : Type)
  | user (v : V)
  | runtimeError (what : String)
  | invalidArgument (what : String)
  deriving DecidableEq, Repr

/-- What a body that has ended leaves behind: the value of its `co_return`,
absent for a `Coro<void>`, or the exception that escaped it. -/
abbrev Outcome (V : Type) := Except (Exn V) (Option V)

/-- Where a coroutine is suspended, or that it is running. `Loc` is the type
of locations inside bodies, `A` that of the awaitable operations on a
connection. -/
inductive Point (Loc A V : Type)
  /-- at the initial suspension point of a body -/
  | initial (l : Loc)
  /-- at the initial suspension point of one of the connection's coroutines -/
  | initialIo (a : A)
  /-- not suspended -/
  | running
  /-- in a `co_await` of coroutine `d`, continuing with what `d` leaves -/
  | await (d : ℕ) (k : Outcome V → Loc)
  /-- in the `co_await` of `detail::Sleep` -/
  | sleep
  /-- in the `co_await` of one of the connection's coroutines -/
  | io (a : A)
  /-- at the final suspension point -/
  | final

namespace Point

variable {Loc A V : Type}

/-- The coroutine has not begun its body. -/
def isInitial : Point Loc A V → Bool
  | initial _ | initialIo _ => true
  | _ => false

/-- `coroutine_handle::done`. -/
def isFinal : Point Loc A V → Bool
  | final => true
  | _ => false

/-- The coroutine is executing. -/
def isRunning : Point Loc A V → Bool
  | running => true
  | _ => false

/-- The coroutine waits for a completion of the fabric. -/
def isIo : Point Loc A V → Bool
  | io _ => true
  | _ => false

/-- The coroutine sleeps. -/
def isSleep : Point Loc A V → Bool
  | sleep => true
  | _ => false

/-- The coroutine awaited, if any. -/
def awaited : Point Loc A V → Option ℕ
  | await d _ => some d
  | _ => none

theorem eq_final {p : Point Loc A V} (h : p.isFinal = true) : p = final := by
  cases p <;> first | rfl | cases h

theorem eq_running {p : Point Loc A V} (h : p.isRunning = true) : p = running := by
  cases p <;> first | rfl | cases h

theorem eq_await {p : Point Loc A V} {d : ℕ} (h : p.awaited = some d) : ∃ k, p = await d k := by
  cases p with
  | await d' k =>
    cases h
    exact ⟨k, rfl⟩
  | _ => cases h

end Point

/-- A coroutine: the `promise_type` with its two bases, and the frame. -/
structure Coro (Loc A V : Type) where
  point : Point Loc A V
  /-- `Handle::state_` -/
  state : HandleState
  /-- `promise_type::next`, the coroutine to be called at the end -/
  next : Option ℕ
  /-- `Result<T>::result_`; absent while not set -/
  result : Option (Outcome V)
  /-- which of the two `Result`s the promise inherits -/
  isVoid : Bool
  /-- the coroutine whose body made the call; none for the one given to `Run` -/
  creator : Option ℕ
  /-- the coroutines whose `Coro` objects are locals of this frame -/
  locals : List ℕ

namespace Coro

variable {Loc A V : Type}

/-- A coroutine as the call of the coroutine function leaves it. -/
def new (p : Point Loc A V) (isVoid : Bool) (creator : Option ℕ) : Coro Loc A V where
  point := p
  state := .kUnschedule
  next := none
  result := none
  isVoid := isVoid
  creator := creator
  locals := []

/-- `Result::result`. The two specialisations differ only on a result that
was never set, where `Result<void>` returns. -/
def get (c : Coro Loc A V) : Outcome V :=
  match c.result with
  | some o => o
  | none => if c.isVoid then .ok none else .error (.runtimeError "result not set")

end Coro

end EfaExamples
