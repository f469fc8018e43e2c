import EfaExamples.Coro.Model.Exec
import EfaExamples.Efa.Model.Selector
/-!
# Class `Conn`

`conn.h`. A connection is its endpoint and four registered buffers. Its four
coroutines check their arguments, suspend in an awaiter that posts the
operation or registers for an immediate, and return what the awaiter's
`await_resume` makes of the completion.
-/

namespace EfaExamples

/-- The members of `Conn`: the peer's address, and what `GetData` of the
buffers returns. -/
structure Conn where
  remote : ℕ
  recvBuffer : ℕ
  sendBuffer : ℕ
  readBuffer : ℕ
  writeBuffer : ℕ
  deriving DecidableEq, Repr

/-- A call of one of the connection's coroutines. A null pointer is 0. -/
inductive ConnOp
  | recv (conn : Conn) (sz : ℕ)
  | send (conn : Conn) (data sz : ℕ)
  | write (conn : Conn) (data sz addr key immData : ℕ)
  | read (conn : Conn) (immData : ℕ)
  deriving DecidableEq, Repr

/-- What the connection's coroutines return: a count of bytes, a buffer, or
a buffer with a count. -/
inductive Val
  | size (n : ℕ)
  | buf (data n : ℕ)
  | ptr (data : ℕ)
  deriving DecidableEq, Repr

/-- The `CHECK` of a post. -/
def Fabric.submit (exp : String) (p : Posted) (f : Fabric) : Option (Exn Val) × Fabric :=
  if f.rc = 0 then
    (none, { f with
      inflight := f.inflight ++ [p]
      history := { f.history with posted := f.history.posted ++ [p] } })
  else
    (some (.runtimeError
      (exp ++ " fail. error(" ++ toString f.rc ++ "): " ++ f.strerror (-f.rc))), f)

namespace ConnOp

/-- The bodies up to their `co_await`. `Write` builds the exception for a null
pointer and does not throw it. -/
def enter : ConnOp → Fabric → Except (Exn Val) Fabric
  | recv _ sz, f =>
    if sz = 0 then .error (.invalidArgument "Recv buffer size should be greater than 0") else .ok f
  | send conn data sz, f =>
    if data = 0 then .error (.invalidArgument "Send data is NULL")
    else if sz = 0 then .error (.invalidArgument "Send buffer size should be greater than 0")
    else .ok { f with mem := memcpy conn.sendBuffer data sz f.mem f.mem }
  | write _ _ sz _ _ _, f =>
    if sz = 0 then .error (.invalidArgument "Write buffer size should be greater than 0") else .ok f
  | read _ immData, f =>
    if immData = 0 then .error (.invalidArgument "imm_data should be greater than 0") else .ok f

/-- The message an awaiter posts. A write's iov starts at the buffer's data. -/
def request : ConnOp → Option Request
  | recv conn sz => some (.recv conn.recvBuffer sz)
  | send conn _ sz => some (.send conn.sendBuffer sz conn.remote)
  | write conn _ sz addr key immData =>
    some (.write conn.writeBuffer sz conn.remote addr key immData (immData ≠ 0))
  | read .. => none

/-- The call of libfabric an awaiter makes, as its `CHECK` spells it. -/
def call : ConnOp → String
  | recv .. => "fi_recvmsg(conn->ep_, &msg, 0)"
  | send .. => "fi_sendmsg(conn->ep_, &msg, 0)"
  | write .. => "fi_writemsg(conn->ep_, &msg, flags)"
  | read .. => ""

/-- The immediate a `Read` registers for. -/
def awaitedImm : ConnOp → ℕ
  | read _ immData => immData
  | _ => 0

/-- `await_suspend`, once the handle's state is set. -/
def post (a : ConnOp) (h : ℕ) (f : Fabric) : Option (Exn Val) × Fabric :=
  match a.request with
  | some req => f.submit a.call ⟨h, req⟩
  | none => (none, f.register a.awaitedImm h)

/-- What `await_resume` returns or throws. -/
def value (a : ConnOp) (e : Entry) : Outcome Val :=
  match a with
  | recv conn _ =>
    if e.flags.recv then .ok (some (.buf conn.recvBuffer e.len))
    else .error (.runtimeError "Invalid cq recv flags.")
  | send _ _ _ =>
    if e.flags.send then .ok (some (.size e.len))
    else .error (.runtimeError "Invalid cq send flags.")
  | write _ _ _ _ _ _ =>
    if e.flags.write then .ok (some (.size e.len))
    else .error (.runtimeError "Invalid cq write flags.")
  | read conn _ =>
    if e.flags.remoteWrite then .ok (some (.ptr conn.readBuffer))
    else .error (.runtimeError "Invalid remote write flags.")

/-- `await_resume`. A `Read` that returns takes its registration back. -/
def resume (a : ConnOp) (h : ℕ) (f : Fabric) : Outcome Val × Fabric :=
  let f' := match a with
    | read _ immData => if (f.entry h).flags.remoteWrite then f.unRegister immData else f
    | _ => f
  (a.value (f.entry h), { f' with
    history := { f'.history with resumed := f'.history.resumed ++ [h] } })

end ConnOp

/-- The selector and the connections. -/
def efaWorld : World ConnOp Fabric Val where
  enter := ConnOp.enter
  post := ConnOp.post
  resume := ConnOp.resume
  poll f := f.select f.cqs
  stopped f := f.cqs.isEmpty
  env f f' := ∃ m, f.move m = some f'

end EfaExamples
