import Mathlib.Data.Int.Notation
import EfaExamples.Coro.Model.Handle
/-!
# The selector, the contexts, and the fabric

The state outside the loop in the examples that use EFA: the members of
`Selector`, the `Context` of every operation, the memory of the process, and
what the fabric holds. A `Context` lives in the frame of the coroutine that
made it, one a frame, so it goes by that coroutine's handle.

The fabric is known by its contract. A posted operation is in flight until
the fabric copies its bytes and, after that, puts one completion into a
queue. Operations in flight together are copied and completed in any order.
An `fi_cq_read` hands over the front of its queue, up to the size of the
buffer. `Move` lists what the fabric does on its own. The bytes a peer writes
into this process are left out; no coroutine here looks at them.
-/

namespace EfaExamples

/-- The bits of `flags` the code looks at: `FI_RECV`, `FI_SEND`, `FI_WRITE`
and `FI_REMOTE_WRITE`. -/
structure Flags where
  recv : Bool := false
  send : Bool := false
  write : Bool := false
  remoteWrite : Bool := false
  deriving DecidableEq, Repr

/-- `fi_cq_data_entry`. An absent `opContext` is a null pointer, and a zeroed
entry is the default one. -/
structure Entry where
  opContext : Option ℕ := none
  flags : Flags := {}
  len : ℕ := 0
  data : ℕ := 0
  deriving DecidableEq, Repr

/-- The context of the operation a completion is of, if it is of one. -/
def Entry.operation (e : Entry) : Option ℕ := if e.flags.remoteWrite then none else e.opContext

/-- The message of a post: its one iov, and for a write its one `rma_iov`, its
`data` and whether `FI_REMOTE_CQ_DATA` is set. -/
inductive Request
  | recv (base len : ℕ)
  | send (base len remote : ℕ)
  | write (base len remote addr key data : ℕ) (cqData : Bool)
  deriving DecidableEq, Repr

/-- The flags of a request's completion. -/
def Request.flags : Request → Flags
  | recv .. => { recv := true }
  | send .. => { send := true }
  | write .. => { write := true }

/-- An operation posted with a context. -/
structure Posted where
  ctx : ℕ
  req : Request
  deriving DecidableEq, Repr

/-- An error of `fi_cq_read`. -/
inductive Fault
  /-- `-FI_EAVAIL`, with what `fi_cq_readerr` returns and `fi_cq_strerror` says -/
  | avail (rc : ℤ) (err : String)
  /-- any other -/
  | other (rc : ℤ)
  deriving DecidableEq, Repr

/-- `kMaxCQEntries`. -/
def kMaxCQEntries : ℕ := 16

/-- What has happened so far. No function of the source reads it. -/
structure History where
  /-- the operations posted, in order -/
  posted : List Posted := []
  /-- the operations whose bytes were copied, with the bytes -/
  placed : List (Posted × List UInt8) := []
  /-- the completions read from the queues -/
  taken : List Entry := []
  /-- the completions stored, each with its context -/
  stored : List (ℕ × Entry) := []
  /-- the contexts whose `await_resume` has run -/
  resumed : List ℕ := []

/-- Everything outside the loop. -/
structure Fabric where
  /-- `Selector::cqs_`, in the order they are visited -/
  cqs : List ℕ
  /-- `Selector::imm_data_contexts_` -/
  immDataContexts : ℕ → Option ℕ
  /-- `Context::entry` -/
  entry : ℕ → Entry
  /-- the memory of the process -/
  mem : ℕ → UInt8
  /-- the memory of the peers -/
  remote : ℕ → ℕ → UInt8
  /-- the operations the fabric works on -/
  inflight : List Posted
  /-- the completions it holds, each in its queue -/
  completions : List (ℕ × Entry)
  /-- the queues that have an error to report -/
  fault : ℕ → Option Fault
  /-- what the next post returns -/
  rc : ℤ
  /-- `fi_strerror` -/
  strerror : ℤ → String
  history : History

/-- `sz` bytes of `src` from `data` on, copied to `dst`. -/
def memcpy (dst data sz : ℕ) (src mem : ℕ → UInt8) : ℕ → UInt8 := fun a =>
  if dst ≤ a ∧ a < dst + sz then src (data + (a - dst)) else mem a

/-- The `sz` bytes at `data`. -/
def bytes (mem : ℕ → UInt8) (data sz : ℕ) : List UInt8 := (List.range sz).map fun j => mem (data + j)

namespace Fabric

/-- The contexts of the operations the fabric has not yet handed back. -/
def outstanding (f : Fabric) : List ℕ :=
  f.inflight.map Posted.ctx ++ f.completions.filterMap fun p => p.2.operation

/-- The operation of a context has had its bytes copied. -/
def Placed (f : Fabric) (ctx : ℕ) : Prop := ∃ p ∈ f.history.placed, p.1.ctx = ctx

instance (f : Fabric) (ctx : ℕ) : Decidable (f.Placed ctx) :=
  inferInstanceAs (Decidable (∃ p ∈ f.history.placed, _))

/-- What the fabric does on its own. -/
inductive Move
  /-- copy the bytes of an operation; `msg` is what a receive gets -/
  | place (ctx : ℕ) (msg : List UInt8)
  /-- complete it in queue `cq` -/
  | complete (cq ctx len : ℕ)
  /-- put in an entry of no operation: a peer's write has arrived, or a completion
  without context -/
  | notify (cq : ℕ) (e : Entry)
  /-- a queue has an error to report -/
  | fail (cq : ℕ) (err : Fault)
  /-- settle what the next post returns -/
  | setRc (rc : ℤ)

/-- The bytes of one operation are copied, and which they were is noted. -/
def copy (p : Posted) (msg : List UInt8) (f : Fabric) : Fabric :=
  match p.req with
  | .recv base len =>
    { f with
      mem := memcpy base 0 (min len msg.length) (fun j => msg.getD j 0) f.mem
      history := { f.history with placed := f.history.placed ++ [(p, msg.take len)] } }
  | .send base len _ =>
    { f with
      history := { f.history with placed := f.history.placed ++ [(p, bytes f.mem base len)] } }
  | .write base len peer addr _ _ _ =>
    { f with
      remote := fun i =>
        if i = peer then memcpy addr base len f.mem (f.remote i) else f.remote i
      history := { f.history with placed := f.history.placed ++ [(p, bytes f.mem base len)] } }

/-- A move, where the fabric may make it. -/
def move : Move → Fabric → Option Fabric
  | .place ctx msg, f =>
    match f.inflight.find? (·.ctx = ctx) with
    | some p => if f.Placed ctx then none else some (f.copy p msg)
    | none => none
  | .complete cq ctx len, f =>
    match f.inflight.find? (·.ctx = ctx) with
    | some p =>
      if f.Placed ctx then
        some { f with
          inflight := f.inflight.erase p
          completions := f.completions ++
            [(cq, { opContext := some ctx, flags := p.req.flags, len := len })] }
      else none
    | none => none
  | .notify cq e, f =>
    if e.flags.remoteWrite = true ∨ e.opContext = none then
      some { f with completions := f.completions ++ [(cq, e)] }
    else none
  | .fail cq err, f => some { f with fault := fun i => if i = cq then some err else f.fault i }
  | .setRc rc, f => some { f with rc := rc }

/-- `fi_cq_read`: up to `n` entries of queue `cq`, and the entries that are left. -/
def cqRead (cq : ℕ) : ℕ → List (ℕ × Entry) → List Entry × List (ℕ × Entry)
  | _, [] => ([], [])
  | 0, q => ([], q)
  | n + 1, (i, e) :: q =>
    if i = cq then (e :: (cqRead cq n q).1, (cqRead cq n q).2)
    else ((cqRead cq (n + 1) q).1, (i, e) :: (cqRead cq (n + 1) q).2)

end Fabric

end EfaExamples
