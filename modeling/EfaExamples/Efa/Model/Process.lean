import EfaExamples.Common.Network
import EfaExamples.Efa.Model.Conn
/-!
# A process among others

The loop, the selector and the connections of one process, with the other
processes where the fabric alone was. A message that a `Send` copies out goes
to the process it is for, where a receive gets it, and a write with
`FI_REMOTE_CQ_DATA` leaves its data as an immediate for the target. The bytes
of a write go to the target's memory directly, which is `Fabric.remote` here.
-/

namespace EfaExamples

/-- What travels from process to process, to the address of a connection. -/
inductive Packet
  /-- the bytes of a send -/
  | message (data : List UInt8)
  /-- the immediate of a write whose bytes are there -/
  | notice (data : ℕ)
  deriving DecidableEq, Repr

/-- What it does to the network that the bytes of an operation are copied. -/
def Request.label (mem : ℕ → UInt8) : Request → Label ℕ Packet
  | .recv _ _ => .own
  | .send base len remote => .put remote (.message (bytes mem base len))
  | .write _ _ remote _ _ data cqData => if cqData then .put remote (.notice data) else .own

/-- A move in which no other process has a part. The completion of a receive tells
the number of bytes it got. -/
def Fabric.Own (f : Fabric) : Fabric.Move → Prop
  | .place _ _ => False
  | .complete _ ctx len => ∀ p ∈ f.history.placed, p.1.ctx = ctx →
      ∀ base sz, p.1.req = .recv base sz → len = p.2.length
  | .notify _ e => e.flags.remoteWrite = false
  | .fail _ _ | .setRc _ => True

/-- The selector and the connections, where the fabric moves without the others. -/
def ownWorld : World ConnOp Fabric Val :=
  { efaWorld with env := fun f f' => ∃ m, f.Own m ∧ f.move m = some f' }

/-- **One step of a process.** A message that is longer than the receive is not for it. -/
inductive ProcessStep {Loc G : Type} (code : Loc → Op Loc G ConnOp Val) :
    Loop Loc G ConnOp Fabric Val → Label ℕ Packet → Loop Loc G ConnOp Fabric Val → Prop
  /-- the process and its fabric by themselves -/
  | own {s s' : Loop Loc G ConnOp Fabric Val} :
      Loop.Step ownWorld code s s' → ProcessStep code s .own s'
  /-- the bytes of a send or of a write are copied out -/
  | place {s : Loop Loc G ConnOp Fabric Val} {ctx : ℕ} {p : Posted} {f : Fabric} :
      s.world.inflight.find? (·.ctx = ctx) = some p → (∀ base sz, p.req ≠ .recv base sz) →
      s.world.move (.place ctx []) = some f →
      ProcessStep code s (p.req.label s.world.mem) { s with world := f }
  /-- a receive gets a message -/
  | receive {s : Loop Loc G ConnOp Fabric Val} {ctx base sz : ℕ} {p : Posted} {msg : List UInt8}
      {f : Fabric} : s.world.inflight.find? (·.ctx = ctx) = some p → p.req = .recv base sz →
      msg.length ≤ sz → s.world.move (.place ctx msg) = some f →
      ProcessStep code s (.take (.message msg)) { s with world := f }
  /-- the immediate of a write from elsewhere comes into a queue -/
  | notice {s : Loop Loc G ConnOp Fabric Val} {cq : ℕ} {e : Entry} {f : Fabric} :
      e.flags.remoteWrite = true → s.world.move (.notify cq e) = some f →
      ProcessStep code s (.take (.notice e.data)) { s with world := f }

end EfaExamples
