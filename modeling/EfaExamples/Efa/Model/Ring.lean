import EfaExamples.Efa.Model.Net
import EfaExamples.Efa.Model.Process
/-!
# The ring

`main.cc` of the `efa` example: the addresses that all ranks gather, and `Start`,
which sends a text to the next rank and receives one. `Conn` has no buffers of
its own there, and the two that `Start` registers stand in their places: a
`Send` of `sbuf` is a send whose data is the send buffer, and a `Recv` leaves
its bytes in `rbuf`. `AllGatherAddr` and the address of the peer are the same
in `Peer::Connect` of the other examples.
-/

namespace EfaExamples

/-- `ENDPOINT_IDX`. -/
def endpointIdx (rank : ℕ) : ℕ := rank * kMaxAddrSize

/-- `std::memcpy` into a string. -/
def overwrite (s : List UInt8) (i : ℕ) (data : List UInt8) : List UInt8 :=
  s.take i ++ data ++ s.drop (i + data.length)

/-- `remote`, the address of a rank among the endpoints. -/
def remoteAddr (endpoints : List UInt8) (rank : ℕ) : List UInt8 :=
  (endpoints.drop (endpointIdx rank)).take kMaxAddrSize

/-- `MPI_Allgather` with `MPI_IN_PLACE`, of the buffers of so many ranks: what a rank has then. -/
abbrev Allgather := ℕ → (ℕ → List UInt8) → ℕ → List UInt8

/-- What is documented of it: every rank has the block of each, as that one's own buffer had it. -/
def Allgather.Gathers (allgather : Allgather) : Prop :=
  ∀ size bufs, (∀ i < size, (bufs i).length = size * kMaxAddrSize) → ∀ i < size, ∀ j < size,
    remoteAddr (allgather size bufs i) j = remoteAddr (bufs j) j

/-- `AllGatherAddr`: each rank puts its address into a string of zeros, and they exchange them. -/
def allGatherAddr (allgather : Allgather) (size : ℕ) (addr : ℕ → List UInt8) : ℕ → List UInt8 :=
  allgather size fun rank =>
    overwrite (List.replicate (size * kMaxAddrSize) 0) (endpointIdx rank)
      ((addr rank).take kMaxAddrSize)

namespace Ring

/-- `dst`. -/
def next (size rank : ℕ) : ℕ := (rank + 1) % size

/-- `msg`, whose characters are bytes. -/
def message (size rank : ℕ) : List UInt8 :=
  (s!"[rank:{rank}] [{rank}] -> [{next size rank}]").toList.map fun c => UInt8.ofNat c.toNat

/-- The locations of `Start`, from its `Send` on. -/
inductive Loc
  /-- `conn->Send(sbuf, msg.size())` -/
  | send
  | sending (h : ℕ)
  /-- the `co_await` is over, and the end of its statement next -/
  | sent (h : ℕ) (o : Outcome Val)
  /-- `conn->Recv(rbuf)` -/
  | recv
  | receiving (h : ℕ)
  | received (h : ℕ) (o : Outcome Val)
  /-- the loop that copies to `data` what the receive has returned -/
  | data (v : Option Val)
  deriving DecidableEq

/-- `Start`, from its `Send` on. -/
def start (conn : Conn) (msg : List UInt8) : Loc → Op Loc Unit ConnOp Val
  | .send => .io (.send conn conn.sendBuffer msg.length) fun h => .sending h
  | .sending h => .await h fun o => .sent h o
  | .sent h (.ok _) => .destroy h .recv
  | .sent _ (.error e) => .ret (.error e)
  | .recv => .io (.recv conn kBufferSize.toNat) fun h => .receiving h
  | .receiving h => .await h fun o => .received h o
  | .received h (.ok v) => .destroy h (.data v)
  | .received _ (.error e) => .ret (.error e)
  | .data _ => .ret (.ok none)

/-- **What the ranks have**: their addresses, where their buffers are, which endpoint the fabric
finds for an address, and the library they gather with. -/
structure Ranks where
  size : ℕ
  allgather : Allgather
  addr : ℕ → List UInt8
  /-- `addr_` is an array of so many bytes -/
  length_addr : ∀ rank, (addr rank).length = kMaxAddrSize
  rbuf : ℕ → ℕ
  sbuf : ℕ → ℕ
  endpoint : List UInt8 → ℕ

namespace Ranks

variable (r : Ranks)

/-- The connection of a rank, to the address it finds among those gathered. -/
def conn (rank : ℕ) : Conn where
  remote :=
    r.endpoint (remoteAddr (allGatherAddr r.allgather r.size r.addr rank) (next r.size rank))
  recvBuffer := r.rbuf rank
  sendBuffer := r.sbuf rank
  readBuffer := 0
  writeBuffer := 0

/-- The programs. -/
def code (i : Fin r.size) : Loc → Op Loc Unit ConnOp Val := start (r.conn i) (message r.size i)

/-- One step of any of them. -/
def Step : Network (fun _ : Fin r.size => Loop Loc Unit ConnOp Fabric Val) ℕ Packet →
    Network (fun _ : Fin r.size => Loop Loc Unit ConnOp Fabric Val) ℕ Packet → Prop :=
  Network.Step (fun i => r.endpoint (r.addr i)) fun i => ProcessStep (r.code i)

end Ranks

end Ring

end EfaExamples
