import EfaExamples.Efa.Model.Process
import EfaExamples.Peer.Model.Handshake
import EfaExamples.Peer.Model.Link
/-!
# The two handshakes

`Reader::Handshake` and `Writer::Handshake` as coroutines. `Alloc` has written its
message into the send buffer when the reader's body begins, as nothing else is
there to run. What `Writer::Handshake` does with the bytes it has received is
`WriterObj.handshake`.
-/

namespace EfaExamples

namespace Greeting

/-- The locations of `Reader::Handshake`. -/
inductive ReaderLoc
  /-- `conn_->Send((char *)req, MSGSIZE(req))` -/
  | send
  | sending (h : ℕ)
  /-- the `co_await` is over, and the end of its statement next -/
  | sent (h : ℕ) (o : Outcome Val)
  /-- `ASSERT(size == MSGSIZE(req))` -/
  | check (v : Option Val)
  deriving DecidableEq

/-- `Reader::Handshake`, of a message of so many bytes. -/
def reader (conn : Conn) (msgSize : ℕ) : ReaderLoc → Op ReaderLoc Unit ConnOp Val
  | .send => .io (.send conn conn.sendBuffer msgSize) fun h => .sending h
  | .sending h => .await h fun o => .sent h o
  | .sent h (.ok v) => .destroy h (.check v)
  | .sent _ (.error e) => .ret (.error e)
  | .check v =>
    if v = some (.size msgSize) then .ret (.ok none)
    else .ret (.error (.runtimeError "size == MSGSIZE(req) assertion fail."))

/-- The locations of `Writer::Handshake`. -/
inductive WriterLoc
  /-- `conn_->Recv()` -/
  | recv
  | receiving (h : ℕ)
  /-- the `co_await` is over, and the end of its statement next -/
  | received (h : ℕ) (o : Outcome Val)
  /-- what it has received is read -/
  | message (v : Option Val)
  deriving DecidableEq

/-- `Writer::Handshake`. -/
def writer (conn : Conn) : WriterLoc → Op WriterLoc Unit ConnOp Val
  | .recv => .io (.recv conn kBufferSize.toNat) fun h => .receiving h
  | .receiving h => .await h fun o => .received h o
  | .received h (.ok v) => .destroy h (.message v)
  | .received _ (.error e) => .ret (.error e)
  | .message _ => .ret (.ok none)

/-- The locations of a rank. -/
def Loc : Side → Type
  | .writer => WriterLoc
  | .reader => ReaderLoc

/-- Where a rank begins. -/
def start : ∀ i, Loc i
  | .writer => WriterLoc.recv
  | .reader => ReaderLoc.send

/-- What a rank has at hand: the reader's rank, the seed of `rng_()`, the address and the key of its
read buffer, the memory before `Alloc`, and the connections. -/
structure Ends where
  rank : ℤ
  rank_lower : -2 ^ 31 ≤ rank
  rank_lt : rank < 2 ^ 31
  seed : ℕ
  seed_lt : seed < 2 ^ 64
  addr : ℕ
  addr_lt : addr < 2 ^ 64
  key : ℕ
  key_lt : key < 2 ^ 64
  mem : ℕ → UInt8
  conn : Side → Conn
  data_lt : (conn .reader).sendBuffer + 24 < 2 ^ 64
  buf_lt : (conn .writer).recvBuffer + 24 < 2 ^ 64

namespace Ends

variable (e : Ends)

/-- The memory of the reader once `Alloc` has run. -/
def alloc : ℕ → UInt8 :=
  Message.alloc e.rank e.seed e.addr e.key (e.conn .reader).sendBuffer e.mem

/-- `MSGSIZE(req)`. -/
def msgSize : ℕ := Message.size e.alloc (e.conn .reader).sendBuffer

/-- The programs. -/
def code : ∀ i : Side, Loc i → Op (Loc i) Unit ConnOp Val
  | .writer => writer (e.conn .writer)
  | .reader => reader (e.conn .reader) e.msgSize

end Ends

/-- Both processes, and what is on its way between them. -/
abbrev Pair : Type := Network (fun i => Loop (Loc i) Unit ConnOp Fabric Val) ℕ Packet

/-- The process of the writer. -/
def Pair.writer (x : Pair) : Loop WriterLoc Unit ConnOp Fabric Val := x.party .writer

end Greeting

end EfaExamples
