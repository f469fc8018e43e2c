import EfaExamples.Efa.Model.Process
import EfaExamples.Peer.Model.Writer
/-!
# Writer and reader

The two processes of the `batch`, `dmabuf` and `affinity` examples after their
handshakes: one runs `Writer::Write`, the other `Reader::Read`, each with a
loop, a selector and a fabric of its own.
-/

namespace EfaExamples

/-- The two ranks. -/
inductive Side
  | writer
  | reader
  deriving DecidableEq

instance : Fintype Side := ⟨{.writer, .reader}, fun i => by cases i <;> simp⟩

namespace Side

/-- The locations of a rank's program, around a `WriteOne` with the locations `I`. -/
def Loc (I : Type) : Side → Type
  | writer => Writer.Loc I
  | reader => Reader.Loc

/-- What the bodies of a rank share. -/
def Mem : Side → Type
  | writer => Writer.Counters
  | reader => Unit

end Side

/-- Both processes, and what is on its way between them. -/
abbrev Link (I : Type) : Type :=
  Network (fun i : Side => Loop (i.Loc I) i.Mem ConnOp Fabric Val) ℕ Packet

namespace Link

variable {I : Type}

/-- The process of rank 0. -/
def writer (x : Link I) : Loop (Writer.Loc I) Writer.Counters ConnOp Fabric Val := x.party .writer

/-- The process of rank 1. -/
def reader (x : Link I) : Loop Reader.Loc Unit ConnOp Fabric Val := x.party .reader

/-- The programs: `Writer::Write`, and `Reader::Read(reads)`. -/
def code (write : Writer.Loc I → Op (Writer.Loc I) Writer.Counters ConnOp Val) (conn : Conn)
    (reads : ℕ) : ∀ i : Side, i.Loc I → Op (i.Loc I) i.Mem ConnOp Val
  | .writer => write
  | .reader => Reader.code conn reads

/-- One step of either process. -/
def Step (address : Side → ℕ) (write : Writer.Loc I → Op (Writer.Loc I) Writer.Counters ConnOp Val)
    (conn : Conn) (reads : ℕ) : Link I → Link I → Prop :=
  Network.Step address fun i => ProcessStep (code write conn reads i)

end Link

end EfaExamples
