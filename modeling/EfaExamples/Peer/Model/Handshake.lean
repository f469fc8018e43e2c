import EfaExamples.Common.LittleEndian
import EfaExamples.Common.Thrown
import EfaExamples.Efa.Model.Buffer
import EfaExamples.Peer.Model.Writer
/-!
# Construction and handshake

The constructors of `Peer` and `Writer` from the connection on, the message that
`Reader::Alloc` writes, and `Writer::Handshake` from the bytes its `Recv` returns
on. The message is a header of 24 bytes, with `rank` at 0, `num` at 8 and `seed`
at 16, and after it `num` regions of 24 bytes each. `std::mt19937_64` is any
function of the seed and the size.
-/

namespace EfaExamples

/-- The conversion to `int`. -/
def toInt (n : ℕ) : ℤ := if n % 2 ^ 32 < 2 ^ 31 then n % 2 ^ 32 else n % 2 ^ 32 - 2 ^ 32

namespace Message

variable (mem : ℕ → UInt8) (p : ℕ)

/-- `rank`. -/
def rank : ℤ := toInt (readLE mem p 4)

/-- `num`. -/
def num : ℕ := readLE mem (p + 8) 8

/-- `seed`. -/
def seed : ℕ := readLE mem (p + 16) 8

/-- `MSGSIZE`. -/
def size : ℕ := (24 + 24 * num mem p % 2 ^ 64) % 2 ^ 64

/-- The address of `(*resp)[i]`, whose index is an `int`. -/
def item (i : ℕ) : ℕ := ((p + 24 + 24 * toInt i) % 2 ^ 64).toNat

/-- `(*resp)[i]`. -/
def region (i : ℕ) : CUDARegion :=
  { addr := readLE mem (item p i) 8
    size := readLE mem (item p i + 8) 8
    key := readLE mem (item p i + 16) 8 }

end Message

/-- `Reader::Alloc`: the message at `data`, with `rng_()` for a seed and the
address and the key of the read buffer. -/
def Message.alloc (rank : ℤ) (seed addr key data : ℕ) (mem : ℕ → UInt8) : ℕ → UInt8 :=
  let mem := storeLE data 4 (rank % 2 ^ 32).toNat mem
  let mem := storeLE (data + 8) 8 1 mem
  let mem := storeLE (data + 16) 8 seed mem
  let mem := storeLE (data + 24) 8 addr mem
  let mem := storeLE (data + 32) 8 kMemoryRegionSize mem
  storeLE (data + 40) 8 key mem

/-- What `Connect` returns: the connection, with the sizes of its two CUDA buffers. -/
structure Connected where
  conn : Conn
  readSize : ℕ
  writeSize : ℕ

/-- The members of `Writer` and of its `Peer`. -/
structure WriterObj extends Writer where
  peer : ℤ
  size : ℕ
  peerSeed : ℕ

/-- `Peer(peer, page_size, num_pages)`, from the connection on. `peer_seed_` is
not initialised. -/
def WriterObj.peerOf (connect : Option Connected) (peer : ℤ) (pageSize numPages peerSeed : ℕ) :
    Except Thrown WriterObj :=
  match connect with
  | none => .error (.runtimeError "!!conn_ assertion fail.")
  | some c => do
    assertion "(page_size_ * num_pages_) <= conn_->GetReadBuffer().GetSize()"
      (pageSize * numPages % 2 ^ 64 ≤ c.readSize)
    assertion "(page_size_ * num_pages_) <= conn_->GetWriteBuffer().GetSize()"
      (pageSize * numPages % 2 ^ 64 ≤ c.writeSize)
    return { conn := c.conn, pageSize, numPages, peerRegions := [], peer,
             size := pageSize * numPages % 2 ^ 64, peerSeed }

/-- `Peer::RandBuffer`. -/
def randBuffer (rand : ℕ → ℕ → ℕ → UInt8) (seed size : ℕ) : Except Thrown (List UInt8) := do
  assertion "size % sizeof(uint64_t) == 0" (size % 8 = 0)
  return (List.range size).map (rand seed size)

/-- `cudaMemcpy` to the device and from it, where an error is the text that `CUDA_CHECK` makes
of it. -/
structure CudaMemcpy where
  hostToDevice (dst : ℕ) (data : List UInt8) (mem : ℕ → UInt8) : Except String (ℕ → UInt8)
  deviceToHost (src size : ℕ) (mem : ℕ → UInt8) : Except String (List UInt8)

/-- What is documented of it: a call that returns no error has copied the bytes. -/
structure CudaMemcpy.Copies (cuda : CudaMemcpy) : Prop where
  toDevice {dst : ℕ} {data : List UInt8} {mem mem' : ℕ → UInt8} :
    cuda.hostToDevice dst data mem = .ok mem' →
      mem' = memcpy dst 0 data.length (fun j => data.getD j 0) mem
  toHost {src size : ℕ} {mem : ℕ → UInt8} {data : List UInt8} :
    cuda.deviceToHost src size mem = .ok data → data = bytes mem src size

/-- `CUDA_CHECK`. -/
def cudaCheck {α : Type} (r : Except String α) : Except Thrown α := r.mapError .runtimeError

/-- `Peer::Verify`. -/
def verify (rand : ℕ → ℕ → ℕ → UInt8) (cuda : CudaMemcpy) (cudaBuffer seed size : ℕ)
    (mem : ℕ → UInt8) : Except Thrown Bool := do
  let expected ← randBuffer rand seed size
  let actual ← cudaCheck (cuda.deviceToHost cudaBuffer size mem)
  return expected == actual

namespace WriterObj

/-- `Writer(peer, page_size, num_pages)`, and the memory it leaves. -/
def make (rand : ℕ → ℕ → ℕ → UInt8) (cuda : CudaMemcpy) (connect : Option Connected)
    (peer : ℤ) (pageSize numPages peerSeed : ℕ) (mem : ℕ → UInt8) :
    Except Thrown (WriterObj × (ℕ → UInt8)) := do
  let w ← peerOf connect peer pageSize numPages peerSeed
  let buffer ← randBuffer rand w.peerSeed w.size
  let mem ← cudaCheck (cuda.hostToDevice w.conn.writeBuffer buffer mem)
  return (w, mem)

/-- The largest size of a `std::vector<CUDARegion>`. -/
def maxSize : ℕ := (2 ^ 63 - 1) / 24

/-- `Writer::Handshake`, of the buffer and the count its `Recv` returns. -/
def handshake (mem : ℕ → UInt8) (buf size : ℕ) (w : WriterObj) : Except Thrown WriterObj := do
  assertion "MSGSIZE(resp) == size" (Message.size mem buf = size)
  assertion "resp->rank == peer_" (Message.rank mem buf = w.peer)
  if maxSize < Message.num mem buf then .error (.lengthError "vector::_M_default_append")
  else
    return { w with
      peerSeed := Message.seed mem buf
      peerRegions := (List.range (Message.num mem buf)).map (Message.region mem buf) }

end WriterObj

end EfaExamples
