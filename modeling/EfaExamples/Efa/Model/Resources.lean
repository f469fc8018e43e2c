import EfaExamples.Common.Ledger
import EfaExamples.Efa.Model.Buffer
/-!
# Buffers as owners

`buffer.h` of the `batch` example, for what its objects own: the constructors
with each point they can throw at, the moves, and the destructors. A pointer or a
descriptor goes by the call that handed it out, as an address may be handed out
again. A constructor that throws destroys the members as the base class does,
whichever class it is of.
-/

namespace EfaExamples

/-- What the libraries hand out. -/
inductive Kind
  | fabric
  | domain
  | cq
  | av
  | ep
  | mr
  /-- a block from `malloc` -/
  | block
  /-- a block from `cudaMalloc` -/
  | cudaBlock
  /-- a descriptor from `cuMemGetHandleForAddressRange` -/
  | dmabuf
  /-- a `Conn` from `make_unique` -/
  | conn
  deriving DecidableEq, Repr

/-- The ways to give something back. -/
inductive Release
  | fiClose
  | free
  | cudaFree
  /-- `close` of a descriptor -/
  | close
  /-- `delete` -/
  | delete
  deriving DecidableEq, Repr

/-- The right way for each kind. -/
def Kind.release : Kind → Release
  | fabric | domain | cq | av | ep | mr => .fiClose
  | block => .free
  | cudaBlock => .cudaFree
  | dmabuf => .close
  | conn => .delete

/-- One thing that was handed out. -/
structure Resource where
  kind : Kind
  id : ℕ
  deriving DecidableEq, Repr

/-- The right way to give it back. -/
def Resource.release (r : Resource) : Release := r.kind.release

/-- The libraries, as far as they hand something out: how often they did, and the ledger. -/
structure Resources where
  next : ℕ := 0
  log : List (Ledger.Item Resource Release) := []
  deriving DecidableEq

namespace Resources

/-- A call that hands out something. -/
def acquire (kind : Kind) (l : Resources) : Resource × Resources :=
  (⟨kind, l.next⟩, { next := l.next + 1, log := l.log ++ [.acquired ⟨kind, l.next⟩] })

/-- `r` is opened on `on`, or bound to it, or lies in it. -/
def tie (r on : Resource) (l : Resources) : Resources := { l with log := l.log ++ [.tied r on] }

/-- What a member points to is given back, if it is not null. -/
def drop (c : Release) (p : Option Resource) (l : Resources) : Resources :=
  match p with
  | some r => { l with log := l.log ++ [.released c r] }
  | none => l

/-- `Bind`, of memory that lies in `block`. -/
def bind (sys : System) (domain block : Resource) (data size : UInt64) (l : Resources) :
    Except Thrown Resource × Resources :=
  match Region.bind sys data size with
  | .ok _ =>
    let r := l.acquire .mr
    (.ok r.1, (r.2.tie r.1 domain).tie r.1 block)
  | .error e => (.error e, l)

end Resources

/-- `Buffer`, and `HostBuffer`, which adds no member. -/
structure Buffer where
  raw : Option Resource := none
  data : UInt64 := 0
  size : UInt64 := 0
  mr : Option Resource := none
  deriving DecidableEq

namespace Buffer

/-- `~Buffer`. -/
def destroy (b : Buffer) (l : Resources) : Resources := (l.drop .fiClose b.mr).drop .free b.raw

/-- `HostBuffer(domain, size, align)`. -/
def host (sys : System) (domain : Option Resource) (size : UInt64) (al : UInt64) (l : Resources) :
    Except Thrown Buffer × Resources :=
  match domain with
  | none => (.error (.runtimeError "!!domain assertion fail."), ({} : Buffer).destroy l)
  | some domain =>
    match allocate sys size al with
    | .error e => (.error e, ({} : Buffer).destroy l)
    | .ok (_, data, sz) =>
      let r := l.acquire .block
      let b : Buffer := { raw := some r.1, data := data, size := sz }
      match r.2.bind sys domain r.1 data sz with
      | (.error e, l) => (.error e, b.destroy l)
      | (.ok mr, l) => (.ok { b with mr := some mr }, l)

/-- `Buffer(Buffer &&)`: the new object, and what is left of the other. -/
def move (other : Buffer) : Buffer × Buffer := (other, {})

/-- `Buffer::operator=(Buffer &&)` from another object. The members are overwritten as they are. -/
def assign (_this other : Buffer) : Buffer × Buffer := (other, {})

end Buffer

/-- What the CUDA libraries return, besides. -/
structure CudaSystem extends System where
  cudaMalloc : UInt64 → Except ℤ UInt64
  /-- whether the type is `cudaMemoryTypeDevice`, and the device -/
  pointerGetAttributes : UInt64 → Except ℤ (Bool × ℤ)
  /-- `cuMemGetHandleForAddressRange` -/
  getHandle : UInt64 → UInt64 → Except ℤ ℤ
  cudaGetErrorString : ℤ → String
  cuGetErrorString : ℤ → Option String
  /-- `__FILE__` -/
  file : String

namespace CudaSystem

/-- What `CUDA_CHECK` throws. -/
def cudaError (sys : CudaSystem) (line : ℕ) (err : ℤ) : Thrown :=
  .runtimeError ("CUDA Error at " ++ sys.file ++ ":" ++ toString line ++ ": " ++
    sys.cudaGetErrorString err ++ " (code: " ++ toString err ++ ")")

/-- What `CU_CHECK` throws. -/
def cuError (sys : CudaSystem) (line : ℕ) (exp : String) (rc : ℤ) : Thrown :=
  .runtimeError (sys.file ++ ":" ++ toString line ++ " " ++ exp ++ " failed with " ++ toString rc ++
    " (" ++ (sys.cuGetErrorString rc).getD "Unknown error" ++ ")")

end CudaSystem

/-- `CUDABuffer`. -/
structure CUDABuffer extends Buffer where
  dmabufFd : Option Resource := none
  device : ℤ := -1
  deriving DecidableEq

namespace CUDABuffer

/-- `~CUDABuffer`, after which the base class finds null pointers. -/
def destroy (b : CUDABuffer) (l : Resources) : Resources :=
  (l.drop .fiClose b.mr).drop .cudaFree b.raw

/-- `CUDABuffer(domain, size, align)`. -/
def make (sys : CudaSystem) (domain : Resource) (size al : UInt64) (l : Resources) :
    Except Thrown CUDABuffer × Resources :=
  match sys.cudaMalloc size with
  | .error err => (.error (sys.cudaError 153 err), ({} : Buffer).destroy l)
  | .ok addr =>
    let r := l.acquire .cudaBlock
    let b : Buffer := { raw := some r.1 }
    match sys.pointerGetAttributes addr with
    | .error err => (.error (sys.cudaError 154 err), b.destroy r.2)
    | .ok (false, _) =>
      (.error (.runtimeError "attrs.type == cudaMemoryTypeDevice assertion fail."), b.destroy r.2)
    | .ok (true, device) =>
      match sys.getHandle (align addr al) size with
      | .error rc =>
        (.error (sys.cuError 156 ("cuMemGetHandleForAddressRange(&dmabuf_fd_, " ++
          "(CUdeviceptr)Align(raw_, align), size, CU_MEM_RANGE_HANDLE_TYPE_DMA_BUF_FD, 0)") rc),
          b.destroy r.2)
      | .ok fd =>
        if fd = -1 then
          (.error (.runtimeError "dmabuf_fd_ != -1 assertion fail."), b.destroy r.2)
        else
          let f := r.2.acquire .dmabuf
          let b : Buffer := { b with data := align addr al, size := addr + size - align addr al }
          match f.2.bind sys.toSystem domain r.1 b.data b.size with
          | (.error e, l) => (.error e, b.destroy l)
          | (.ok mr, l) =>
            (.ok { b with mr := some mr, dmabufFd := some f.1, device := device }, l)

/-- `CUDABuffer(CUDABuffer &&)`. -/
def move (other : CUDABuffer) : CUDABuffer × CUDABuffer := (other, {})

/-- `CUDABuffer::operator=(CUDABuffer &&)` from another object. -/
def assign (_this other : CUDABuffer) : CUDABuffer × CUDABuffer := (other, {})

end CUDABuffer

/-! ## A program of buffers -/

/-- A buffer of either class. -/
inductive AnyBuffer
  | host (b : Buffer)
  | cuda (b : CUDABuffer)

namespace AnyBuffer

/-- The destructors. -/
def destroy : AnyBuffer → Resources → Resources
  | host b => b.destroy
  | cuda b => b.destroy

/-- The move constructors. -/
def move : AnyBuffer → AnyBuffer × AnyBuffer
  | host b => (host b.move.1, host b.move.2)
  | cuda b => (cuda b.move.1, cuda b.move.2)

/-- The move assignments, of two buffers of one class. -/
def assign : AnyBuffer → AnyBuffer → Option (AnyBuffer × AnyBuffer)
  | host this, host other => some (host (this.assign other).1, host (this.assign other).2)
  | cuda this, cuda other => some (cuda (this.assign other).1, cuda (this.assign other).2)
  | _, _ => none

/-- `raw_` -/
def raw : AnyBuffer → Option Resource
  | host b => b.raw
  | cuda b => b.raw

end AnyBuffer

/-- What a program does with buffers. Those alive are told by their place in a list. -/
inductive BufferOp
  /-- `HostBuffer()` -/
  | emptyHost
  /-- `CUDABuffer()` -/
  | emptyCuda
  /-- `HostBuffer(domain, size, align)` -/
  | host (sys : System) (domain : Option ℕ) (size al : UInt64)
  /-- `CUDABuffer(domain, size, align)` -/
  | cuda (sys : CudaSystem) (domain : ℕ) (size al : UInt64)
  /-- a move construction -/
  | move (other : ℕ)
  /-- a move assignment -/
  | assign (this other : ℕ)
  | destroy (this : ℕ)

/-- The buffers alive, and the libraries. -/
structure Buffers where
  bufs : List AnyBuffer := []
  res : Resources := {}

namespace BufferOp

/-- A construction adds a buffer, unless it throws. -/
def construct {α : Type} (s : Buffers) (wrap : α → AnyBuffer) (r : Except Thrown α × Resources) :
    Buffers :=
  match r with
  | (.ok b, l) => ⟨s.bufs ++ [wrap b], l⟩
  | (.error _, l) => ⟨s.bufs, l⟩

/-- One operation, where the buffers it names are alive. A buffer assigned to itself gets back what
each `std::exchange` took. -/
def apply : BufferOp → Buffers → Option Buffers
  | emptyHost, s => some { s with bufs := s.bufs ++ [.host {}] }
  | emptyCuda, s => some { s with bufs := s.bufs ++ [.cuda {}] }
  | host sys domain size al, s =>
    some (construct s .host (Buffer.host sys (domain.map (⟨.domain, ·⟩)) size al s.res))
  | cuda sys domain size al, s =>
    some (construct s .cuda (CUDABuffer.make sys ⟨.domain, domain⟩ size al s.res))
  | move other, s => do
    let b ← s.bufs[other]?
    return { s with bufs := s.bufs.set other b.move.2 ++ [b.move.1] }
  | assign this other, s => do
    let b ← s.bufs[this]?
    let b' ← s.bufs[other]?
    let r ← b.assign b'
    if this = other then return s
    else return { s with bufs := (s.bufs.set other r.2).set this r.1 }
  | destroy this, s => do
    let b ← s.bufs[this]?
    return ⟨s.bufs.eraseIdx this, b.destroy s.res⟩

end BufferOp

end EfaExamples
