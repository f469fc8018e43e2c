import EfaExamples.Common.Thrown
import EfaExamples.Efa.Model.Conn
/-!
# Buffers

`buffer.h`: a block from `malloc`, its first aligned address, and what is left
of the block from there on, which is registered. The `efa` example has its own
`Buffer`, registered with a domain later, and its own `Recv` and `Send`, which
take the buffer as an argument.
-/

namespace EfaExamples

/-- `kAlign`. -/
def kAlign : UInt64 := 128

/-- `kBufferSize`. -/
def kBufferSize : UInt64 := 8129

/-- `kMemoryRegionSize`. -/
def kMemoryRegionSize : ℕ := 2 ^ 30

/-- `Buffer::Align`. -/
def align (ptr align : UInt64) : UInt64 := (ptr + align - 1) &&& ~~~(align - 1)

/-- The memory that was registered: the `iovec` of its `fi_mr_attr`. -/
structure Region where
  base : UInt64
  len : UInt64
  deriving DecidableEq, Repr

/-- What the calls of the system return. A null pointer is 0. -/
structure System where
  malloc : UInt64 → UInt64
  regattr : Region → ℤ
  /-- `strerror(errno)` -/
  errno : String
  /-- `fi_strerror` -/
  strerror : ℤ → String

/-- `HostBuffer`. -/
structure HostBuffer where
  raw : UInt64
  data : UInt64
  size : UInt64
  mr : Region
  deriving DecidableEq, Repr

/-- `Bind`. -/
def Region.bind (sys : System) (data size : UInt64) : Except Thrown Region :=
  let iov : Region := { base := data, len := size }
  let rc := sys.regattr iov
  if rc = 0 then .ok iov
  else .error (.runtimeError ("fi_mr_regattr(domain, &mr_attr, flags, &mr) fail. error(" ++
    toString rc ++ "): " ++ sys.strerror (-rc)))

/-- `malloc`, `BUFFER_ASSERT` and the alignment, which both constructors begin
with: `raw_`, `data_` and `size_`. -/
def allocate (sys : System) (size al : UInt64) : Except Thrown (UInt64 × UInt64 × UInt64) :=
  let raw := sys.malloc size
  if raw = 0 then .error (.runtimeError ("raw_ fail. error: " ++ sys.errno))
  else .ok (raw, align raw al, raw + size - align raw al)

/-- `HostBuffer(domain, size, align)`. -/
def HostBuffer.make (sys : System) (domain : ℕ) (size : UInt64) (al : UInt64 := kAlign) :
    Except Thrown HostBuffer := do
  assertion "!!domain" (domain ≠ 0)
  let r ← allocate sys size al
  let mr ← Region.bind sys r.2.1 r.2.2
  return { raw := r.1, data := r.2.1, size := r.2.2, mr := mr }

/-- `Buffer` of the `efa` example; `mrs_` by domain. -/
structure OwnBuffer where
  raw : UInt64
  data : UInt64
  size : UInt64
  mrs : ℕ → Option Region

namespace OwnBuffer

/-- `Buffer(size, align)`. -/
def make (sys : System) (size : UInt64) (al : UInt64 := kAlign) : Except Thrown OwnBuffer := do
  let r ← allocate sys size al
  return { raw := r.1, data := r.2.1, size := r.2.2, mrs := fun _ => none }

/-- `Buffer::Register`. -/
def register (sys : System) (domain : ℕ) (b : OwnBuffer) : Except Thrown OwnBuffer :=
  if (b.mrs domain).isSome then .ok b
  else do
    let mr ← Region.bind sys b.data b.size
    return { b with mrs := fun d => if d = domain then some mr else b.mrs d }

/-- `Buffer::GetMR`. -/
def getMR (domain : ℕ) (b : OwnBuffer) : Except Thrown Region := do
  assertion "!!domain" (domain ≠ 0)
  match b.mrs domain with
  | some mr => return mr
  | none => .error (.outOfRange "unordered_map::at")

/-- `Recv(buffer, sz)` of the `efa` example, up to the message it posts. -/
def recv (domain sz : ℕ) (b : OwnBuffer) : Except Thrown Request :=
  if sz = 0 then .error (.invalidArgument "Recv buffer size should be greater than 0")
  else do
    let _ ← b.getMR domain
    return .recv b.data.toNat sz

/-- `Send(buffer, sz)` of the `efa` example, up to the message it posts. -/
def send (domain remote sz : ℕ) (b : OwnBuffer) : Except Thrown Request :=
  if sz = 0 then .error (.invalidArgument "Send buffer size should be greater than 0")
  else do
    let _ ← b.getMR domain
    return .send b.data.toNat sz remote

end OwnBuffer

end EfaExamples
