import EfaExamples.Efa.Model.Net
/-!
# The objects of the `efa` example

Its `buffer.h` and `conn.h`, for what their objects own, and `Start` of its `main.cc`, with each
point it can throw at. A `Buffer` is registered with a domain after it is made, and may
be with several; a `Conn` has no buffers. `Net` is the one of the other examples. No program
moves or copies these objects.
-/

namespace EfaExamples

/-- The order in which an `unordered_map` is iterated. -/
structure MapOrder (α : Type) where
  order : List α → List α
  perm : ∀ l, (order l).Perm l

namespace Ring

/-! ## `Buffer` -/

/-- `Buffer`. `mrs_` has the regions by domain. -/
structure Buffer where
  raw : Option Resource := none
  data : UInt64 := 0
  size : UInt64 := 0
  mrs : List (Resource × Resource) := []

namespace Buffer

/-- `Buffer(size, align)`. -/
def make (sys : System) (size al : UInt64) (l : Resources) : Except Thrown Buffer × Resources :=
  match allocate sys size al with
  | .error e => (.error e, l)
  | .ok (_, data, sz) =>
    let r := l.acquire .block
    (.ok { raw := some r.1, data := data, size := sz }, r.2)

/-- `Buffer::Register`. -/
def register (sys : System) (domain : Resource) (b : Buffer) (l : Resources) :
    Except Thrown Buffer × Resources :=
  if (b.mrs.lookup domain).isSome then (.ok b, l)
  else
    match Region.bind sys b.data b.size with
    | .error e => (.error e, l)
    | .ok _ =>
      let r := l.acquire .mr
      let l := r.2.tie r.1 domain
      (.ok { b with mrs := b.mrs ++ [(domain, r.1)] },
        match b.raw with
        | some block => l.tie r.1 block
        | none => l)

/-- `~Buffer`. -/
def destroy (mrs : MapOrder (Resource × Resource)) (b : Buffer) (l : Resources) : Resources :=
  ((mrs.order b.mrs).foldl (fun l x => l.drop .fiClose (some x.2)) l).drop .free b.raw

end Buffer

/-! ## `Net` -/

/-- A `Conn`, of which the members that are buffers are empty. -/
def bare (self : Resource) (ep : Option Resource) (remote : ℕ) : ConnObject where
  self := self
  ep := ep
  remote := remote
  recvBuffer := {}
  sendBuffer := {}
  readBuffer := {}
  writeBuffer := {}

/-- What the calls of a `Connect` return. -/
structure ConnSystem where
  /-- `fi_av_insert` -/
  avInsert : ℤ
  /-- the address it gives -/
  addr : ℕ
  strerror : ℤ → String

/-- `Net::Connect`. It needs an opened `Net`. -/
def connect (sys : ConnSystem) (remote : ℕ → UInt8) (s : NetState) :
    Option (Except Thrown Resource × NetState) :=
  match s.net.av with
  | some _ =>
    if sys.avInsert = 1 then
      let r := s.res.acquire .conn
      some (.ok r.1, NetState.emplace (addr2Str remote) (bare r.1 s.net.ep sys.addr)
        { s with res := r.2 })
    else
      some (.error (callFailed "fi_av_insert(av_, remote, 1, &addr, 0, nullptr)" sys.avInsert
        sys.strerror), s)
  | none => none

/-! ## Programs -/

/-- An object. -/
inductive Object
  | net (n : Net)
  | buffer (b : Buffer)

/-- The objects alive, the queues of the selector, and the libraries. -/
structure Objects where
  alive : List Object := []
  cqs : List Resource := []
  res : Resources := {}

/-- What a program does with the objects. Those alive are told by their place in a list. -/
inductive ObjectOp
  /-- `Net()` -/
  | net
  /-- `Open`, whatever comes of it -/
  | netOpen (net : ℕ) (sys : OpenSystem)
  | connect (net : ℕ) (sys : ConnSystem) (remote : ℕ → UInt8)
  /-- `Buffer()` -/
  | empty
  /-- `Buffer(size, align)` -/
  | make (sys : System) (size al : UInt64)
  /-- `Register`, with the domain of a `Net` -/
  | register (sys : System) (buffer net : ℕ)
  | destroyNet (net : ℕ) (conns : MapOrder (String × ConnObject))
  | destroyBuffer (buffer : ℕ) (mrs : MapOrder (Resource × Resource))

namespace ObjectOp

/-- One operation, where the objects it names are alive. -/
def apply : ObjectOp → Objects → Option Objects
  | .net, s => some { s with alive := s.alive ++ [.net {}] }
  | .netOpen i sys, s =>
    match s.alive[i]? with
    | some (.net n) =>
      let t := (NetState.netOpen sys ⟨n, s.cqs, s.res⟩).2
      some ⟨s.alive.set i (.net t.net), t.cqs, t.res⟩
    | _ => none
  | .connect i sys remote, s =>
    match s.alive[i]? with
    | some (.net n) =>
      (Ring.connect sys remote ⟨n, s.cqs, s.res⟩).map fun r =>
        ⟨s.alive.set i (.net r.2.net), r.2.cqs, r.2.res⟩
    | _ => none
  | .empty, s => some { s with alive := s.alive ++ [.buffer {}] }
  | .make sys size al, s =>
    match Buffer.make sys size al s.res with
    | (.ok b, l) => some { s with alive := s.alive ++ [.buffer b], res := l }
    | (.error _, l) => some { s with res := l }
  | .register sys i j, s =>
    match s.alive[i]?, s.alive[j]? with
    | some (.buffer b), some (.net n) =>
      n.domain.map fun domain =>
        match b.register sys domain s.res with
        | (.ok b, l) => { s with alive := s.alive.set i (.buffer b), res := l }
        | (.error _, l) => { s with res := l }
    | _, _ => none
  | .destroyNet i conns, s =>
    match s.alive[i]? with
    | some (.net n) =>
      let t := NetState.destroy (conns.order n.conns) ⟨n, s.cqs, s.res⟩
      some ⟨s.alive.eraseIdx i, t.cqs, t.res⟩
    | _ => none
  | .destroyBuffer i mrs, s =>
    match s.alive[i]? with
    | some (.buffer b) => some { s with alive := s.alive.eraseIdx i, res := b.destroy mrs s.res }
    | _ => none

/-- The operation destroys a `Net` with whose domain a buffer is registered. -/
def Strands : ObjectOp → Objects → Prop
  | .destroyNet i _, s => ∃ n d b mr, s.alive[i]? = some (.net n) ∧ n.domain = some d ∧
      .buffer b ∈ s.alive ∧ (d, mr) ∈ b.mrs
  | _, _ => False

/-- The operation opens a `Net` that has a fabric, and gets another. -/
def Leaks : ObjectOp → Objects → Prop
  | .netOpen i sys, s => ∃ n, s.alive[i]? = some (.net n) ∧ n.fabric.isSome ∧ sys.fabric = 0
  | _, _ => False

end ObjectOp

/-- The states of a program. -/
structure ObjectRun (ops : ℕ → ObjectOp) (σ : ℕ → Objects) (n : ℕ) : Prop where
  start : σ 0 = {}
  next : ∀ i < n, (ops i).apply (σ i) = some (σ (i + 1))

/-! ## `Start` -/

/-- What the calls of `Start` return. -/
structure StartSystem where
  opening : OpenSystem
  connecting : ConnSystem
  rbuf : System
  sbuf : System
  /-- its `Send` and its `Recv`: they return, or one throws -/
  exchange : Except Thrown Unit
  conns : MapOrder (String × ConnObject)
  mrs : MapOrder (Resource × Resource)

namespace StartSystem

variable (sys : StartSystem)

/-- `net` goes. -/
def leaveNet (s : NetState) (l : Resources) : Resources :=
  (NetState.destroy (sys.conns.order s.net.conns) { s with res := l }).res

/-- `sbuf` goes, then `rbuf`, then `net`. -/
def leave (s : NetState) (rbuf sbuf : Buffer) (l : Resources) : Resources :=
  sys.leaveNet s (rbuf.destroy sys.mrs (sbuf.destroy sys.mrs l))

/-- `Start`, of which the locals are destroyed wherever it is left, the last one first. -/
def start (remote : ℕ → UInt8) : Option (Except Thrown Unit × Resources) :=
  match NetState.netOpen sys.opening {} with
  | (.error e, s) => some (.error e, sys.leaveNet s s.res)
  | (.ok (), s) => do
    let (conn, s) ← connect sys.connecting remote s
    match conn with
    | .error e => return (.error e, sys.leaveNet s s.res)
    | .ok _ =>
      let domain ← s.net.domain
      match Buffer.make sys.rbuf kBufferSize kAlign s.res with
      | (.error e, l) => return (.error e, sys.leaveNet s l)
      | (.ok rbuf, l) =>
        match Buffer.make sys.sbuf kBufferSize kAlign l with
        | (.error e, l) => return (.error e, sys.leaveNet s (rbuf.destroy sys.mrs l))
        | (.ok sbuf, l) =>
          match rbuf.register sys.rbuf domain l with
          | (.error e, l) => return (.error e, sys.leave s rbuf sbuf l)
          | (.ok rbuf, l) =>
            match sbuf.register sys.sbuf domain l with
            | (.error e, l) => return (.error e, sys.leave s rbuf sbuf l)
            | (.ok sbuf, l) => return (sys.exchange, sys.leave s rbuf sbuf l)

end StartSystem

end Ring

end EfaExamples
