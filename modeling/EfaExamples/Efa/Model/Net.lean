import EfaExamples.Common.Hex
import EfaExamples.Efa.Model.Resources
/-!
# Class `Net`, and what it owns

`net.h`, `net.cc`, and of `conn.h` the constructor and the members: what `Open`
opens and binds, the connections `Connect` makes and keeps, and the order in
which all of it is closed. The completion queues registered with the selector
of the process stand beside the `Net`.
-/

namespace EfaExamples

/-- `kAddrSize`. -/
def kAddrSize : ℕ := 32

/-- `kMaxAddrSize`. -/
def kMaxAddrSize : ℕ := 64

/-- `{:02x}` of a `char`, which is formatted as an unsigned one. -/
def hex (b : UInt8) : List Char := [Nat.digitChar (b.toNat / 16), Nat.digitChar (b.toNat % 16)]

/-- `Net::Addr2Str`, of the bytes at `addr`. -/
def addr2Str (addr : ℕ → UInt8) : String :=
  String.ofList ((List.range kAddrSize).flatMap fun i => hex (addr i))

/-- `isspace`. -/
def isSpace (c : Char) : Bool := c = ' ' || (9 ≤ c.toNat && c.toNat ≤ 13)

/-- `sscanf` of `%02hhx`: the byte it stores, if any. White space is skipped; then two characters
at most make the number, of which a sign may be the first. -/
def scanByte (s : List Char) : Option UInt8 :=
  match (s.takeWhile (· ≠ Char.ofNat 0)).dropWhile isSpace with
  | c :: d :: _ =>
    if c = '+' then (hexValue d).map UInt8.ofNat
    else if c = '-' then (hexValue d).map fun v => 0 - UInt8.ofNat v
    -- on `0x` this differs from a `sscanf` that takes the prefix alone for the number 0
    else if c = '0' ∧ (d = 'x' ∨ d = 'X') then none
    else (hexValue c).map fun v => ((hexValue d).map fun w => UInt8.ofNat (16 * v + w)).getD (.ofNat v)
  | [c] => (hexValue c).map UInt8.ofNat
  | [] => none

/-- `Net::Str2Addr`: the bytes at `bytes` after it. A byte for which nothing is read is left as it
is. `none` where `addr.c_str() + 2 * i` is past the end. -/
def str2Addr (addr : String) (bytes : ℕ → UInt8) : Option (ℕ → UInt8) :=
  (List.range kAddrSize).foldlM (fun bytes i =>
    if 2 * i ≤ addr.length then
      some (((scanByte (addr.toList.drop (2 * i))).map (Function.update bytes i)).getD bytes)
    else none) bytes

/-- What `CHECK` and `EXPECT` throw. -/
def callFailed (exp : String) (rc : ℤ) (strerror : ℤ → String) : Thrown :=
  .runtimeError (exp ++ " fail. error(" ++ toString rc ++ "): " ++ strerror (-rc))

/-! ## `Conn` -/

/-- A `Conn` with the buffers it owns. -/
structure ConnObject where
  /-- the object itself -/
  self : Resource
  ep : Option Resource
  remote : ℕ
  recvBuffer : Buffer
  sendBuffer : Buffer
  readBuffer : CUDABuffer
  writeBuffer : CUDABuffer

/-- What the calls of a `Connect` return. -/
structure ConnectSystem where
  /-- `fi_av_insert` -/
  avInsert : ℤ
  /-- the address it gives -/
  addr : ℕ
  recv : System
  send : System
  read : CudaSystem
  write : CudaSystem
  strerror : ℤ → String

namespace ConnObject

/-- `std::make_unique<Conn>(ep, domain, remote)`. Where a buffer throws, those before it are
destroyed. -/
def make (sys : ConnectSystem) (ep : Option Resource) (domain : Resource) (remote : ℕ)
    (l : Resources) : Except Thrown ConnObject × Resources :=
  match Buffer.host sys.recv (some domain) kBufferSize kAlign l with
  | (.error e, l) => (.error e, l)
  | (.ok recv, l) =>
    match Buffer.host sys.send (some domain) kBufferSize kAlign l with
    | (.error e, l) => (.error e, recv.destroy l)
    | (.ok send, l) =>
      match CUDABuffer.make sys.read domain (.ofNat kMemoryRegionSize) kAlign l with
      | (.error e, l) => (.error e, recv.destroy (send.destroy l))
      | (.ok read, l) =>
        match CUDABuffer.make sys.write domain (.ofNat kMemoryRegionSize) kAlign l with
        | (.error e, l) => (.error e, recv.destroy (send.destroy (read.destroy l)))
        | (.ok write, l) =>
          let r := l.acquire .conn
          (.ok
            { self := r.1
              ep := ep
              remote := remote
              recvBuffer := recv
              sendBuffer := send
              readBuffer := read
              writeBuffer := write }, r.2)

/-- `delete` of a `Conn`: its members go, the last one first. -/
def destroy (c : ConnObject) (l : Resources) : Resources :=
  (c.recvBuffer.destroy (c.sendBuffer.destroy (c.readBuffer.destroy (c.writeBuffer.destroy l)))).drop
    .delete (some c.self)

end ConnObject

/-! ## `Net` -/

/-- The members of `Net`. -/
structure Net where
  fabric : Option Resource := none
  domain : Option Resource := none
  ep : Option Resource := none
  cq : Option Resource := none
  av : Option Resource := none
  addr : List UInt8 := List.replicate kMaxAddrSize 0
  /-- `conns_`, an `unordered_map` -/
  conns : List (String × ConnObject) := []

/-- A `Net`, the queues of the selector, and the libraries. -/
structure NetState where
  net : Net := {}
  cqs : List Resource := []
  res : Resources := {}

namespace Resources

/-- A call that opens something on what a member points to. -/
def openOn (kind : Kind) (on : Option Resource) (l : Resources) : Resource × Resources :=
  let r := l.acquire kind
  match on with
  | some on => (r.1, r.2.tie r.1 on)
  | none => r

/-- `fi_ep_bind`. -/
def epBind (ep on : Option Resource) (l : Resources) : Resources :=
  match ep, on with
  | some ep, some on => l.tie ep on
  | _, _ => l

end Resources

/-- What the calls of `Open` return: codes, and an address. -/
structure OpenSystem where
  fabric : ℤ
  domain : ℤ
  cqOpen : ℤ
  avOpen : ℤ
  endpoint : ℤ
  /-- `fi_ep_bind` to the completion queue -/
  bindCq : ℤ
  /-- `fi_ep_bind` to the address vector -/
  bindAv : ℤ
  enable : ℤ
  getname : ℤ
  addr : List UInt8
  strerror : ℤ → String

namespace NetState

/-- The calls of `Open` in their order, each with its code and with what it does if that is 0. -/
def calls (sys : OpenSystem) : List (String × ℤ × (NetState → NetState)) :=
  [("fi_fabric(info->fabric_attr, &fabric_, nullptr)", sys.fabric, fun s =>
      let r := s.res.openOn .fabric none
      { s with net := { s.net with fabric := some r.1 }, res := r.2 }),
    ("fi_domain(fabric_, info, &domain_, nullptr)", sys.domain, fun s =>
      let r := s.res.openOn .domain s.net.fabric
      { s with net := { s.net with domain := some r.1 }, res := r.2 }),
    ("fi_cq_open(domain_, &cq_attr, &cq_, nullptr)", sys.cqOpen, fun s =>
      let r := s.res.openOn .cq s.net.domain
      { s with net := { s.net with cq := some r.1 }, res := r.2 }),
    ("fi_av_open(domain_, &av_attr, &av_, nullptr)", sys.avOpen, fun s =>
      let r := s.res.openOn .av s.net.domain
      { s with net := { s.net with av := some r.1 }, res := r.2 }),
    ("fi_endpoint(domain_, info, &ep_, nullptr)", sys.endpoint, fun s =>
      let r := s.res.openOn .ep s.net.domain
      { s with net := { s.net with ep := some r.1 }, res := r.2 }),
    ("fi_ep_bind(ep_, &cq_->fid, FI_SEND | FI_RECV)", sys.bindCq, fun s =>
      { s with res := s.res.epBind s.net.ep s.net.cq }),
    ("fi_ep_bind(ep_, &av_->fid, 0)", sys.bindAv, fun s =>
      { s with res := s.res.epBind s.net.ep s.net.av }),
    ("fi_enable(ep_)", sys.enable, id),
    ("fi_getname(&ep_->fid, addr_, &len)", sys.getname, fun s =>
      { s with net := { s.net with addr := sys.addr } })]

/-- One `CHECK` after another. -/
def check (strerror : ℤ → String) :
    List (String × ℤ × (NetState → NetState)) → NetState → Except Thrown Unit × NetState
  | [], s => (.ok (), s)
  | (exp, rc, f) :: calls, s =>
    if rc = 0 then check strerror calls (f s) else (.error (callFailed exp rc strerror), s)

/-- `Net::Register`. -/
def register (s : NetState) : NetState :=
  match s.net.cq with
  | some cq => { s with cqs := if cq ∈ s.cqs then s.cqs else s.cqs ++ [cq] }
  | none => s

/-- `Net::UnRegister`. -/
def unRegister (s : NetState) : NetState :=
  match s.net.cq with
  | some cq => { s with cqs := s.cqs.filter (· ≠ cq) }
  | none => s

/-- `Net::Open`. -/
def netOpen (sys : OpenSystem) (s : NetState) : Except Thrown Unit × NetState :=
  match check sys.strerror (calls sys) s with
  | (.ok (), s) => (.ok (), s.register)
  | (.error e, s) => (.error e, s)

/-- `unordered_map::emplace`: a key that is there keeps its value, and the new one is destroyed. -/
def emplace (key : String) (c : ConnObject) (s : NetState) : NetState :=
  match s.net.conns.lookup key with
  | none => { s with net := { s.net with conns := s.net.conns ++ [(key, c)] } }
  | some _ => { s with res := c.destroy s.res }

/-- `Net::Connect`, which returns the `Conn`. It needs an opened `Net`. -/
def connect (sys : ConnectSystem) (remote : ℕ → UInt8) (s : NetState) :
    Option (Except Thrown Resource × NetState) :=
  match s.net.av, s.net.domain with
  | some _, some domain =>
    if sys.avInsert = 1 then
      match ConnObject.make sys s.net.ep domain sys.addr s.res with
      | (.ok c, l) => some (.ok c.self, emplace (addr2Str remote) c { s with res := l })
      | (.error e, l) => some (.error e, { s with res := l })
    else
      some (.error (callFailed "fi_av_insert(av_, remote, 1, &addr, 0, nullptr)" sys.avInsert
        sys.strerror), s)
  | _, _ => none

/-- `~Net`: the body, and then the members, of which `conns_` destroys its elements in some
`order`. -/
def destroy (order : List (String × ConnObject)) (s : NetState) : NetState :=
  let s := s.unRegister
  let l := ((((s.res.drop .fiClose s.net.cq).drop .fiClose s.net.av).drop .fiClose s.net.ep).drop
    .fiClose s.net.domain).drop .fiClose s.net.fabric
  { net := {}, cqs := s.cqs, res := order.foldl (fun l c => c.2.destroy l) l }

end NetState

end EfaExamples
