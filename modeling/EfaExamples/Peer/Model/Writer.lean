import Mathlib.Algebra.Group.Nat.Defs
import EfaExamples.Peer.Model.Reader
/-!
# Class `Writer`

`Writer::Write` and the two versions of `Writer::WriteOne`: the pipelined one
of the `batch` example, and the one of the `dmabuf` and `affinity` examples
that awaits every write before the next. A location of `WriteOne` carries the
position in the two loops, and the round of `Write` it belongs to. The counters
`Write` shares with `WriteOne` come with a log of the writes made, which no
function of the source reads.
-/

namespace EfaExamples

/-- `CUDARegion`. -/
structure CUDARegion where
  addr : ℕ
  size : ℕ
  key : ℕ
  deriving DecidableEq, Repr

/-- The members of `Peer` and `Writer` that its writes look at. -/
structure Writer where
  conn : Conn
  pageSize : ℕ
  numPages : ℕ
  peerRegions : List CUDARegion
  deriving DecidableEq, Repr

namespace Writer

/-- A write that has been made: which page of which region, in which round, and
the handle of its coroutine. -/
structure Issued where
  round : ℕ
  region : ℕ
  page : ℕ
  ctx : ℕ
  deriving DecidableEq, Repr

/-- `ops` and `sent`, with the log. -/
structure Counters where
  ops : ℕ := 0
  sent : ℕ := 0
  issued : List Issued := []
  deriving DecidableEq, Repr

namespace Counters

/-- `++ops`. -/
def countOp (m : Counters) : Counters := { m with ops := (m.ops + 1) % 2 ^ 64 }

/-- `++sent`. -/
def countSent (m : Counters) : Counters := { m with sent := (m.sent + 1) % 2 ^ 64 }

/-- A write is noted. -/
def note (e : Issued) (m : Counters) : Counters := { m with issued := m.issued ++ [e] }

end Counters

/-- `base`, the local address of page `i`. -/
def base (w : Writer) (i : ℕ) : ℕ := (w.conn.writeBuffer + i * w.pageSize) % 2 ^ 64

/-- `addr`, the address of page `i` of a region. -/
def addr (w : Writer) (region : CUDARegion) (i : ℕ) : ℕ := (region.addr + i * w.pageSize) % 2 ^ 64

/-- `imm_data` of page `i`. -/
def immData (w : Writer) (i : ℕ) : ℕ := if i = w.numPages - 1 then kImmData else 0

/-- The call of `Conn::Write` for page `i` of a region. -/
def page (w : Writer) (region : CUDARegion) (i : ℕ) : ConnOp :=
  .write w.conn (w.base i) w.pageSize (w.addr region i) region.key (w.immData i)

/-- `total_ops`, which `Write` gives to `Progress`. -/
def totalOps (w : Writer) (times : ℕ) : ℕ :=
  times * w.peerRegions.length % 2 ^ 64 * w.numPages % 2 ^ 64

/-- The locations of `Writer::Write`, and those of its `WriteOne`. -/
inductive Loc (I : Type)
  /-- the test of the loop -/
  | write (i : ℕ)
  /-- `WriteOne` is called, and its `co_await` is next -/
  | called (i d : ℕ)
  /-- the `co_await` is over, and the end of its statement next -/
  | resumed (i d : ℕ) (o : Outcome Val)
  /-- in `WriteOne` -/
  | one (l : I)
  deriving DecidableEq

/-- `Writer::Write(repeat)`, around a `WriteOne` that begins at `entry`. -/
def code {I : Type} (entry : ℕ → I) (one : I → Op (Loc I) Counters ConnOp Val) (times : ℕ) :
    Loc I → Op (Loc I) Counters ConnOp Val
  | .write i =>
    if i < times then .call false true (.one (entry i)) fun d => .called i d else .ret (.ok none)
  | .called i d => .await d fun o => .resumed i d o
  | .resumed i d (.ok _) => .destroy d (.write (i + 1))
  | .resumed _ _ (.error e) => .ret (.error e)
  | .one l => one l

end Writer

namespace Batch

open Writer

/-- `batch_size`. -/
def batchSize : ℕ := 8

/-- The locations of the pipelined `WriteOne`: round `r`, region `g` and page `i`,
with the handles in `futs`. -/
inductive Loc
  /-- the tests of the loops over regions, over pages, and of `futs.size()` -/
  | page (r g i : ℕ) (futs : List ℕ)
  /-- the front of `futs` has been awaited -/
  | front (r g i : ℕ) (futs : List ℕ) (o : Outcome Val)
  /-- `futs.pop_front()` -/
  | pop (r g i : ℕ) (futs : List ℕ)
  /-- the write is made, and its `Future` is next -/
  | made (r g i : ℕ) (futs : List ℕ) (d : ℕ)
  /-- it is in `futs`, and `++sent` is next -/
  | queued (r g i : ℕ) (futs : List ℕ) (d : ℕ)
  /-- the loop over what is left in `futs` -/
  | drain (r : ℕ) (futs : List ℕ)
  /-- one of these has been awaited -/
  | drained (r : ℕ) (futs : List ℕ) (o : Outcome Val)
  deriving DecidableEq

/-- The round a location belongs to. -/
def Loc.round : Loc → ℕ
  | page r .. | front r .. | pop r .. | made r .. | queued r .. | drain r .. | drained r .. => r

/-- `Writer::WriteOne` of the `batch` example. -/
def writeOne (w : Writer) : Loc → Op (Writer.Loc Loc) Counters ConnOp Val
  | .page r g i futs =>
    match w.peerRegions[g]? with
    | none => .step fun m => (m, .one (.drain r futs))
    | some region =>
      if i < w.numPages then
        if batchSize ≤ futs.length then .await (futs.headD 0) fun o => .one (.front r g i futs o)
        else .io (w.page region i) fun d => .one (.made r g i futs d)
      else .step fun m => (m, .one (.page r (g + 1) 0 futs))
  | .front r g i futs (.ok _) => .step fun m => (m.countOp, .one (.pop r g i futs))
  | .front _ _ _ _ (.error e) => .ret (.error e)
  | .pop r g i futs => .destroy (futs.headD 0) (.one (.page r g i futs.tail))
  | .made r g i futs d => .future d (.one (.queued r g i futs d))
  | .queued r g i futs d =>
    .step fun m => (m.countSent.note ⟨r, g, i, d⟩, .one (.page r g (i + 1) (futs ++ [d])))
  | .drain _ [] => .ret (.ok none)
  | .drain r (fut :: futs) => .await fut fun o => .one (.drained r futs o)
  | .drained r futs (.ok _) => .step fun m => (m.countOp, .one (.drain r futs))
  | .drained _ _ (.error e) => .ret (.error e)

/-- `Writer::Write` of the `batch` example. -/
def code (w : Writer) (times : ℕ) : Writer.Loc Loc → Op (Writer.Loc Loc) Counters ConnOp Val :=
  Writer.code (fun r => .page r 0 0 []) (writeOne w) times

end Batch

namespace Sequential

open Writer

/-- The locations of the `WriteOne` that awaits every write: round `r`, region
`g` and page `i`. -/
inductive Loc
  /-- the tests of the loops over regions and over pages -/
  | page (r g i : ℕ)
  /-- `++sent` is done, and the write is next -/
  | sent (r g i : ℕ) (region : CUDARegion)
  /-- the write is made, and noted next -/
  | made (r g i d : ℕ)
  /-- its `co_await` is next -/
  | called (r g i d : ℕ)
  /-- the `co_await` is over, and the end of its statement next -/
  | resumed (r g i d : ℕ) (o : Outcome Val)
  /-- `++ops` -/
  | counted (r g i : ℕ)
  deriving DecidableEq

/-- The round a location belongs to. -/
def Loc.round : Loc → ℕ
  | page r .. | sent r .. | made r .. | called r .. | resumed r .. | counted r .. => r

/-- `Writer::WriteOne` of the `dmabuf` and `affinity` examples. -/
def writeOne (w : Writer) : Loc → Op (Writer.Loc Loc) Counters ConnOp Val
  | .page r g i =>
    match w.peerRegions[g]? with
    | none => .ret (.ok none)
    | some region =>
      if i < w.numPages then .step fun m => (m.countSent, .one (.sent r g i region))
      else .step fun m => (m, .one (.page r (g + 1) 0))
  | .sent r g i region => .io (w.page region i) fun d => .one (.made r g i d)
  | .made r g i d => .step fun m => (m.note ⟨r, g, i, d⟩, .one (.called r g i d))
  | .called r g i d => .await d fun o => .one (.resumed r g i d o)
  | .resumed r g i d (.ok _) => .destroy d (.one (.counted r g i))
  | .resumed _ _ _ _ (.error e) => .ret (.error e)
  | .counted r g i => .step fun m => (m.countOp, .one (.page r g (i + 1)))

/-- `Writer::Write` of the `dmabuf` and `affinity` examples. -/
def code (w : Writer) (times : ℕ) : Writer.Loc Loc → Op (Writer.Loc Loc) Counters ConnOp Val :=
  Writer.code (fun r => .page r 0 0) (writeOne w) times

end Sequential

end EfaExamples
