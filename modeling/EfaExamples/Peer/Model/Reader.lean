import EfaExamples.Efa.Model.Conn
/-!
# Class `Reader`

`Reader::Read` of `main.cc`, the same in the `batch`, `dmabuf` and `affinity`
examples. A location carries the loop's counter and the handle of the `Read`
it awaits.
-/

namespace EfaExamples

/-- `kImmData`. -/
def kImmData : ℕ := 0x123

/-- The entry is of a remote write that carries `kImmData`. -/
def Entry.isNotification (e : Entry) : Bool := e.flags.remoteWrite && e.immData == kImmData

/-- The notifications taken from the completion queues. -/
def Fabric.notified (f : Fabric) : ℕ := f.history.taken.countP Entry.isNotification

namespace Reader

/-- The locations of `Reader::Read`. -/
inductive Loc
  /-- the test of the loop -/
  | read (i : ℕ)
  /-- the `Read` is made, and its `co_await` is next -/
  | called (i h : ℕ)
  /-- the `co_await` is over, and the end of its statement next -/
  | resumed (i h : ℕ) (o : Outcome Val)
  deriving DecidableEq

/-- `Reader::Read(repeat)`. -/
def code (conn : Conn) (times : ℕ) : Loc → Op Loc Unit ConnOp Val
  | .read i =>
    if i < times then .io (.read conn kImmData) fun h => .called i h else .ret (.ok none)
  | .called i h => .await h fun o => .resumed i h o
  | .resumed i h (.ok _) => .destroy h (.read (i + 1))
  | .resumed _ _ (.error e) => .ret (.error e)

end Reader

end EfaExamples
