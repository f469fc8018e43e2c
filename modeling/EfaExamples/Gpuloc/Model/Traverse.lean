import EfaExamples.Gpuloc.Model.Hwloc
/-!
# `Hwloc::Traverse`

The walk over the topology that fills the vector of `Numanode`s. Everything is
filed in the last element. There may be none, and there may be no bridge to
file a device under; where the source then goes on undefined, or stops in an
assertion, the walk ends here with `Undefined`.
-/

namespace EfaExamples

/-- What the walk must not come to. -/
inductive Undefined
  /-- `back()` of an empty vector -/
  | backOfEmpty
  /-- `assert(!!bridge)` fails -/
  | nullBridge
  deriving DecidableEq, Repr

namespace Numanode

/-- `Numanode{}`. -/
def empty : Numanode := { numanode := none, cores := [], bridge := [] }

/-- `numa.bridge.emplace(l, pci_type{})`, which keeps a bridge the map has. -/
def emplaceBridge (l : Obj) (numa : Numanode) : Numanode :=
  if l ∈ numa.bridge.map Prod.fst then numa else { numa with bridge := numa.bridge ++ [(l, [])] }

/-- `numa.cores.emplace(l)`. -/
def emplaceCore (l : Obj) (numa : Numanode) : Numanode :=
  if l ∈ numa.cores then numa else { numa with cores := numa.cores ++ [l] }

/-- `numa.bridge[bridge].emplace(l)`, whose `[]` inserts a bridge the map does not have. -/
def emplacePCI (bridge l : Obj) (numa : Numanode) : Numanode :=
  let numa := numa.emplaceBridge bridge
  { numa with bridge := numa.bridge.map fun b =>
      if b.1 = bridge then (b.1, if l ∈ b.2 then b.2 else b.2 ++ [l]) else b }

end Numanode

/-- `auto &numa = numanodes.back()`, and what is done to it. -/
def atBack (f : Numanode → Numanode) (numanodes : List Numanode) :
    Except Undefined (List Numanode) :=
  match numanodes.getLast? with
  | none => .error .backOfEmpty
  | some numa => .ok (numanodes.dropLast ++ [f numa])

/-- What `Traverse` does at `l` itself. -/
def file (l : Obj) (bridge : Option Obj) (numanodes : List Numanode) :
    Except Undefined (List Numanode) :=
  if l.isPackage then .ok (numanodes ++ [.empty])
  else if l.isNumaNode then atBack (fun numa => { numa with numanode := some l }) numanodes
  else if l.isHostBridge then atBack (·.emplaceBridge l) numanodes
  else if l.isCore then atBack (·.emplaceCore l) numanodes
  else if l.isPCI then
    match bridge with
    | none => .error .nullBridge
    | some b => atBack (·.emplacePCI b l) numanodes
  else .ok numanodes

/-- The bridge the children of `l` are visited with. -/
def bridgeBelow (l : Obj) (bridge : Option Obj) : Option Obj :=
  if l.isHostBridge then some l else bridge

mutual

/-- `Hwloc::Traverse`. -/
def traverse : Obj → Option Obj → List Numanode → Except Undefined (List Numanode)
  | .mk d memory normal io misc, bridge, numanodes => do
    let numanodes ← file (.mk d memory normal io misc) bridge numanodes
    let bridge := bridgeBelow (.mk d memory normal io misc) bridge
    let numanodes ← traverseAll true memory bridge numanodes
    let numanodes ← traverseAll true normal bridge numanodes
    let numanodes ← traverseAll false io bridge numanodes
    traverseAll false misc bridge numanodes

/-- The loop of `Traverse` over the children of one kind; PUs are passed over
among the memory and the normal children. -/
def traverseAll (skipPU : Bool) :
    List Obj → Option Obj → List Numanode → Except Undefined (List Numanode)
  | [], _, numanodes => .ok numanodes
  | .mk d memory normal io misc :: rest, bridge, numanodes => do
    let numanodes ←
      if skipPU && d.type == .pu then .ok numanodes
      else traverse (.mk d memory normal io misc) bridge numanodes
    traverseAll skipPU rest bridge numanodes

end

end EfaExamples
