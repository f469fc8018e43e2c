import EfaExamples.Gpuloc.Model.Affinity
/-!
# The earlier versions of `GPUloc`

`gpuloc.h` of the `gpuloc` and `nvml` examples. Neither looks for the `fi_info`
of an EFA device: the first returns the map of the GPUs, the second the vector
by NVML index. And what each writes to `std::cout`, which is all its `main` does.
-/

namespace EfaExamples

namespace Bare

/-- `GPUAffinity`, of which `efas` holds objects alone. -/
structure GPUAffinity where
  gpu : Obj
  numanode : Option Obj
  cores : List Obj
  efas : List Obj
  deriving DecidableEq

/-- What the standard library leaves open, as for the later version. -/
structure Unspecified where
  iterate : List GPUAffinity → List GPUAffinity
  iterate_perm : ∀ l, (iterate l).Perm l
  sort : List Obj → List Obj
  sort_perm : ∀ l, (sort l).Perm l
  sort_sorted : ∀ l, (sort l).Pairwise fun x y => x.logicalIndex ≤ y.logicalIndex

/-- The loop over the devices of a bridge. -/
def classify : List Obj → List Obj × List Obj
  | [] => ([], [])
  | pci :: rest =>
    let r := classify rest
    if pci.isGPU then (pci :: r.1, r.2)
    else if pci.isEFA then (r.1, pci :: r.2)
    else r

/-- `affinity[gpu] = loc`. -/
def assign (loc : GPUAffinity) (affinity : List GPUAffinity) : List GPUAffinity :=
  if affinity.any (·.gpu == loc.gpu) then
    affinity.map fun l => if l.gpu = loc.gpu then loc else l
  else affinity ++ [loc]

/-- The body of the loop over the bridges of a node. -/
def locateBridge (lib : Unspecified) (numa : Numanode) (affinity : List GPUAffinity)
    (bridge : Obj × List Obj) : List GPUAffinity :=
  let r := classify bridge.2
  let cores := lib.sort numa.cores
  r.1.foldl (fun affinity gpu => assign ⟨gpu, numa.numanode, cores, r.2⟩ affinity) affinity

/-- `GPUloc::GetAffinity` of the `gpuloc` example. -/
def locate (lib : Unspecified) (nodes : List Numanode) : List GPUAffinity :=
  nodes.foldl (fun affinity numa => numa.bridge.foldl (locateBridge lib numa) affinity) []

/-- The loop over the NVML indices. -/
def indexed (nvml : Nvml) (gpuloc : List GPUAffinity) : List ℕ → Except Thrown (List GPUAffinity)
  | [] => .ok []
  | i :: is => do
    let pci ← nvml.pciInfo i
    let affinity ← indexed nvml gpuloc is
    return gpuloc.filter (·.gpu.is pci) ++ affinity

/-- `GPUloc::GetAffinity` of the `nvml` example. -/
def getAffinity (lib : Unspecified) (nodes : List Numanode) (nvml : Nvml) :
    Except Thrown (List GPUAffinity) := do
  let gpuloc := locate lib nodes
  let count ← nvmlCheck "nvmlDeviceGetCount(&count)" nvml.deviceGetCount
  assertion "count == gpuloc.size()" (count = gpuloc.length)
  let affinity ← indexed nvml (lib.iterate gpuloc) (List.range count)
  assertion "gpuloc.size() == affinity.size()" (gpuloc.length = affinity.length)
  return affinity

/-! ## What is printed -/

/-- `{:02x}:{:02x}.{:01x}` of the bus, the device and the function. -/
def pciText (l : Obj) : String :=
  let hex := fun width n => String.ofList ((Nat.toDigits 16 n).leftpad width '0')
  hex 2 l.pcidev.bus ++ ":" ++ hex 2 l.pcidev.dev ++ "." ++ hex 1 l.pcidev.func

/-- `{:>2}` of a logical index. -/
def coreText (l : Obj) : String :=
  String.ofList ((Nat.toDigits 10 l.logicalIndex).leftpad 2 ' ')

/-- The body of the loop of `operator<<`. `none` where the code follows the null pointer of a
missing NUMA node, or takes `front()` of an empty vector. -/
def printEntry (head : String) (loc : GPUAffinity) : Option String := do
  let numanode ← loc.numanode
  let front ← loc.cores.head?
  let back ← loc.cores.getLast?
  let efas := loc.efas.map fun efa => "  EFA (" ++ pciText efa ++ ")\n"
  return head ++ " (" ++ pciText loc.gpu ++ ") NUMA" ++ toString numanode.logicalIndex ++
    " Core" ++ coreText front ++ "-Core" ++ coreText back ++ "\n" ++ String.join efas

/-- `operator<<` of the `gpuloc` example, of the map. -/
def printMap (lib : Unspecified) (affinity : List GPUAffinity) : Option String :=
  ((lib.iterate affinity).mapM (printEntry "GPU")).map String.join

/-- `operator<<` of the `nvml` example, of the vector. -/
def printVector (affinity : List GPUAffinity) : Option String :=
  (affinity.zipIdx.mapM fun e => printEntry ("GPU(" ++ toString e.2 ++ ")") e.1).map String.join

end Bare

end EfaExamples
