import Mathlib.Data.List.Sort
import EfaExamples.Common.Thrown
import EfaExamples.Gpuloc.Model.Hwloc
/-!
# Class `GPUloc`

`gpuloc.h`: the affinity of every GPU, in the order of the NVML indices. An
`fi_info` goes by its place in the list `fi_getinfo` returned.
-/

namespace EfaExamples

/-- `GPUloc::pci_type`: domain, bus, device and function. -/
structure PciAddress where
  domain : ℕ
  bus : ℕ
  device : ℕ
  function : ℕ
  deriving DecidableEq, Repr

/-- The address under which a PCI device is looked up. -/
def Obj.pciAddress (l : Obj) : PciAddress :=
  { domain := l.pcidev.domain
    bus := l.pcidev.bus
    device := l.pcidev.dev
    function := l.pcidev.func }

/-- `fi_bus_attr`: whether `bus_type` is `FI_BUS_PCI`, and the address. -/
structure BusAttr where
  isPci : Bool
  pci : PciAddress
  deriving DecidableEq, Repr

/-- `fid_nic`. -/
structure Nic where
  busAttr : Option BusAttr
  deriving DecidableEq, Repr

/-- `fi_info`. -/
structure FiInfo where
  nic : Option Nic
  deriving DecidableEq, Repr

/-- `GPUloc::pci_info_map_type`. -/
abbrev PciInfoMap := PciAddress → Option ℕ

/-- `map::emplace`, which keeps the value of a key the map has. -/
def PciInfoMap.emplace (key : PciAddress) (p : ℕ) (m : PciInfoMap) : PciInfoMap :=
  fun a => if a = key then (m a).or (some p) else m a

/-- `map::at`. -/
def PciInfoMap.at (m : PciInfoMap) (key : PciAddress) : Except Thrown ℕ :=
  match m key with
  | some p => .ok p
  | none => .error (.outOfRange "map::at")

/-- The two assertions on an `fi_info`, and the address it has if they hold. -/
def FiInfo.pciAddress (p : FiInfo) : Except Thrown PciAddress :=
  match p.nic with
  | none => .error (.runtimeError "!!nic assertion fail.")
  | some nic =>
    match nic.busAttr with
    | some ⟨true, pci⟩ => .ok pci
    | _ => .error (.runtimeError
        "nic->bus_attr and nic->bus_attr->bus_type == FI_BUS_PCI assertion fail.")

/-- The loop of `GetPCIInfoMap`, at the `fi_info` in place `k`. -/
def getPCIInfoMapFrom : ℕ → List FiInfo → PciInfoMap → Except Thrown PciInfoMap
  | _, [], m => .ok m
  | k, p :: rest, m => do
    let pcidev ← p.pciAddress
    getPCIInfoMapFrom (k + 1) rest (m.emplace pcidev k)

/-- `GPUloc::GetPCIInfoMap`, of the list `EFA::GetEFAInfo` returns. -/
def getPCIInfoMap (infos : List FiInfo) : Except Thrown PciInfoMap :=
  getPCIInfoMapFrom 0 infos fun _ => none

/-- `GPUloc::GetFiInfo`. -/
def getFiInfo (pci : Obj) (m : PciInfoMap) : Except Thrown ℕ := m.at pci.pciAddress

/-- `GPUAffinity`. -/
structure GPUAffinity where
  gpu : Obj
  numanode : Option Obj
  cores : List Obj
  efas : List (Obj × ℕ)

/-- `nvmlPciInfo_t`. -/
structure NvmlPciInfo where
  domain : ℕ
  bus : ℕ
  device : ℕ
  deriving DecidableEq, Repr

/-- The calls to NVML, each of which gives its out-parameter or fails with the
text of `nvmlErrorString`. -/
structure Nvml where
  deviceGetCount : Except String ℕ
  deviceGetHandleByIndex : ℕ → Except String ℕ
  deviceGetPciInfo : ℕ → Except String NvmlPciInfo

/-- What the standard library leaves open: the order in which an iteration
meets the elements of `gpuloc`, and how `std::sort` orders cores with one
logical index. -/
structure Unspecified where
  iterate : List GPUAffinity → List GPUAffinity
  iterate_perm : ∀ l, (iterate l).Perm l
  sort : List Obj → List Obj
  sort_perm : ∀ l, (sort l).Perm l
  sort_sorted : ∀ l, (sort l).Pairwise fun x y => x.logicalIndex ≤ y.logicalIndex

/-- The loop over the devices of a bridge: its GPUs and its EFA devices. -/
def classify (m : PciInfoMap) : List Obj → Except Thrown (List Obj × List (Obj × ℕ))
  | [] => .ok ([], [])
  | pci :: rest => do
    if pci.isGPU then
      let r ← classify m rest
      return (pci :: r.1, r.2)
    else if pci.isEFA then
      let info ← getFiInfo pci m
      let r ← classify m rest
      return (r.1, (pci, info) :: r.2)
    else
      classify m rest

/-- `gpuloc[gpu] = loc`, in the map from each GPU to its affinity. -/
def assign (loc : GPUAffinity) (gpuloc : List GPUAffinity) : List GPUAffinity :=
  if gpuloc.any (·.gpu == loc.gpu) then
    gpuloc.map fun l => if l.gpu = loc.gpu then loc else l
  else gpuloc ++ [loc]

/-- The body of the loop over the bridges of a node. -/
def locateBridge (lib : Unspecified) (m : PciInfoMap) (numa : Numanode)
    (gpuloc : List GPUAffinity) (bridge : Obj × List Obj) : Except Thrown (List GPUAffinity) := do
  let r ← classify m bridge.2
  let cores := lib.sort numa.cores
  return r.1.foldl (fun gpuloc gpu => assign ⟨gpu, numa.numanode, cores, r.2⟩ gpuloc) gpuloc

/-- The loops over the nodes and their bridges. -/
def locate (lib : Unspecified) (m : PciInfoMap) (nodes : List Numanode) :
    Except Thrown (List GPUAffinity) :=
  nodes.foldlM (fun gpuloc numa => numa.bridge.foldlM (locateBridge lib m numa) gpuloc) []

/-- The GPU is the device NVML speaks of. -/
def Obj.is (gpu : Obj) (pci : NvmlPciInfo) : Bool :=
  gpu.pcidev.domain == pci.domain && gpu.pcidev.bus == pci.bus && gpu.pcidev.dev == pci.device &&
    gpu.pcidev.func == 0

/-- What NVML says of the device of an index. -/
def Nvml.pciInfo (nvml : Nvml) (i : ℕ) : Except Thrown NvmlPciInfo := do
  let device ← nvmlCheck "nvmlDeviceGetHandleByIndex(i, &device)" (nvml.deviceGetHandleByIndex i)
  nvmlCheck "nvmlDeviceGetPciInfo(device, &pci)" (nvml.deviceGetPciInfo device)

/-- The loop over the NVML indices. -/
def indexed (nvml : Nvml) (gpuloc : List GPUAffinity) : List ℕ → Except Thrown (List GPUAffinity)
  | [] => .ok []
  | i :: is => do
    let pci ← nvml.pciInfo i
    let affinity ← indexed nvml gpuloc is
    return gpuloc.filter (·.gpu.is pci) ++ affinity

/-- `GPUloc::GetAffinity`. -/
def getAffinity (lib : Unspecified) (nodes : List Numanode) (m : PciInfoMap) (nvml : Nvml) :
    Except Thrown (List GPUAffinity) := do
  let gpuloc ← locate lib m nodes
  let count ← nvmlCheck "nvmlDeviceGetCount(&count)" nvml.deviceGetCount
  assertion "count == gpuloc.size()" (count = gpuloc.length)
  let affinity ← indexed nvml (lib.iterate gpuloc) (List.range count)
  assertion "gpuloc.size() == affinity.size()" (gpuloc.length = affinity.length)
  return affinity

end EfaExamples
