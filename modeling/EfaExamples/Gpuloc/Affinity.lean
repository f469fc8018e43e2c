import Mathlib.Data.List.Perm.Subperm
import EfaExamples.Common.Matching
import EfaExamples.Gpuloc.Table
/-!
# The affinity of every GPU

`GetAffinity` compares two sizes and nothing else. That is enough: an address
is one device's, so no NVML index finds two GPUs, and as many entries as
indices leave no index without one and no GPU out.
-/

namespace EfaExamples

variable {infos : List FiInfo} {m : PciInfoMap} {lib : Unspecified}
variable {nodes : List Numanode} {nvml : Nvml}

/-! ## The map of the `fi_info` -/

/-- `p` is the first `fi_info` with the address. -/
def FirstInfo (infos : List FiInfo) (a : PciAddress) (p : ℕ) : Prop :=
  infos.findIdx? (fun i => i.pciAddress = .ok a) = some p

/-- What the loop adds: every address it has not met before. -/
theorem getPCIInfoMapFrom_eq {k : ℕ} {m' : PciInfoMap}
    (h : getPCIInfoMapFrom k infos m = .ok m') (a : PciAddress) :
    m' a = (m a).or ((infos.findIdx? fun i => i.pciAddress = .ok a).map (· + k)) := by
  induction infos generalizing k m with
  | nil =>
    simp only [getPCIInfoMapFrom, Except.ok.injEq] at h
    simp [h]
  | cons i infos ih =>
    obtain ⟨b, hb, h⟩ := bind_eq_ok.mp h
    rw [ih h, PciInfoMap.emplace, List.findIdx?_cons]
    by_cases hab : a = b
    · subst hab
      cases hm : m a with
      | none => simp [hb]
      | some p => simp
    · have hne : ¬ i.pciAddress = .ok a := fun he => hab (by simpa [hb] using he.symm)
      have hshift : (fun q : ℕ => q + (k + 1)) = fun q => q + 1 + k := by
        funext q
        omega
      simp only [if_neg hab, hne, decide_false, Bool.false_eq_true, if_false, Option.map_map,
        hshift]
      rfl

/-- **The first insertion wins.** -/
theorem getPCIInfoMap_eq (h : getPCIInfoMap infos = .ok m) (a : PciAddress) :
    m a = infos.findIdx? fun i => i.pciAddress = .ok a := by
  rw [getPCIInfoMapFrom_eq h a]
  simp

/-! ## The map of the GPUs -/

/-- What the entry of a GPU is to say: the node the GPU is listed under, all
its cores in order, and the EFA devices of the GPU's bridge with the first
`fi_info` of each. -/
structure GPUAffinity.Describes (infos : List FiInfo) (s : Numanode × Obj × List Obj)
    (loc : GPUAffinity) : Prop where
  gpu : loc.gpu ∈ s.2.2 ∧ loc.gpu.isGPU = true
  numanode : loc.numanode = s.1.numanode
  cores : loc.cores.Perm s.1.cores ∧
    loc.cores.Pairwise fun x y => x.logicalIndex ≤ y.logicalIndex
  efas : loc.efas.map Prod.fst = s.2.2.filter (·.listedEFA)
  infos : ∀ e ∈ loc.efas, FirstInfo infos e.1.pciAddress e.2

/-- What the map holds when the loops have passed over some devices: the GPUs
among them, with what their entries are to say. Every EFA device among them
has been found an `fi_info`. -/
structure Located (infos : List FiInfo) (nodes : List Numanode) (passed : List Obj)
    (gpuloc : List GPUAffinity) : Prop where
  gpus : gpuloc.map (·.gpu) = passed.filter (·.isGPU)
  describes : ∀ loc ∈ gpuloc, ∃ s ∈ sites nodes, loc.Describes infos s
  paired : ∀ d ∈ passed, d.listedEFA = true → ∃ p, FirstInfo infos d.pciAddress p

/-- **What the loops over the nodes and their bridges leave.** -/
theorem located {gpuloc : List GPUAffinity} (hm : getPCIInfoMap infos = .ok m)
    (hn : (devices nodes).Nodup) (h : locate lib m nodes = .ok gpuloc) :
    Located infos nodes (devices nodes) gpuloc := by
  rw [locate_eq_ite hn] at h
  split at h
  next hp =>
    obtain rfl := Except.ok.inj h
    -- an EFA device has the first `fi_info` of its address
    have hinfo : ∀ d ∈ devices nodes, d.listedEFA = true →
        FirstInfo infos d.pciAddress ((m d.pciAddress).getD 0) := by
      intro d hd hefa
      obtain ⟨p, hp⟩ := Option.isSome_iff_exists.mp (hp d hd hefa)
      rw [FirstInfo, ← getPCIInfoMap_eq hm, hp]
      rfl
    refine ⟨map_gpu_entries lib m nodes, fun loc hloc => ?_, fun d hd hefa => ⟨_, hinfo d hd hefa⟩⟩
    obtain ⟨s, hs, gpu, hgpu, his, rfl⟩ := mem_entries.mp hloc
    refine ⟨s, hs, ⟨hgpu, his⟩, rfl, ⟨lib.sort_perm _, lib.sort_sorted _⟩, map_fst_efasOf, ?_⟩
    intro e he
    obtain ⟨d, hd, rfl⟩ := List.mem_map.mp he
    obtain ⟨hd, hefa⟩ := List.mem_filter.mp hd
    exact hinfo d (List.mem_flatMap.mpr ⟨s, hs, hd⟩) hefa
  next => cases h

/-! ## The indices -/

/-- No two indices are one device. -/
def Nvml.Distinct (nvml : Nvml) : Prop :=
  ∀ count, nvml.deviceGetCount = .ok count → ∀ i < count, ∀ j < count, ∀ pci,
    nvml.pciInfo i = .ok pci → nvml.pciInfo j = .ok pci → i = j

/-- The loop collects what it finds for each index. -/
theorem indexed_eq {gpuloc affinity : List GPUAffinity} {is : List ℕ}
    (h : indexed nvml gpuloc is = .ok affinity) :
    ∃ pcis : List NvmlPciInfo, List.Forall₂ (fun i pci => nvml.pciInfo i = .ok pci) is pcis ∧
      affinity = pcis.flatMap fun pci => gpuloc.filter (·.gpu.is pci) := by
  rw [indexed_eq_map] at h
  cases hpcis : is.mapM nvml.pciInfo with
  | error e =>
    rw [hpcis] at h
    cases h
  | ok pcis =>
    rw [hpcis] at h
    exact ⟨pcis, mapM_eq_ok.mp hpcis, (Except.ok.inj h).symm⟩

/-- The address of the GPU that NVML speaks of. -/
def NvmlPciInfo.pciAddress (pci : NvmlPciInfo) : PciAddress :=
  { domain := pci.domain
    bus := pci.bus
    device := pci.device
    function := 0 }

theorem Obj.is_iff {gpu : Obj} {pci : NvmlPciInfo} :
    gpu.is pci = true ↔ gpu.pciAddress = pci.pciAddress := by
  simp [Obj.is, Obj.pciAddress, NvmlPciInfo.pciAddress, and_assoc]

/-- **One entry an index, one index a GPU.** -/
structure Matched (nodes : List Numanode) (nvml : Nvml) (affinity : List GPUAffinity) : Prop where
  count : nvml.deviceGetCount = .ok affinity.length
  device : ∀ i (hi : i < affinity.length), ∃ pci, nvml.pciInfo i = .ok pci ∧
    (affinity[i].gpu.is pci) = true
  gpus : (affinity.map (·.gpu)).Perm ((devices nodes).filter (·.isGPU))

/-- The GPU has the domain, bus and device that NVML reports. -/
def Obj.SameDevice (gpu : Obj) (pci : NvmlPciInfo) : Prop :=
  gpu.pcidev.domain = pci.domain ∧ gpu.pcidev.bus = pci.bus ∧ gpu.pcidev.dev = pci.device

instance (gpu : Obj) (pci : NvmlPciInfo) : Decidable (gpu.SameDevice pci) :=
  inferInstanceAs (Decidable (_ ∧ _))

theorem Obj.sameDevice_of_is {gpu : Obj} {pci : NvmlPciInfo} (h : gpu.is pci = true) :
    gpu.SameDevice pci := by
  simp only [Obj.is, Bool.and_eq_true, beq_iff_eq] at h
  exact ⟨h.1.1.1, h.1.1.2, h.1.2⟩

/-- Two devices NVML reports with the domain, bus and device of one GPU are one. -/
theorem Obj.SameDevice.eq {gpu : Obj} {p q : NvmlPciInfo} (hp : gpu.SameDevice p)
    (hq : gpu.SameDevice q) : p = q := by
  obtain ⟨hd, hb, hv⟩ := hp
  obtain ⟨hd', hb', hv'⟩ := hq
  cases p
  cases q
  simp_all

/-- What is known once both sizes have been compared. -/
theorem getAffinity_cases {affinity : List GPUAffinity}
    (h : getAffinity lib nodes m nvml = .ok affinity) :
    ∃ gpuloc pcis, locate lib m nodes = .ok gpuloc ∧ nvml.deviceGetCount = .ok gpuloc.length ∧
      List.Forall₂ (fun i pci => nvml.pciInfo i = .ok pci) (List.range gpuloc.length) pcis ∧
      affinity = pcis.flatMap (fun pci => (lib.iterate gpuloc).filter (·.gpu.is pci)) ∧
      gpuloc.length = affinity.length := by
  obtain ⟨gpuloc, hloc, h⟩ := bind_eq_ok.mp h
  obtain ⟨count, hcount, h⟩ := bind_eq_ok.mp h
  obtain ⟨_, hsize, h⟩ := bind_eq_ok.mp h
  obtain ⟨found, hfound, h⟩ := bind_eq_ok.mp h
  obtain ⟨_, hsizes, h⟩ := bind_eq_ok.mp h
  obtain rfl : found = affinity := Except.ok.inj h
  obtain rfl := assertion_eq_ok.mp hsize
  obtain ⟨pcis, hpcis, haff⟩ := indexed_eq hfound
  exact ⟨gpuloc, pcis, hloc, nvmlCheck_eq_ok.mp hcount, hpcis, haff, assertion_eq_ok.mp hsizes⟩

/-- **The two sizes are enough.** -/
theorem matched {affinity : List GPUAffinity} (hm : getPCIInfoMap infos = .ok m)
    (hpci : ((devices nodes).map Obj.pciAddress).Nodup) (hnvml : nvml.Distinct)
    (h : getAffinity lib nodes m nvml = .ok affinity) :
    Matched nodes nvml affinity ∧
      (∀ loc ∈ affinity, ∃ s ∈ sites nodes, loc.Describes infos s) ∧
      ∀ d ∈ devices nodes, d.listedEFA = true → ∃ p, FirstInfo infos d.pciAddress p := by
  obtain ⟨gpuloc, pcis, hloc, hcount, hpcis, haff, hsize⟩ := getAffinity_cases h
  have hl := located hm hpci.of_map hloc
  -- an address is one GPU's, so an index finds at most one
  have haddr : ((lib.iterate gpuloc).map fun loc => loc.gpu.pciAddress).Nodup := by
    have hperm := (lib.iterate_perm gpuloc).map fun loc => loc.gpu.pciAddress
    have hgpus := congrArg (List.map Obj.pciAddress) hl.gpus
    rw [List.map_map] at hgpus
    refine hperm.nodup_iff.mpr ?_
    rw [show (fun loc : GPUAffinity => loc.gpu.pciAddress) = Obj.pciAddress ∘ (·.gpu) from rfl,
      hgpus]
    exact hpci.sublist (List.filter_sublist.map _)
  have hone : ∀ pci ∈ pcis, ((lib.iterate gpuloc).filter (·.gpu.is pci)).length ≤ 1 :=
    fun pci _ => length_filter_le_one haddr fun _ hp => Obj.is_iff.mp hp
  have hlen : pcis.length = affinity.length := by
    rw [← hpcis.length_eq, List.length_range, hsize]
  have hfound := forall₂_flatMap hone (by rw [← haff, hlen])
  rw [← haff] at hfound
  have hmem : ∀ pci loc, (lib.iterate gpuloc).filter (·.gpu.is pci) = [loc] →
      loc ∈ gpuloc ∧ loc.gpu.is pci = true := by
    intro pci loc hf
    have hin := List.mem_filter.mp (hf ▸ List.mem_singleton_self loc)
    exact ⟨(lib.iterate_perm gpuloc).mem_iff.mp hin.1, hin.2⟩
  have hdevice : ∀ i (hi : i < affinity.length), ∃ pci, nvml.pciInfo i = .ok pci ∧
      affinity[i] ∈ gpuloc ∧ affinity[i].gpu.is pci = true := by
    intro i hi
    have hp := hpcis.get (i := i) (by simpa [hsize] using hi) (hlen ▸ hi)
    exact ⟨pcis[i], by simpa using hp, hmem _ _ (hfound.get (hlen ▸ hi) hi)⟩
  -- an index is one device's, so no GPU is found twice
  have hnodup : (affinity.map (·.gpu)).Nodup := by
    refine List.nodup_iff_injective_get.mpr fun i j hij => ?_
    have hi : i.1 < affinity.length := by simpa using i.isLt
    have hj : j.1 < affinity.length := by simpa using j.isLt
    obtain ⟨p, hp, -, hip⟩ := hdevice i hi
    obtain ⟨q, hq, -, hjq⟩ := hdevice j hj
    have hpq : p = q := by
      have hgpu : affinity[i].gpu = affinity[j].gpu := by simpa using hij
      exact (Obj.sameDevice_of_is hip).eq (hgpu ▸ Obj.sameDevice_of_is hjq)
    subst hpq
    rw [hsize] at hcount
    exact Fin.ext (hnvml _ hcount i hi j hj p hp hq)
  have hall : ∀ loc ∈ affinity, loc ∈ gpuloc := by
    intro loc hloc
    obtain ⟨i, hi, rfl⟩ := List.getElem_of_mem hloc
    obtain ⟨-, -, hin, -⟩ := hdevice i hi
    exact hin
  refine ⟨⟨hsize ▸ hcount, fun i hi => ?_, ?_⟩, fun loc hloc => hl.describes loc (hall loc hloc),
    hl.paired⟩
  · obtain ⟨pci, hp, -, his⟩ := hdevice i hi
    exact ⟨pci, hp, his⟩
  · rw [← hl.gpus]
    have hsub : affinity.map (·.gpu) ⊆ gpuloc.map (·.gpu) := List.map_subset _ hall
    exact (hnodup.subperm hsub).perm_of_length_le (by simp [hsize])

/-- Every GPU is the GPU of exactly one index. -/
theorem Matched.existsUnique {affinity : List GPUAffinity} {gpu : Obj}
    (hm : Matched nodes nvml affinity) (hn : (devices nodes).Nodup) (hgpu : gpu ∈ devices nodes)
    (his : gpu.isGPU = true) : ∃! i, ∃ hi : i < affinity.length, affinity[i].gpu = gpu := by
  have hmem : gpu ∈ affinity.map (·.gpu) :=
    hm.gpus.mem_iff.mpr (List.mem_filter.mpr ⟨hgpu, his⟩)
  obtain ⟨i, hi, he⟩ := List.getElem_of_mem hmem
  rw [List.getElem_map] at he
  rw [List.length_map] at hi
  refine ⟨i, ⟨hi, he⟩, ?_⟩
  rintro j ⟨hj, he'⟩
  have hnodup : (affinity.map (·.gpu)).Nodup := hm.gpus.nodup_iff.mpr (hn.filter _)
  have hi' : i < (affinity.map (·.gpu)).length := by simpa using hi
  have hj' : j < (affinity.map (·.gpu)).length := by simpa using hj
  have heq : (affinity.map (·.gpu))[j] = (affinity.map (·.gpu))[i] := by
    rw [List.getElem_map, List.getElem_map, he, he']
  exact (List.getElem_inj hnodup).mp heq

/-- The GPU of an entry is the one that has the domain, bus and device NVML
reports under the entry's index. -/
theorem Matched.sameDevice_iff {affinity : List GPUAffinity} {gpu : Obj} {pci : NvmlPciInfo}
    {i : ℕ} (hm : Matched nodes nvml affinity) (hn : (devices nodes).Nodup)
    (hnvml : nvml.Distinct) (hi : i < affinity.length) (hpci : nvml.pciInfo i = .ok pci)
    (hgpu : gpu ∈ devices nodes) (his : gpu.isGPU = true) :
    gpu.SameDevice pci ↔ gpu = affinity[i].gpu := by
  have hsame : ∀ j (hj : j < affinity.length) q, nvml.pciInfo j = .ok q →
      affinity[j].gpu.SameDevice q := by
    intro j hj q hq
    obtain ⟨q', hq', hjs⟩ := hm.device j hj
    obtain rfl : q = q' := by simpa [hq] using hq'
    exact Obj.sameDevice_of_is hjs
  constructor
  · intro hs
    obtain ⟨j, ⟨hj, rfl⟩, -⟩ := hm.existsUnique hn hgpu his
    obtain ⟨q, hq, hjs⟩ := hm.device j hj
    obtain rfl := hs.eq (Obj.sameDevice_of_is hjs)
    obtain rfl := hnvml _ hm.count i hi j hj _ hpci hq
    rfl
  · rintro rfl
    exact hsame i hi pci hpci

/-- **GPU affinity, end to end.** When `GetAffinity` returns there is one entry
an NVML index, for the GPU NVML speaks of; the entry lists the cores of the
GPU's node and the EFA devices of its bridge. It throws when an EFA device has
no `fi_info` or a GPU no index. -/
theorem getAffinity_correct (hm : getPCIInfoMap infos = .ok m)
    (hpci : ((devices nodes).map Obj.pciAddress).Nodup) (hnvml : nvml.Distinct) :
    (∀ affinity, getAffinity lib nodes m nvml = .ok affinity →
      nvml.deviceGetCount = .ok affinity.length ∧
      (∀ i (hi : i < affinity.length), ∃ pci, nvml.pciInfo i = .ok pci ∧
        (∀ gpu ∈ devices nodes, gpu.isGPU = true →
          (gpu.SameDevice pci ↔ gpu = affinity[i].gpu)) ∧
        ∃ s ∈ sites nodes, affinity[i].Describes infos s) ∧
      ∀ gpu ∈ devices nodes, gpu.isGPU = true →
        ∃! i, ∃ hi : i < affinity.length, affinity[i].gpu = gpu) ∧
    ((∃ d ∈ devices nodes, d.listedEFA = true ∧
        ∀ i ∈ infos, i.pciAddress ≠ .ok d.pciAddress) →
      ∃ e, getAffinity lib nodes m nvml = .error e) ∧
    ((∃ gpu ∈ devices nodes, gpu.isGPU = true ∧ ∀ count, nvml.deviceGetCount = .ok count →
        ∀ i < count, ∀ pci, nvml.pciInfo i = .ok pci → ¬ gpu.is pci = true) →
      ∃ e, getAffinity lib nodes m nvml = .error e) := by
  have hn : (devices nodes).Nodup := hpci.of_map
  refine ⟨fun affinity h => ?_, ?_, ?_⟩
  · obtain ⟨hmatch, hdesc, -⟩ := matched hm hpci hnvml h
    refine ⟨hmatch.count, fun i hi => ?_, fun gpu hgpu his => hmatch.existsUnique hn hgpu his⟩
    obtain ⟨pci, hp, -⟩ := hmatch.device i hi
    exact ⟨pci, hp, fun gpu hgpu his => hmatch.sameDevice_iff hn hnvml hi hp hgpu his,
      hdesc _ (List.getElem_mem hi)⟩
  · rintro ⟨d, hd, hefa, hno⟩
    cases h : getAffinity lib nodes m nvml with
    | error e => exact ⟨e, rfl⟩
    | ok affinity =>
      obtain ⟨-, -, hpaired⟩ := matched hm hpci hnvml h
      obtain ⟨p, hp⟩ := hpaired d hd hefa
      obtain ⟨hlt, hfound, -⟩ := List.findIdx?_eq_some_iff_getElem.mp hp
      exact absurd (of_decide_eq_true hfound) (hno _ (List.getElem_mem hlt))
  · rintro ⟨gpu, hgpu, his, hno⟩
    cases h : getAffinity lib nodes m nvml with
    | error e => exact ⟨e, rfl⟩
    | ok affinity =>
      obtain ⟨hmatch, -⟩ := matched hm hpci hnvml h
      obtain ⟨i, ⟨hi, rfl⟩, -⟩ := hmatch.existsUnique hn hgpu his
      obtain ⟨pci, hp, his⟩ := hmatch.device i hi
      exact absurd his (hno _ hmatch.count i hi pci hp)

/-- Iteration in the order of insertion, and an insertion sort. -/
def Unspecified.listed : Unspecified where
  iterate l := l
  iterate_perm := List.Perm.refl
  sort l := l.insertionSort fun x y => x.logicalIndex ≤ y.logicalIndex
  sort_perm l := List.perm_insertionSort _ l
  sort_sorted l :=
    have : Std.Total fun x y : Obj => x.logicalIndex ≤ y.logicalIndex :=
      ⟨fun _ _ => Nat.le_total _ _⟩
    have : IsTrans Obj fun x y => x.logicalIndex ≤ y.logicalIndex := ⟨fun _ _ _ => Nat.le_trans⟩
    List.pairwise_insertionSort _ l

namespace TwoNodes

/-- A GPU on the bus, at the given address. -/
def gpu (address bus : ℕ) : Obj :=
  .mk { address, type := .pciDevice,
        attr := { pcidev := { bus, classId := 0x0302, vendorId := Obj.nvidiaVendorId } } }
    [] [] [] []

/-- An EFA device on the bus. -/
def efa (address bus : ℕ) : Obj :=
  .mk { address, type := .pciDevice, attr := { pcidev := { bus, dev := 1 } } } [] []
    [.mk { address := address + 1, type := .osDevice, attr := { osdev := .openfabrics } } [] [] [] []]
    []

def core (address logicalIndex : ℕ) : Obj :=
  .mk { address, type := .core, logicalIndex } [] [] [] []

def bridge (address : ℕ) : Obj := .mk { address, type := .bridge } [] [] [] []

/-- Two nodes with a bridge each, a GPU and an EFA device below each bridge. -/
def topology : List Numanode :=
  [⟨none, [core 11 1, core 10 0], [(bridge 20, [gpu 21 1, efa 22 1])]⟩,
    ⟨none, [core 12 2], [(bridge 30, [efa 32 2, gpu 31 2])]⟩]

/-- The second EFA device comes first, and again. -/
def infoList : List FiInfo :=
  [⟨some ⟨some ⟨true, ⟨0, 2, 1, 0⟩⟩⟩⟩, ⟨some ⟨some ⟨true, ⟨0, 1, 1, 0⟩⟩⟩⟩,
    ⟨some ⟨some ⟨true, ⟨0, 2, 1, 0⟩⟩⟩⟩]

/-- NVML counts the GPU of the second node first. -/
def enumeration : Nvml where
  deviceGetCount := .ok 2
  deviceGetHandleByIndex i := .ok i
  deviceGetPciInfo device := .ok ⟨0, 2 - device, 0⟩

theorem distinct : enumeration.Distinct := by
  intro count hcount i hi j hj pci hp hq
  obtain rfl : 2 = count := Except.ok.inj hcount
  have he : (⟨0, 2 - i, 0⟩ : NvmlPciInfo) = ⟨0, 2 - j, 0⟩ :=
    (Except.ok.inj hp).trans (Except.ok.inj hq).symm
  simp only [NvmlPciInfo.mk.injEq] at he
  omega

/-- The entry of index 0 is that of the second node's GPU. -/
def affinity : List GPUAffinity :=
  [⟨gpu 31 2, none, [core 12 2], [(efa 32 2, 0)]⟩,
    ⟨gpu 21 1, none, [core 10 0, core 11 1], [(efa 22 1, 1)]⟩]

theorem getAffinity_correct_topology : ∃ m, getPCIInfoMap infoList = .ok m ∧
    getAffinity .listed topology m enumeration = .ok affinity ∧
    ∀ i (hi : i < affinity.length), ∃ s ∈ sites topology, affinity[i].Describes infoList s := by
  have hm : getPCIInfoMap infoList = .ok _ := rfl
  have hall := (@getAffinity_correct infoList _ .listed topology enumeration hm (by decide)
    distinct).1 affinity rfl
  refine ⟨_, hm, rfl, fun i hi => ?_⟩
  obtain ⟨-, -, -, hdescribes⟩ := hall.2.1 i hi
  exact hdescribes

end TwoNodes

end EfaExamples
