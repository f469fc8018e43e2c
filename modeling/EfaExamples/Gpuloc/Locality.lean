import EfaExamples.Gpuloc.Partition
/-!
# The NUMA node of a GPU

An entry is made for a package, and its `numanode` field is the node met last
before the next package. Where groups below the package have NUMA nodes of their
own, all GPUs of the package get the last of them, and the cores of all.
-/

namespace EfaExamples

variable {t : Obj} {nodes nodes' : List Numanode} {infos : List FiInfo} {m : PciInfoMap}
variable {lib : Unspecified} {nvml : Nvml} {affinity : List GPUAffinity}

namespace Obj

/-- The memory children. -/
def memory : Obj → List Obj
  | mk _ memory _ _ _ => memory

/-- A NUMA node is attached. -/
def hasNuma (l : Obj) : Bool := l.memory.any (·.isNumaNode)

end Obj

/-- The nearest object above that a NUMA node is attached to. -/
def Visit.locality (v : Visit) : Option Obj := v.above.find? (·.hasNuma)

/-- **The GPU has its own NUMA node**: one attached to the nearest object above the GPU that
has any, and all the cores lie below the same object. -/
def GPUAffinity.OwnNuma (t : Obj) (loc : GPUAffinity) : Prop :=
  ∃ v ∈ t.places, v.obj = loc.gpu ∧ ∃ a ∈ v.above, v.locality = some a ∧
    (∃ n ∈ a.memory, n.isNumaNode = true ∧ loc.numanode = some n) ∧
    ∀ c ∈ loc.cores, ∃ u ∈ t.places, u.obj = c ∧ a ∈ u.above

instance (t : Obj) (loc : GPUAffinity) : Decidable (loc.OwnNuma t) :=
  inferInstanceAs (Decidable (∃ v ∈ t.places, _ ∧ ∃ a ∈ v.above, _ ∧ (∃ n ∈ a.memory, _ ∧ _) ∧
    ∀ c ∈ loc.cores, ∃ u ∈ t.places, _ ∧ _))

/-- **The GPU's package is one locality**: of the NUMA nodes met from the package to the next one,
the last is attached to the nearest object above the GPU that has any, and the cores
met there lie below it. -/
def OneLocality (t gpu : Obj) : Prop :=
  ∃ x ∈ filings none t.reached, x.obj = gpu ∧ ∃ p, x.package = some p ∧
    ∃ a ∈ x.above, x.locality = some a ∧
      (∃ n ∈ a.memory,
        (((filedWith p t.reached).map (·.obj)).filter (·.isNumaNode)).getLast? = some n) ∧
      ∀ y ∈ filedWith p t.reached, y.obj.isCore = true → a ∈ y.above

/-! ## The containers are unordered -/

/-- The iteration over a node meets the same elements, in an order of its own. -/
structure Numanode.Reordered (numa numa' : Numanode) : Prop where
  numanode : numa'.numanode = numa.numanode
  cores : numa'.cores.Perm numa.cores
  bridge : ∃ bridges, numa.bridge.Perm bridges ∧
    List.Forall₂ (fun e e' => e'.1 = e.1 ∧ e'.2.Perm e.2) bridges numa'.bridge

theorem Numanode.Reordered.refl (numa : Numanode) : numa.Reordered numa :=
  ⟨rfl, List.Perm.refl _, numa.bridge, List.Perm.refl _,
    List.forall₂_same.mpr fun e _ => ⟨rfl, List.Perm.refl e.2⟩⟩

theorem perm_flatMap_of_forall₂ {α β γ : Type} {R : α → β → Prop} {f : α → List γ}
    {g : β → List γ} {l : List α} {u : List β} (h : List.Forall₂ R l u)
    (hR : ∀ a b, R a b → (g b).Perm (f a)) : (u.flatMap g).Perm (l.flatMap f) := by
  induction h with
  | nil => exact List.Perm.refl _
  | cons hab hrest ih =>
    rw [List.flatMap_cons, List.flatMap_cons]
    exact (hR _ _ hab).append ih

theorem Numanode.Reordered.devices {numa numa' : Numanode} (h : numa.Reordered numa') :
    (numa'.bridge.flatMap (·.2)).Perm (numa.bridge.flatMap (·.2)) := by
  obtain ⟨bridges, hperm, hb⟩ := h.bridge
  exact (perm_flatMap_of_forall₂ hb fun e e' he => he.2).trans (hperm.flatMap_right _).symm

theorem devices_perm (h : List.Forall₂ Numanode.Reordered nodes nodes') :
    (devices nodes').Perm (devices nodes) := by
  rw [devices_eq, devices_eq]
  exact perm_flatMap_of_forall₂ h fun _ _ hn => hn.devices

/-- A site of the one order is a site of the other, with the same devices. -/
theorem exists_site {s' : Numanode × Obj × List Obj}
    (h : List.Forall₂ Numanode.Reordered nodes nodes') (hs : s' ∈ sites nodes') :
    ∃ s ∈ sites nodes, s.1.Reordered s'.1 ∧ s'.2.2.Perm s.2.2 := by
  obtain ⟨hnuma', he'⟩ := mem_sites_iff.mp hs
  obtain ⟨numa, hnuma, hre⟩ := exists_of_forall₂_right h hnuma'
  obtain ⟨bridges, hperm, hbridges⟩ := hre.bridge
  obtain ⟨e, he, -, hdev⟩ := exists_of_forall₂_right hbridges he'
  exact ⟨(numa, e), mem_sites_iff.mpr ⟨hnuma, hperm.mem_iff.mpr he⟩, hre, hdev⟩

/-! ## What an entry says -/

/-- An entry is a GPU's, with the last NUMA node and all the cores of what is filed
with the GPU's package. -/
structure GPUAffinity.Filed (t : Obj) (x : Filing) (p : Obj) (loc : GPUAffinity) : Prop where
  filing : x ∈ filings none t.reached
  package : x.package = some p
  gpu : x.obj = loc.gpu
  numanode : loc.numanode = (((filedWith p t.reached).map (·.obj)).filter (·.isNumaNode)).getLast?
  cores : ∀ c, c ∈ loc.cores ↔ c.isCore = true ∧ ∃ y ∈ filedWith p t.reached, y.obj = c

theorem exists_filed (ht : t.Distinct) (h : traverse t none [] = .ok nodes)
    (hn : List.Forall₂ Numanode.Reordered nodes nodes') (hm : getPCIInfoMap infos = .ok m)
    (ha : getAffinity lib nodes' m nvml = .ok affinity) :
    ∀ loc ∈ affinity, (∃ x p, loc.Filed t x p) ∧ loc.cores.Nodup ∧
      loc.cores.Pairwise fun x y => x.logicalIndex ≤ y.logicalIndex := by
  intro loc hloc
  obtain ⟨gpuloc, pcis, hlocate, -, -, rfl, -⟩ := getAffinity_cases ha
  have hnodup : (devices nodes').Nodup := (devices_perm hn).nodup_iff.mpr (nodup_devices ht h)
  have hmem : loc ∈ gpuloc := by
    obtain ⟨pci, -, hloc⟩ := List.mem_flatMap.mp hloc
    exact (lib.iterate_perm gpuloc).mem_iff.mp (List.mem_filter.mp hloc).1
  obtain ⟨s', hs', hdesc⟩ := (located hm hnodup hlocate).describes loc hmem
  -- the node as the walk left it, and its bridge
  obtain ⟨s, hs, hre, hdev⟩ := exists_site hn hs'
  obtain ⟨hnuma, he⟩ := mem_sites_iff.mp hs
  obtain ⟨p, -, hh⟩ := exists_of_forall₂_right (holds_of_traverse ht h) hnuma
  obtain ⟨-, x, hx, hgpu, -⟩ :=
    ((hh.devices s.2 he).2 loc.gpu).mp (hdev.mem_iff.mp hdesc.gpu.1)
  obtain ⟨hx, hp⟩ := mem_filedWith.mp hx
  have hcores : loc.cores.Perm s.1.cores := hdesc.cores.1.trans hre.cores
  refine ⟨⟨x, p, hx, hp, hgpu, ?_, fun c => ?_⟩, hcores.nodup_iff.mpr hh.cores.1, hdesc.cores.2⟩
  · rw [hdesc.numanode, hre.numanode, hh.numanode]
  · rw [hcores.mem_iff, hh.cores.2]

/-- **A GPU is associated with its own NUMA node exactly if its package is one
locality.** -/
theorem ownNuma_iff (ht : t.Distinct) (h : traverse t none [] = .ok nodes)
    (hn : List.Forall₂ Numanode.Reordered nodes nodes') (hm : getPCIInfoMap infos = .ok m)
    (ha : getAffinity lib nodes' m nvml = .ok affinity) :
    ∀ loc ∈ affinity, loc.OwnNuma t ↔ OneLocality t loc.gpu := by
  intro loc hloc
  obtain ⟨⟨x, p, hx⟩, -⟩ := exists_filed ht h hn hm ha loc hloc
  have hplace : x.toVisit ∈ t.places := (Obj.reached_sublist t).mem (mem_of_filing hx.filing)
  constructor
  · rintro ⟨v, hv, hgpu, a, habove, hloc, ⟨n, hn, -, hnuma⟩, hcores⟩
    obtain rfl := ht.eq hplace hv (hx.gpu.trans hgpu.symm)
    refine ⟨x, hx.filing, hx.gpu, p, hx.package, a, habove, hloc, ⟨n, hn, ?_⟩, ?_⟩
    · rw [← hx.numanode, hnuma]
    · intro y hy hcore
      obtain ⟨u, hu, huy, hua⟩ := hcores y.obj ((hx.cores _).mpr ⟨hcore, y, hy, rfl⟩)
      have hyplace := (Obj.reached_sublist t).mem (mem_of_filing (mem_filedWith.mp hy).1)
      obtain rfl := ht.eq hyplace hu huy.symm
      exact hua
  · rintro ⟨x', hx', hgpu, p', hp', a, habove, hloc, ⟨n, hn, hlast⟩, hcores⟩
    obtain rfl := ht.filing_eq hx' hx.filing (hgpu.trans hx.gpu.symm)
    obtain rfl := Option.some.inj (hp'.symm.trans hx.package)
    refine ⟨x'.toVisit, hplace, hgpu, a, habove, hloc, ⟨n, hn, ?_, ?_⟩, ?_⟩
    · exact (List.mem_filter.mp (List.mem_of_getLast? hlast)).2
    · rw [hx.numanode, hlast]
    · intro c hc
      obtain ⟨hcore, y, hy, rfl⟩ := (hx.cores c).mp hc
      have hyplace := (Obj.reached_sublist t).mem (mem_of_filing (mem_filedWith.mp hy).1)
      exact ⟨y.toVisit, hyplace, rfl, hcores y hy hcore⟩

namespace Clusters

/-- A GPU on the bus. -/
def gpu (address bus : ℕ) : Obj :=
  .mk { address, type := .pciDevice,
        attr := { pcidev := { bus, classId := 0x0302, vendorId := Obj.nvidiaVendorId } } }
    [] [] [] []

/-- An EFA device on the bus. -/
def efa (address bus : ℕ) : Obj :=
  .mk { address, type := .pciDevice, attr := { pcidev := { bus, dev := 1 } } } [] []
    [.mk { address := address + 1, type := .osDevice, attr := { osdev := .openfabrics } } [] [] [] []]
    []

/-- A host bridge with a GPU and an EFA device below it. -/
def bridge (address bus : ℕ) : Obj :=
  .mk { address, type := .bridge } [] [] [gpu (address + 1) bus, efa (address + 2) bus] []

/-- An object with a NUMA node attached, a core and a host bridge below it. -/
def cluster (address bus : ℕ) (type : ObjType) : Obj :=
  .mk { address, type } [leaf (address + 1) .numanode] [leaf (address + 2) .core]
    [bridge (address + 3) bus] []

/-- A package with one NUMA node, and a package of two groups with one each. -/
def machine : Obj :=
  .mk { address := 0, type := .other } []
    [cluster 10 1 .package,
      .mk { address := 20, type := .package } [] [cluster 30 2 .other, cluster 40 3 .other] [] []]
    [] []

/-- One `fi_info` for each EFA device. -/
def infoList : List FiInfo :=
  [1, 2, 3].map fun bus => ⟨some ⟨some ⟨true, ⟨0, bus, 1, 0⟩⟩⟩⟩

/-- NVML counts the GPUs by their bus. -/
def enumeration : Nvml where
  deviceGetCount := .ok 3
  deviceGetHandleByIndex i := .ok i
  deviceGetPciInfo device := .ok ⟨0, device + 1, 0⟩

/-- One node for the two groups. -/
def numanodes : List Numanode :=
  [⟨some (leaf 11 .numanode), [leaf 12 .core], [(bridge 13 1, [gpu 14 1, efa 15 1])]⟩,
    ⟨some (leaf 41 .numanode), [leaf 32 .core, leaf 42 .core],
      [(bridge 33 2, [gpu 34 2, efa 35 2]), (bridge 43 3, [gpu 44 3, efa 45 3])]⟩]

/-- The GPUs of the two groups get the node of the second, and the cores of both. -/
def entries : List GPUAffinity :=
  [⟨gpu 14 1, some (leaf 11 .numanode), [leaf 12 .core], [(efa 15 1, 0)]⟩,
    ⟨gpu 34 2, some (leaf 41 .numanode), [leaf 32 .core, leaf 42 .core], [(efa 35 2, 1)]⟩,
    ⟨gpu 44 3, some (leaf 41 .numanode), [leaf 32 .core, leaf 42 .core], [(efa 45 3, 2)]⟩]

theorem traverse_machine : traverse machine none [] = .ok numanodes := by decide +kernel

/-- The GPU of the first group has not its own node. -/
theorem getAffinity_other_node : traverse machine none [] = .ok numanodes ∧
    (∃ m, getPCIInfoMap infoList = .ok m ∧
      getAffinity .listed numanodes m enumeration = .ok entries) ∧
    ¬ ∀ loc ∈ entries, loc.OwnNuma machine :=
  ⟨traverse_machine, ⟨_, rfl, rfl⟩, by decide⟩

theorem ownNuma_iff_machine :
    (∃ m, getPCIInfoMap infoList = .ok m ∧
      getAffinity .listed numanodes m enumeration = .ok entries) ∧
    ∀ loc ∈ entries, loc.OwnNuma machine ↔ OneLocality machine loc.gpu := by
  obtain ⟨m, hm, ha⟩ : ∃ m, getPCIInfoMap infoList = .ok m ∧
      getAffinity .listed numanodes m enumeration = .ok entries := ⟨_, rfl, rfl⟩
  exact ⟨⟨m, hm, ha⟩, ownNuma_iff (by decide) traverse_machine
    (List.forall₂_same.mpr fun numa _ => Numanode.Reordered.refl numa) hm ha⟩

end Clusters

end EfaExamples
