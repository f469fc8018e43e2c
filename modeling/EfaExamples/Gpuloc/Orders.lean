import Mathlib.Data.List.Pairwise
import EfaExamples.Gpuloc.Pinning
/-!
# The order of the containers

Four unordered containers feed the table. The nodes' order and that of the
indices are fixed and the cores are sorted, so what is left of the four are the
EFA devices of an entry, which keep the order of the bridge's set, and the
entries one index finds.
-/

namespace EfaExamples

variable {t gpu : Obj} {nodes nodes₁ nodes₂ : List Numanode} {m : PciInfoMap} {nvml : Nvml}
variable {lib lib₁ lib₂ : Unspecified} {s s₁ s₂ : Numanode × Obj × List Obj}
variable {pci : NvmlPciInfo} {pcis : List NvmlPciInfo}

/-- **The table does not depend on the iteration orders**: of the cores, the bridges, the devices
of a bridge, and the map of the GPUs. -/
def OrderFree (nodes : List Numanode) (m : PciInfoMap) (nvml : Nvml) : Prop :=
  ∀ lib₁ lib₂ nodes₁ nodes₂, List.Forall₂ Numanode.Reordered nodes nodes₁ →
    List.Forall₂ Numanode.Reordered nodes nodes₂ →
      getAffinity lib₁ nodes₁ m nvml = getAffinity lib₂ nodes₂ m nvml

/-- A GPU that NVML speaks of is the only one, and shares its bridge with one EFA device at
most. -/
def Single (nodes : List Numanode) (pci : NvmlPciInfo) : Prop :=
  ∀ s ∈ sites nodes, ∀ gpu ∈ s.2.2, gpu.isGPU = true → gpu.is pci = true →
    (s.2.2.filter (·.listedEFA)).length ≤ 1 ∧
      ∀ gpu' ∈ gpus nodes, gpu'.is pci = true → gpu' = gpu

/-! ## The checks -/

/-- The checks look at no order. -/
theorem checks_eq_of_perm (h : (devices nodes₁).Perm (devices nodes)) :
    checks nodes₁ m nvml = checks nodes m nvml := by
  have hpaired : Paired m (devices nodes₁) ↔ Paired m (devices nodes) :=
    forall_congr' fun d => by rw [h.mem_iff]
  have hgpus : (gpus nodes₁).Perm (gpus nodes) := h.filter _
  have hfound : (pcis : List NvmlPciInfo) →
      (pcis.flatMap fun pci => (gpus nodes₁).filter (·.is pci)).length =
        (pcis.flatMap fun pci => (gpus nodes).filter (·.is pci)).length := by
    intro pcis
    rw [List.length_flatMap, List.length_flatMap]
    exact congrArg List.sum (List.map_congr_left fun pci _ => (hgpus.filter _).length_eq)
  simp only [checks, hpaired, hgpus.length_eq, hfound]

/-- An index finds as many entries in every order. -/
theorem length_found_of_reordered (h : List.Forall₂ Numanode.Reordered nodes nodes₁) :
    (found lib m nodes₁ pci).length = ((gpus nodes).filter (·.is pci)).length := by
  rw [length_found]
  exact (((devices_perm h).filter _).filter _).length_eq

/-- **The order shows in what one index finds, or not at all.** -/
theorem orderFree_iff_found (hn : (devices nodes).Nodup) : OrderFree nodes m nvml ↔
    ∀ pcis, Checked nodes m nvml pcis → ∀ pci ∈ pcis, ∀ lib₁ lib₂ nodes₁ nodes₂,
      List.Forall₂ Numanode.Reordered nodes nodes₁ →
        List.Forall₂ Numanode.Reordered nodes nodes₂ →
          found lib₁ m nodes₁ pci = found lib₂ m nodes₂ pci := by
  have heq : ∀ {lib nodes'}, List.Forall₂ Numanode.Reordered nodes nodes' →
      getAffinity lib nodes' m nvml = (checks nodes m nvml).map (table lib m nodes') := by
    intro lib nodes' h
    rw [getAffinity_eq_map ((devices_perm h).nodup_iff.mpr hn), checks_eq_of_perm (devices_perm h)]
  constructor
  · intro horder pcis hpcis pci hpci lib₁ lib₂ nodes₁ nodes₂ h₁ h₂
    have htable := horder lib₁ lib₂ nodes₁ nodes₂ h₁ h₂
    rw [heq h₁, heq h₂, checks_eq_ok.mpr hpcis] at htable
    refine (flatMap_eq_iff_of_length fun pci _ => ?_).mp (Except.ok.inj htable) pci hpci
    rw [length_found_of_reordered h₁, length_found_of_reordered h₂]
  · intro hfound lib₁ lib₂ nodes₁ nodes₂ h₁ h₂
    rw [heq h₁, heq h₂]
    cases hchecks : checks nodes m nvml with
    | error e => rfl
    | ok pcis =>
      have hall := hfound pcis (checks_eq_ok.mp hchecks)
      exact congrArg Except.ok
        (List.flatMap_congr fun pci hpci => hall pci hpci lib₁ lib₂ nodes₁ nodes₂ h₁ h₂)

/-! ## An entry -/

/-- A device is at one site. -/
theorem site_eq {d : Obj} (hn : (devices nodes).Nodup) (h₁ : s₁ ∈ sites nodes)
    (h₂ : s₂ ∈ sites nodes) (hd₁ : d ∈ s₁.2.2) (hd₂ : d ∈ s₂.2.2) : s₁ = s₂ := by
  have hpairwise := (List.nodup_flatMap.mp hn).2
  have : Std.Symm (Function.onFun List.Disjoint fun s : Numanode × Obj × List Obj => s.2.2) :=
    ⟨fun _ _ h _ hd hd' => h hd' hd⟩
  by_contra hne
  exact hpairwise.forall h₁ h₂ hne hd₁ hd₂

/-- The logical indexes of a site's cores are as distinct as those of the topology. -/
theorem nodup_logicalIndex (ht : t.Distinct) (h : traverse t none [] = .ok nodes)
    (hidx : ((coresOf t.reached).map (·.logicalIndex)).Nodup) (hs : s ∈ sites nodes) :
    (s.1.cores.map (·.logicalIndex)).Nodup := by
  obtain ⟨p, -, hh⟩ := exists_of_forall₂_right (holds_of_traverse ht h) (mem_sites_iff.mp hs).1
  have hmem : ∀ c ∈ s.1.cores, c ∈ coresOf t.reached := by
    intro c hc
    obtain ⟨hcore, x, hx, rfl⟩ := (hh.cores.2 c).mp hc
    exact List.mem_filter.mpr ⟨List.mem_map_of_mem (mem_of_filing (mem_filedWith.mp hx).1), hcore⟩
  exact hh.cores.1.map_on fun c hc c' hc' heq =>
    List.inj_on_of_nodup_map hidx (hmem c hc) (hmem c' hc') heq

/-- **Sorting leaves no order but one**, where the logical indexes are distinct. -/
theorem sort_eq {cores cores₁ cores₂ : List Obj} (hn : (cores.map (·.logicalIndex)).Nodup)
    (h₁ : cores₁.Perm cores) (h₂ : cores₂.Perm cores) : lib₁.sort cores₁ = lib₂.sort cores₂ := by
  have hperm₁ := (lib₁.sort_perm cores₁).trans h₁
  have hperm₂ := (lib₂.sort_perm cores₂).trans h₂
  refine List.Perm.eq_of_pairwise (fun c c' hc hc' hle hge => ?_) (lib₁.sort_sorted cores₁)
    (lib₂.sort_sorted cores₂) (hperm₁.trans hperm₂.symm)
  exact List.inj_on_of_nodup_map hn (hperm₁.mem_iff.mp hc) (hperm₂.mem_iff.mp hc')
    (Nat.le_antisymm hle hge)

/-- One EFA device has no order. -/
theorem efasOf_eq {ds ds' : List Obj} (hds : ds'.Perm ds)
    (hone : (ds.filter (·.listedEFA)).length ≤ 1) : efasOf m ds' = efasOf m ds := by
  have hperm : (ds'.filter (·.listedEFA)).Perm (ds.filter (·.listedEFA)) := hds.filter _
  have heq : ds'.filter (·.listedEFA) = ds.filter (·.listedEFA) :=
    eq_of_forall_mem_eq hperm.length_eq fun d hd d' hd' =>
      eq_of_length_le_one hone (hperm.mem_iff.mp hd) hd'
  rw [efasOf, heq, efasOf]

/-- **An entry is the same in every order**, if its bridge has one EFA device at most. -/
theorem entryAt_eq (hn : (s.1.cores.map (·.logicalIndex)).Nodup)
    (hone : (s.2.2.filter (·.listedEFA)).length ≤ 1) (h₁ : s.1.Reordered s₁.1)
    (hd₁ : s₁.2.2.Perm s.2.2) (h₂ : s.1.Reordered s₂.1) (hd₂ : s₂.2.2.Perm s.2.2) :
    entryAt lib₁ m s₁ gpu = entryAt lib₂ m s₂ gpu := by
  rw [entryAt, entryAt, h₁.numanode, h₂.numanode, sort_eq hn h₁.cores h₂.cores,
    efasOf_eq hd₁ hone, efasOf_eq hd₂ hone]

/-! ## What one index finds -/

/-- **One entry for one GPU**, the same in every order. -/
theorem Single.found_eq (hsingle : Single nodes pci) (ht : t.Distinct)
    (h : traverse t none [] = .ok nodes)
    (hidx : ((coresOf t.reached).map (·.logicalIndex)).Nodup)
    (h₁ : List.Forall₂ Numanode.Reordered nodes nodes₁)
    (h₂ : List.Forall₂ Numanode.Reordered nodes nodes₂) :
    found lib₁ m nodes₁ pci = found lib₂ m nodes₂ pci := by
  have hn := nodup_devices ht h
  -- an entry is that of a site of `nodes`, met in some order
  have hentry : ∀ {lib nodes'}, List.Forall₂ Numanode.Reordered nodes nodes' →
      ∀ loc ∈ found lib m nodes' pci, ∃ s ∈ sites nodes, ∃ s', s.1.Reordered s'.1 ∧
        s'.2.2.Perm s.2.2 ∧ ∃ gpu ∈ s.2.2, gpu.isGPU = true ∧ gpu.is pci = true ∧
          loc = entryAt lib m s' gpu := by
    intro lib nodes' h' loc hloc
    obtain ⟨hloc, his⟩ := mem_found.mp hloc
    obtain ⟨s', hs', gpu, hgpu, hgpu', rfl⟩ := mem_entries.mp hloc
    obtain ⟨s, hs, hre, hdev⟩ := exists_site h' hs'
    exact ⟨s, hs, s', hre, hdev, gpu, hdev.mem_iff.mp hgpu, hgpu', his, rfl⟩
  have hsame : ∀ loc₁ ∈ found lib₁ m nodes₁ pci, ∀ loc₂ ∈ found lib₂ m nodes₂ pci,
      loc₁ = loc₂ := by
    intro loc₁ hloc₁ loc₂ hloc₂
    obtain ⟨s, hs, s₁, hre₁, hd₁, gpu, hgpu, hisgpu, his, rfl⟩ := hentry h₁ loc₁ hloc₁
    obtain ⟨s', hs', s₂, hre₂, hd₂, gpu', hgpu', hisgpu', his', rfl⟩ := hentry h₂ loc₂ hloc₂
    obtain ⟨hone, honly⟩ := hsingle s hs gpu hgpu hisgpu his
    obtain rfl := honly gpu' (mem_gpus.mpr ⟨s', hs', hgpu', hisgpu'⟩) his'
    obtain rfl := site_eq hn hs hs' hgpu hgpu'
    exact entryAt_eq (nodup_logicalIndex ht h hidx hs) hone hre₁ hd₁ hre₂ hd₂
  refine eq_of_forall_mem_eq ?_ hsame
  rw [length_found_of_reordered h₁, length_found_of_reordered h₂]

/-! ## Two orders that tell -/

/-- The map of the GPUs iterated backwards. -/
def Unspecified.backwards : Unspecified where
  iterate := List.reverse
  iterate_perm := List.reverse_perm
  sort := Unspecified.listed.sort
  sort_perm := Unspecified.listed.sort_perm
  sort_sorted := Unspecified.listed.sort_sorted

/-- The devices of every bridge backwards. -/
def Numanode.backwards (numa : Numanode) : Numanode :=
  { numa with bridge := numa.bridge.map fun e => (e.1, e.2.reverse) }

theorem Numanode.reordered_backwards (numa : Numanode) : numa.Reordered numa.backwards := by
  refine ⟨rfl, List.Perm.refl _, numa.bridge, List.Perm.refl _, ?_⟩
  rw [backwards, List.forall₂_map_right_iff, List.forall₂_same]
  exact fun e _ => ⟨rfl, List.reverse_perm _⟩

theorem forall₂_reordered_refl (nodes : List Numanode) :
    List.Forall₂ Numanode.Reordered nodes nodes :=
  List.forall₂_same.mpr fun numa _ => Numanode.Reordered.refl numa

theorem forall₂_reordered_backwards (nodes : List Numanode) :
    List.Forall₂ Numanode.Reordered nodes (nodes.map (·.backwards)) := by
  rw [List.forall₂_map_right_iff, List.forall₂_same]
  exact fun numa _ => numa.reordered_backwards

/-- A site met backwards. -/
theorem exists_site_backwards (hs : s ∈ sites (nodes.map (·.backwards))) :
    ∃ s' ∈ sites nodes, s.2.2 = s'.2.2.reverse := by
  obtain ⟨hnuma, he⟩ := mem_sites_iff.mp hs
  obtain ⟨numa, hnuma, hnuma'⟩ := List.mem_map.mp hnuma
  rw [← hnuma', Numanode.backwards] at he
  obtain ⟨e, he, he'⟩ := List.mem_map.mp he
  exact ⟨(numa, e), mem_sites_iff.mpr ⟨hnuma, he⟩, by rw [← he']⟩

theorem efasOf_reverse (m : PciInfoMap) (ds : List Obj) :
    efasOf m ds.reverse = (efasOf m ds).reverse := by
  rw [efasOf, efasOf, List.filter_reverse, List.map_reverse]

/-- **The map backwards tells two entries apart**, -/
theorem length_found_le_one (hn : (devices nodes).Nodup)
    (h : found .backwards m nodes pci = found .listed m nodes pci) :
    (found .listed m nodes pci).length ≤ 1 := by
  refine length_le_one_of_reverse_eq (nodup_found hn) ?_
  rw [found, ← List.filter_reverse]
  exact h

/-- **and a bridge backwards two EFA devices.** -/
theorem length_listedEFA_le_one (hn : (devices nodes).Nodup) (hs : s ∈ sites nodes)
    (hgpu : gpu ∈ s.2.2) (hisgpu : gpu.isGPU = true) (his : gpu.is pci = true)
    (h : found .listed m nodes pci = found .listed m (nodes.map (·.backwards)) pci) :
    (s.2.2.filter (·.listedEFA)).length ≤ 1 := by
  have hmem : entryAt .listed m s gpu ∈ found .listed m nodes pci :=
    mem_found.mpr ⟨mem_entries.mpr ⟨s, hs, gpu, hgpu, hisgpu, rfl⟩, his⟩
  rw [h] at hmem
  obtain ⟨s', hs', gpu', hgpu', -, hentry⟩ := mem_entries.mp (mem_found.mp hmem).1
  obtain ⟨hgpus, -, -, hefas⟩ := (GPUAffinity.mk.injEq ..).mp hentry
  obtain rfl : gpu = gpu' := hgpus
  obtain ⟨s'', hs'', hrev⟩ := exists_site_backwards hs'
  rw [hrev, List.mem_reverse] at hgpu'
  obtain rfl := site_eq hn hs hs'' hgpu hgpu'
  have hdevices : s.2.2.Nodup := (List.nodup_flatMap.mp hn).1 s hs
  have hnodup : (efasOf m s.2.2).Nodup :=
    List.Nodup.of_map Prod.fst (map_fst_efasOf ▸ hdevices.filter _)
  have hlen : (efasOf m s.2.2).length ≤ 1 := by
    refine length_le_one_of_reverse_eq hnodup ?_
    rw [← efasOf_reverse, ← hrev]
    exact hefas.symm
  rwa [← map_fst_efasOf, List.length_map]

/-- **Order independence.** `GetAffinity` returns the same whatever the order of the four
containers, exactly if its checks fail or every GPU that an index finds is the only one and shares
its host bridge with one EFA device at most. -/
theorem orderFree_iff (ht : t.Distinct) (h : traverse t none [] = .ok nodes)
    (hidx : ((coresOf t.reached).map (·.logicalIndex)).Nodup) :
    OrderFree nodes m nvml ↔
      ∀ pcis, Checked nodes m nvml pcis → ∀ pci ∈ pcis, Single nodes pci := by
  have hn := nodup_devices ht h
  rw [orderFree_iff_found hn]
  refine forall₂_congr fun pcis _ => forall₂_congr fun pci _ => ⟨?_, ?_⟩
  · intro hfound s hs gpu hgpu hisgpu his
    refine ⟨length_listedEFA_le_one hn hs hgpu hisgpu his (hfound _ _ _ _
      (forall₂_reordered_refl nodes) (forall₂_reordered_backwards nodes)), ?_⟩
    intro gpu' hgpu' his'
    have hone := length_found_le_one hn (hfound .backwards .listed nodes nodes
      (forall₂_reordered_refl nodes) (forall₂_reordered_refl nodes))
    rw [length_found] at hone
    exact eq_of_length_le_one hone (List.mem_filter.mpr ⟨hgpu', his'⟩)
      (List.mem_filter.mpr ⟨mem_gpus.mpr ⟨s, hs, hgpu, hisgpu⟩, his⟩)
  · exact fun hsingle lib₁ lib₂ nodes₁ nodes₂ h₁ h₂ => hsingle.found_eq ht h hidx h₁ h₂

namespace OneEach

/-- A package with a core, and a host bridge with a GPU and an EFA device. -/
def package (address bus : ℕ) : Obj :=
  .mk { address, type := .package } [] [Interleaved.core (address + 1) bus bus]
    [Clusters.bridge (address + 3) bus] []

/-- Two such packages. -/
def machine : Obj :=
  .mk { address := 0, type := .other } [] [package 10 1, package 20 2] [] []

/-- The nodes of the two packages. -/
def numanodes : List Numanode :=
  [⟨none, [Interleaved.core 11 1 1],
      [(Clusters.bridge 13 1, [Clusters.gpu 14 1, Clusters.efa 15 1])]⟩,
    ⟨none, [Interleaved.core 21 2 2],
      [(Clusters.bridge 23 2, [Clusters.gpu 24 2, Clusters.efa 25 2])]⟩]

/-- The table has an entry for each GPU, in every order. -/
theorem orderFree_iff_machine : ∃ m, getPCIInfoMap Clusters.infoList = .ok m ∧
    (∃ affinity, getAffinity .listed numanodes m Interleaved.enumeration = .ok affinity ∧
      affinity.map (·.gpu) = [Clusters.gpu 14 1, Clusters.gpu 24 2]) ∧
    OrderFree numanodes m Interleaved.enumeration := by
  have hwalk : traverse machine none [] = .ok numanodes := by decide +kernel
  have hefas : ∀ s ∈ sites numanodes, (s.2.2.filter (·.listedEFA)).length ≤ 1 := by decide
  have haddr : ((gpus numanodes).map Obj.pciAddress).Nodup := by decide
  refine ⟨_, rfl, ⟨_, rfl, rfl⟩, (orderFree_iff (by decide) hwalk (by decide)).mpr ?_⟩
  intro pcis _ pci _ s hs gpu hgpu hisgpu his
  refine ⟨hefas s hs, fun gpu' hgpu' his' => ?_⟩
  exact List.inj_on_of_nodup_map haddr hgpu' (mem_gpus.mpr ⟨s, hs, hgpu, hisgpu⟩)
    ((Obj.is_iff.mp his').trans (Obj.is_iff.mp his).symm)

end OneEach

namespace Interleaved

/-- With two EFA devices at the bridge, the first process gets the one or the other. -/
theorem not_orderFree : traverse (machine id) none [] = .ok (numanodes id) ∧
    List.Forall₂ Numanode.Reordered (numanodes id) ((numanodes id).map (·.backwards)) ∧
    ∃ m, getPCIInfoMap infoList = .ok m ∧ ¬ OrderFree (numanodes id) m enumeration ∧
      ∃ affinity affinity', getAffinity .listed (numanodes id) m enumeration = .ok affinity ∧
        getAffinity .listed ((numanodes id).map (·.backwards)) m enumeration = .ok affinity' ∧
        Peer.place affinity 0 = some ⟨0, 0, 0⟩ ∧ Peer.place affinity' 0 = some ⟨0, 0, 1⟩ := by
  have hre := forall₂_reordered_backwards (numanodes id)
  refine ⟨by decide +kernel, hre, _, rfl, fun horder => ?_, _, _, rfl, rfl, rfl, rfl⟩
  have heq := horder .listed .listed _ _ (forall₂_reordered_refl _) hre
  have hplace := congrArg (fun r : Except Thrown (List GPUAffinity) =>
    (r.toOption.bind fun affinity => Peer.place affinity 0).map (·.efa)) heq
  exact absurd (hplace : some 0 = some 1) (by decide)

end Interleaved

end EfaExamples
