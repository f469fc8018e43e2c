import Mathlib.Data.List.InsertIdx
import EfaExamples.Gpuloc.Orders
/-!
# The peers of one machine

Every process builds the table for itself, in iteration orders of its own. A
`Peer` gets the core of its local rank, in whatever order, for the cores are
sorted; but the NIC may be any of its host bridge. So two processes never share
a CPU, and may share a NIC just where their GPUs share the bridge.
-/

namespace EfaExamples

variable {t : Obj} {nodes nodes' : List Numanode} {infos : List FiInfo} {m : PciInfoMap}
variable {lib : Unspecified} {nvml : Nvml} {affinity : List GPUAffinity} {pcis : List NvmlPciInfo}
variable {s s' s₁ s₂ : Numanode × Obj × List Obj} {rank i j : ℕ} {place p q : Placement}

/-- **What the process of a local rank may get**: it builds the table in some orders, and looks
itself up. -/
def Peer.MayPlace (nodes : List Numanode) (m : PciInfoMap) (nvml : Nvml) (rank : ℕ)
    (place : Placement) : Prop :=
  ∃ lib nodes' affinity, List.Forall₂ Numanode.Reordered nodes nodes' ∧
    getAffinity lib nodes' m nvml = .ok affinity ∧ Peer.place affinity rank = some place

/-- **A seat for a local rank** at a site: the GPU that NVML has there, a core and an EFA device. -/
structure Peer.Seat (nodes : List Numanode) (pcis : List NvmlPciInfo) (rank : ℕ)
    (s : Numanode × Obj × List Obj) : Prop where
  site : s ∈ sites nodes
  gpu : ∃ pci ∈ pcis[rank]?, ∃ gpu ∈ s.2.2, gpu.isGPU = true ∧ gpu.is pci = true
  core : rank < s.1.cores.length
  efa : rank < (s.2.2.filter (·.listedEFA)).length

/-! ## The table by index -/

/-- **Where the addresses are distinct, the table has one entry an index.** -/
theorem found_table (lib : Unspecified) (hpci : ((devices nodes).map Obj.pciAddress).Nodup)
    (hc : Checked nodes m nvml pcis) :
    List.Forall₂ (fun pci loc => found lib m nodes pci = [loc]) pcis (table lib m nodes pcis) := by
  refine forall₂_flatMap (fun pci _ => ?_) ?_
  · rw [length_found, gpus, List.filter_filter]
    exact length_filter_le_one hpci fun d hd => Obj.is_iff.mp (Bool.and_elim_left hd)
  · have hanswered := hc.answered.length_eq
    rw [List.length_range] at hanswered
    exact (length_table lib m nodes pcis).trans (hc.found.symm.trans hanswered)

/-- The entry of an index is that of the site its GPU is listed at. -/
theorem getElem?_table_eq_some (lib : Unspecified) {loc : GPUAffinity}
    (hpci : ((devices nodes).map Obj.pciAddress).Nodup) (hc : Checked nodes m nvml pcis) :
    (table lib m nodes pcis)[rank]? = some loc ↔ ∃ pci ∈ pcis[rank]?, ∃ s ∈ sites nodes,
      ∃ gpu ∈ s.2.2, gpu.isGPU = true ∧ gpu.is pci = true ∧ loc = entryAt lib m s gpu := by
  have htable := found_table lib hpci hc
  have hmem : ∀ {pci loc}, loc ∈ found lib m nodes pci ↔ ∃ s ∈ sites nodes, ∃ gpu ∈ s.2.2,
      gpu.isGPU = true ∧ gpu.is pci = true ∧ loc = entryAt lib m s gpu := by
    intro pci loc
    rw [mem_found, mem_entries]
    constructor
    · rintro ⟨⟨s, hs, gpu, hgpu, his, rfl⟩, hpci⟩
      exact ⟨s, hs, gpu, hgpu, his, hpci, rfl⟩
    · rintro ⟨s, hs, gpu, hgpu, his, hpci, rfl⟩
      exact ⟨⟨s, hs, gpu, hgpu, his, rfl⟩, hpci⟩
  constructor
  · intro hloc
    obtain ⟨hlt, rfl⟩ := List.getElem?_eq_some_iff.mp hloc
    have hlt' : rank < pcis.length := htable.length_eq ▸ hlt
    have hone := htable.get hlt' hlt
    exact ⟨_, List.getElem?_eq_getElem hlt', hmem.mp (hone ▸ List.mem_singleton_self _)⟩
  · rintro ⟨pci, hpci', hs⟩
    obtain ⟨hlt, rfl⟩ := List.getElem?_eq_some_iff.mp hpci'
    have hlt' : rank < (table lib m nodes pcis).length := htable.length_eq ▸ hlt
    have hone : found lib m nodes pcis[rank] = [(table lib m nodes pcis)[rank]] :=
      htable.get hlt hlt'
    have hloc := hmem.mpr hs
    rw [hone, List.mem_singleton] at hloc
    rw [List.getElem?_eq_getElem hlt', hloc]

/-! ## What a process may get -/

/-- The logical indexes of the cores at a site, in order. -/
def indexesAt (s : Numanode × Obj × List Obj) : List ℕ :=
  (s.1.cores.map (·.logicalIndex)).insertionSort (· ≤ ·)

theorem indexesAt_eq_of_perm (h : s'.1.cores.Perm s.1.cores) : indexesAt s' = indexesAt s :=
  List.Perm.eq_of_pairwise (fun _ _ _ _ => Nat.le_antisymm) (List.pairwise_insertionSort _ _)
    (List.pairwise_insertionSort _ _) (((List.perm_insertionSort _ _).trans (h.map _)).trans
      (List.perm_insertionSort _ _).symm)

theorem length_indexesAt (s : Numanode × Obj × List Obj) :
    (indexesAt s).length = s.1.cores.length := by
  rw [indexesAt, List.length_insertionSort, List.length_map]

/-- Sorting the cores sorts their logical indexes. -/
theorem map_sort (lib : Unspecified) (s : Numanode × Obj × List Obj) :
    (lib.sort s.1.cores).map (·.logicalIndex) = indexesAt s :=
  List.Perm.eq_of_pairwise (fun _ _ _ _ => Nat.le_antisymm)
    (List.pairwise_map.mpr (lib.sort_sorted _)) (List.pairwise_insertionSort _ _)
    (((lib.sort_perm _).map _).trans (List.perm_insertionSort _ _).symm)

/-- **The lookups of a `Peer` in a table.** -/
theorem place_table_eq_some (lib : Unspecified) (hpci : ((devices nodes).map Obj.pciAddress).Nodup)
    (hc : Checked nodes m nvml pcis) : Peer.place (table lib m nodes pcis) rank = some place ↔
      ∃ s ∈ sites nodes, (∃ pci ∈ pcis[rank]?, ∃ gpu ∈ s.2.2, gpu.isGPU = true ∧
        gpu.is pci = true) ∧ place.device = rank ∧ (indexesAt s)[rank]? = some place.cpu ∧
          ((efasOf m s.2.2)[rank]?).map Prod.snd = some place.efa := by
  have hlookup : ∀ {s gpu}, (table lib m nodes pcis)[rank]? = some (entryAt lib m s gpu) →
      (Peer.place (table lib m nodes pcis) rank = some place ↔ place.device = rank ∧
        (indexesAt s)[rank]? = some place.cpu ∧
          ((efasOf m s.2.2)[rank]?).map Prod.snd = some place.efa) := by
    intro s gpu hloc
    rw [Peer.place, hloc, ← map_sort lib, List.getElem?_map]
    obtain ⟨device, cpu, efa⟩ := place
    simp only [entryAt, Option.bind_eq_bind, Option.bind_some, Option.pure_def]
    cases (lib.sort s.1.cores)[rank]? <;> cases (efasOf m s.2.2)[rank]? <;> simp [eq_comm]
  constructor
  · intro hplace
    obtain ⟨loc, hloc⟩ : ∃ loc, (table lib m nodes pcis)[rank]? = some loc := by
      cases hloc : (table lib m nodes pcis)[rank]? with
      | none => simp [Peer.place, hloc] at hplace
      | some loc => exact ⟨loc, rfl⟩
    obtain ⟨pci, hpci', s, hs, gpu, hgpu, his, hispci, rfl⟩ :=
      (getElem?_table_eq_some lib hpci hc).mp hloc
    exact ⟨s, hs, ⟨pci, hpci', gpu, hgpu, his, hispci⟩, (hlookup hloc).mp hplace⟩
  · rintro ⟨s, hs, ⟨pci, hpci', gpu, hgpu, his, hispci⟩, hplace⟩
    exact (hlookup ((getElem?_table_eq_some lib hpci hc).mpr
      ⟨pci, hpci', s, hs, gpu, hgpu, his, hispci, rfl⟩)).mpr hplace

/-- An EFA device of a site can be met at any place among those of the site. -/
theorem exists_perm_getElem? {ds : List Obj} {d : Obj} (hd : d ∈ ds)
    (hefa : d.listedEFA = true) (hi : i < (ds.filter (·.listedEFA)).length) :
    ∃ ds' : List Obj, ds'.Perm ds ∧ (ds'.filter (·.listedEFA))[i]? = some d := by
  have hmem : d ∈ ds.filter (·.listedEFA) := List.mem_filter.mpr ⟨hd, hefa⟩
  have hlen := List.length_erase_of_mem hmem
  have hroom : i ≤ ((ds.filter (·.listedEFA)).erase d).length := by omega
  refine ⟨((ds.filter (·.listedEFA)).erase d).insertIdx i d ++ ds.filter (!·.listedEFA), ?_, ?_⟩
  · have hefas : (((ds.filter (·.listedEFA)).erase d).insertIdx i d).Perm
        (ds.filter (·.listedEFA)) :=
      (List.perm_insertIdx _ _ hroom).trans (List.perm_cons_erase hmem).symm
    exact (hefas.append_right _).trans (List.filter_append_perm _ _)
  · have hall : ∀ e ∈ ((ds.filter (·.listedEFA)).erase d).insertIdx i d, e.listedEFA = true := by
      intro e he
      rcases List.eq_or_mem_of_mem_insertIdx he with rfl | he
      · exact hefa
      · exact (List.mem_filter.mp (List.mem_of_mem_erase he)).2
    have hnone : (ds.filter (!·.listedEFA)).filter (·.listedEFA) = [] :=
      List.filter_eq_nil_iff.mpr fun e he => by simpa using (List.mem_filter.mp he).2
    rw [List.filter_append, List.filter_eq_self.mpr hall, hnone, List.append_nil,
      List.getElem?_insertIdx_self, if_pos hroom]

/-- The devices of every bridge in another order. -/
def Numanode.reorder (f : List Obj → List Obj) (numa : Numanode) : Numanode :=
  { numa with bridge := numa.bridge.map fun e => (e.1, f e.2) }

theorem forall₂_reordered_reorder {f : List Obj → List Obj} (hf : ∀ ds, (f ds).Perm ds)
    (nodes : List Numanode) : List.Forall₂ Numanode.Reordered nodes (nodes.map (·.reorder f)) := by
  rw [List.forall₂_map_right_iff, List.forall₂_same]
  refine fun numa _ => ⟨rfl, List.Perm.refl _, numa.bridge, List.Perm.refl _, ?_⟩
  rw [Numanode.reorder, List.forall₂_map_right_iff, List.forall₂_same]
  exact fun e _ => ⟨rfl, hf e.2⟩

/-- What `GetAffinity` returns in some order. -/
theorem getAffinity_reordered (hpci : ((devices nodes).map Obj.pciAddress).Nodup)
    (hre : List.Forall₂ Numanode.Reordered nodes nodes') :
    getAffinity lib nodes' m nvml = .ok affinity ↔
      ∃ pcis, Checked nodes m nvml pcis ∧ affinity = table lib m nodes' pcis := by
  have hn : (devices nodes').Nodup := (devices_perm hre).nodup_iff.mpr hpci.of_map
  rw [getAffinity_eq_map hn, checks_eq_of_perm (devices_perm hre)]
  constructor
  · intro h
    cases hpcis : checks nodes m nvml with
    | error e =>
      rw [hpcis] at h
      cases h
    | ok pcis =>
      rw [hpcis] at h
      exact ⟨pcis, checks_eq_ok.mp hpcis, (Except.ok.inj h).symm⟩
  · rintro ⟨pcis, hpcis, rfl⟩
    rw [checks_eq_ok.mpr hpcis]
    rfl

theorem nodup_of_reordered (hpci : ((devices nodes).map Obj.pciAddress).Nodup)
    (hre : List.Forall₂ Numanode.Reordered nodes nodes') :
    ((devices nodes').map Obj.pciAddress).Nodup :=
  ((devices_perm hre).map _).nodup_iff.mpr hpci

theorem Checked.reordered (hc : Checked nodes m nvml pcis)
    (hre : List.Forall₂ Numanode.Reordered nodes nodes') : Checked nodes' m nvml pcis :=
  checks_eq_ok.mp ((checks_eq_of_perm (devices_perm hre)).trans (checks_eq_ok.mpr hc))

/-- What is at a place among the EFA devices of a site, with its `fi_info`. -/
theorem exists_of_efasOf {k : ℕ} (hc : Checked nodes m nvml pcis) (hs : s ∈ sites nodes)
    (h : ((efasOf m s.2.2)[i]?).map Prod.snd = some k) :
    ∃ d ∈ s.2.2, d.listedEFA = true ∧ (s.2.2.filter (·.listedEFA))[i]? = some d ∧
      m d.pciAddress = some k := by
  rw [efasOf, List.getElem?_map, Option.map_map] at h
  obtain ⟨d, hd, hk⟩ := Option.map_eq_some_iff.mp h
  obtain ⟨hmem, hlisted⟩ := List.mem_filter.mp (List.mem_of_getElem? hd)
  obtain ⟨k', hk'⟩ := Option.isSome_iff_exists.mp
    (hc.paired d (List.mem_flatMap.mpr ⟨s, hs, hmem⟩) hlisted)
  refine ⟨d, hmem, hlisted, hd, ?_⟩
  rw [hk', ← hk, Function.comp_apply, hk', Option.getD_some]

/-- **The core of its rank, and any NIC of the bridge.** -/
theorem mayPlace_iff (hpci : ((devices nodes).map Obj.pciAddress).Nodup) :
    Peer.MayPlace nodes m nvml rank place ↔ ∃ pcis s, Checked nodes m nvml pcis ∧
      Peer.Seat nodes pcis rank s ∧ place.device = rank ∧
      (indexesAt s)[rank]? = some place.cpu ∧
      ∃ d ∈ s.2.2, d.listedEFA = true ∧ m d.pciAddress = some place.efa := by
  constructor
  · rintro ⟨lib, nodes', affinity, hre, ha, hplace⟩
    obtain ⟨pcis, hc, rfl⟩ := (getAffinity_reordered hpci hre).mp ha
    obtain ⟨s', hs', ⟨pci, hpcis, gpu, hgpu, his, hispci⟩, hdevice, hcpu, hefa⟩ :=
      (place_table_eq_some lib (nodup_of_reordered hpci hre) (hc.reordered hre)).mp hplace
    obtain ⟨s, hs, hnuma, hdev⟩ := exists_site hre hs'
    rw [indexesAt_eq_of_perm hnuma.cores] at hcpu
    obtain ⟨d, hd, hlisted, hget, hefa⟩ := exists_of_efasOf (hc.reordered hre) hs' hefa
    have hlen := (hdev.filter (·.listedEFA)).length_eq
    exact ⟨pcis, s, hc, ⟨hs, ⟨pci, hpcis, gpu, hdev.mem_iff.mp hgpu, his, hispci⟩,
      length_indexesAt s ▸ (List.getElem?_eq_some_iff.mp hcpu).1,
      hlen ▸ (List.getElem?_eq_some_iff.mp hget).1⟩, hdevice, hcpu, d, hdev.mem_iff.mp hd,
      hlisted, hefa⟩
  · rintro ⟨pcis, s, hc, seat, hdevice, hcpu, d, hd, hlisted, hefa⟩
    -- the devices of this bridge come with `d` at the place of the rank
    obtain ⟨ds, hds, hget⟩ := exists_perm_getElem? hd hlisted seat.efa
    let f : List Obj → List Obj := fun l => if l = s.2.2 then ds else l
    have hf : ∀ l, (f l).Perm l := by
      intro l
      dsimp only [f]
      split
      · rename_i h
        rw [h]
        exact hds
      · exact List.Perm.refl l
    have hfs : f s.2.2 = ds := if_pos rfl
    have hre := forall₂_reordered_reorder hf nodes
    have hs' : (s.1.reorder f, s.2.1, ds) ∈ sites (nodes.map (·.reorder f)) := by
      obtain ⟨hnuma, hbridge⟩ := mem_sites_iff.mp seat.site
      exact mem_sites_iff.mpr ⟨List.mem_map_of_mem hnuma,
        List.mem_map.mpr ⟨s.2, hbridge, by rw [hfs]⟩⟩
    obtain ⟨pci, hpcis, gpu, hgpu, his⟩ := seat.gpu
    refine ⟨.listed, _, _, hre, (getAffinity_reordered hpci hre).mpr ⟨pcis, hc, rfl⟩,
      (place_table_eq_some .listed (nodup_of_reordered hpci hre) (hc.reordered hre)).mpr
        ⟨_, hs', ⟨pci, hpcis, gpu, hds.mem_iff.mpr hgpu, his⟩, hdevice, hcpu, ?_⟩⟩
    rw [efasOf, List.getElem?_map, hget, Option.map_some, Option.map_some, hefa]
    rfl

/-! ## Two processes -/

/-- A core is filed with one package, so it is at one node. -/
theorem numanode_eq {c : Obj} (ht : t.Distinct) (h : traverse t none [] = .ok nodes)
    (h₁ : s₁ ∈ sites nodes) (h₂ : s₂ ∈ sites nodes) (hc₁ : c ∈ s₁.1.cores)
    (hc₂ : c ∈ s₂.1.cores) : s₁.1 = s₂.1 := by
  have hapart : nodes.Pairwise fun numa numa' => ∀ c ∈ numa.cores, c ∉ numa'.cores := by
    refine pairwise_of_forall₂ (holds_of_traverse ht h) ht.packages ?_
    intro p p' numa numa' hh hh' hne c hc hc'
    obtain ⟨-, x, hx, hxc⟩ := (hh.cores.2 c).mp hc
    obtain ⟨-, y, hy, hyc⟩ := (hh'.cores.2 c).mp hc'
    obtain ⟨hx, hxp⟩ := mem_filedWith.mp hx
    obtain ⟨hy, hyp⟩ := mem_filedWith.mp hy
    obtain rfl := ht.filing_eq hx hy (hxc.trans hyc.symm)
    exact hne (Option.some.inj (hxp.symm.trans hyp))
  have : Std.Symm fun numa numa' : Numanode => ∀ c ∈ numa.cores, c ∉ numa'.cores :=
    ⟨fun _ _ h c hc hc' => h c hc' hc⟩
  by_contra hne
  exact hapart.forall (mem_sites_iff.mp h₁).1 (mem_sites_iff.mp h₂).1 hne c hc₁ hc₂

/-- **Two ranks have two cores**, at one node or at two. -/
theorem index_ne {k l : ℕ} (ht : t.Distinct) (h : traverse t none [] = .ok nodes)
    (hidx : ((coresOf t.reached).map (·.logicalIndex)).Nodup) (h₁ : s₁ ∈ sites nodes)
    (h₂ : s₂ ∈ sites nodes) (hij : i ≠ j) (hk : (indexesAt s₁)[i]? = some k)
    (hl : (indexesAt s₂)[j]? = some l) : k ≠ l := by
  rintro rfl
  have hcore : ∀ {s} {r : ℕ}, s ∈ sites nodes → (indexesAt s)[r]? = some k →
      ∃ c ∈ s.1.cores, c ∈ coresOf t.reached ∧ c.logicalIndex = k := by
    intro s r hs hr
    have hmem := (List.perm_insertionSort _ _).mem_iff.mp (List.mem_of_getElem? hr)
    obtain ⟨c, hc, hck⟩ := List.mem_map.mp hmem
    obtain ⟨p, -, hh⟩ := exists_of_forall₂_right (holds_of_traverse ht h) (mem_sites_iff.mp hs).1
    obtain ⟨hisc, x, hx, rfl⟩ := (hh.cores.2 c).mp hc
    exact ⟨_, hc, List.mem_filter.mpr
      ⟨List.mem_map_of_mem (mem_of_filing (mem_filedWith.mp hx).1), hisc⟩, hck⟩
  obtain ⟨c, hc, hreached, hck⟩ := hcore h₁ hk
  obtain ⟨c', hc', hreached', hck'⟩ := hcore h₂ hl
  obtain rfl := List.inj_on_of_nodup_map hidx hreached hreached' (hck.trans hck'.symm)
  have hnuma := numanode_eq ht h h₁ h₂ hc hc'
  have hnodup : (indexesAt s₁).Nodup :=
    (List.perm_insertionSort _ _).nodup_iff.mpr (nodup_logicalIndex ht h hidx h₁)
  rw [indexesAt, ← hnuma, ← indexesAt] at hl
  exact hij ((List.getElem?_inj (List.getElem?_eq_some_iff.mp hk).1 hnodup).mp (hk.trans hl.symm))

/-- An `fi_info` is one device's. -/
theorem device_eq {d d' : Obj} {k : ℕ} (hm : getPCIInfoMap infos = .ok m)
    (hpci : ((devices nodes).map Obj.pciAddress).Nodup) (hd : d ∈ devices nodes)
    (hd' : d' ∈ devices nodes) (hk : m d.pciAddress = some k) (hk' : m d'.pciAddress = some k) :
    d = d' := by
  rw [getPCIInfoMap_eq hm] at hk hk'
  obtain ⟨_, haddr, -⟩ := List.findIdx?_eq_some_iff_getElem.mp hk
  obtain ⟨_, haddr', -⟩ := List.findIdx?_eq_some_iff_getElem.mp hk'
  exact List.inj_on_of_nodup_map hpci hd hd' (Except.ok.inj
    ((of_decide_eq_true haddr).symm.trans (of_decide_eq_true haddr')))

/-- In one table no two ranks have one NIC. -/
theorem efa_ne (hm : getPCIInfoMap infos = .ok m)
    (hpci : ((devices nodes).map Obj.pciAddress).Nodup) (hc : Checked nodes m nvml pcis)
    (hij : i ≠ j) (hp : Peer.place (table lib m nodes pcis) i = some p)
    (hq : Peer.place (table lib m nodes pcis) j = some q) : p.efa ≠ q.efa := by
  obtain ⟨s₁, hs₁, -, -, -, hefa₁⟩ := (place_table_eq_some lib hpci hc).mp hp
  obtain ⟨s₂, hs₂, -, -, -, hefa₂⟩ := (place_table_eq_some lib hpci hc).mp hq
  obtain ⟨d, hd, -, hget, hk⟩ := exists_of_efasOf hc hs₁ hefa₁
  obtain ⟨d', hd', -, hget', hk'⟩ := exists_of_efasOf hc hs₂ hefa₂
  intro hefa
  obtain rfl := device_eq hm hpci (List.mem_flatMap.mpr ⟨s₁, hs₁, hd⟩)
    (List.mem_flatMap.mpr ⟨s₂, hs₂, hd'⟩) hk (hefa ▸ hk')
  obtain rfl := site_eq hpci.of_map hs₁ hs₂ hd hd'
  have hnodup : (s₁.2.2.filter (·.listedEFA)).Nodup :=
    ((List.nodup_flatMap.mp hpci.of_map).1 s₁ hs₁).filter _
  exact hij ((List.getElem?_inj (List.getElem?_eq_some_iff.mp hget).1 hnodup).mp
    (hget.trans hget'.symm))

/-- **The peers of one machine.** Processes of two local ranks never share a GPU or a CPU, whatever
orders each of them iterates in, and in one order they do not share a NIC. In orders of their
own they may be given one NIC, exactly if both have their seats on one host bridge. -/
theorem mayPlace_share_iff (nvml : Nvml) (ht : t.Distinct) (h : traverse t none [] = .ok nodes)
    (hidx : ((coresOf t.reached).map (·.logicalIndex)).Nodup)
    (hpci : ((devices nodes).map Obj.pciAddress).Nodup) (hm : getPCIInfoMap infos = .ok m)
    (hij : i ≠ j) :
    (∀ p q, Peer.MayPlace nodes m nvml i p → Peer.MayPlace nodes m nvml j q →
      p.device ≠ q.device ∧ p.cpu ≠ q.cpu) ∧
    (∀ lib nodes' affinity p q, List.Forall₂ Numanode.Reordered nodes nodes' →
      getAffinity lib nodes' m nvml = .ok affinity → Peer.place affinity i = some p →
        Peer.place affinity j = some q → p.efa ≠ q.efa) ∧
    ((∃ p q, Peer.MayPlace nodes m nvml i p ∧ Peer.MayPlace nodes m nvml j q ∧ p.efa = q.efa) ↔
      ∃ pcis s, Checked nodes m nvml pcis ∧ Peer.Seat nodes pcis i s ∧
        Peer.Seat nodes pcis j s) := by
  simp only [mayPlace_iff hpci]
  refine ⟨?_, ?_, ?_, ?_⟩
  · rintro p q ⟨_, s₁, -, seat₁, hp, hcpu₁, -⟩ ⟨_, s₂, -, seat₂, hq, hcpu₂, -⟩
    exact ⟨hp ▸ hq ▸ hij, index_ne ht h hidx seat₁.site seat₂.site hij hcpu₁ hcpu₂⟩
  · intro lib nodes' affinity p q hre ha hp hq
    obtain ⟨pcis, hc, rfl⟩ := (getAffinity_reordered hpci hre).mp ha
    exact efa_ne hm (nodup_of_reordered hpci hre) (hc.reordered hre) hij hp hq
  · rintro ⟨p, q, ⟨pcis, s₁, hc, seat₁, -, -, d, hd, -, hp⟩,
      ⟨pcis', s₂, hc', seat₂, -, -, d', hd', -, hq⟩, hefa⟩
    -- NVML answers once
    have hpcis : pcis = pcis' := Except.ok.inj
      ((checks_eq_ok.mpr hc).symm.trans (checks_eq_ok.mpr hc'))
    subst hpcis
    have hmem : d ∈ devices nodes := List.mem_flatMap.mpr ⟨s₁, seat₁.site, hd⟩
    have hmem' : d' ∈ devices nodes := List.mem_flatMap.mpr ⟨s₂, seat₂.site, hd'⟩
    obtain rfl := device_eq hm hpci hmem hmem' hp (hefa ▸ hq)
    obtain rfl := site_eq hpci.of_map seat₁.site seat₂.site hd hd'
    exact ⟨pcis, s₁, hc, seat₁, seat₂⟩
  · rintro ⟨pcis, s, hc, seat₁, seat₂⟩
    obtain ⟨d, hd⟩ := List.exists_mem_of_length_pos (by
      have := seat₁.efa
      omega : 0 < (s.2.2.filter (·.listedEFA)).length)
    obtain ⟨hd, hlisted⟩ := List.mem_filter.mp hd
    obtain ⟨k, hk⟩ := Option.isSome_iff_exists.mp
      (hc.paired d (List.mem_flatMap.mpr ⟨s, seat₁.site, hd⟩) hlisted)
    have hcore : ∀ {r : ℕ}, r < s.1.cores.length → ∃ n, (indexesAt s)[r]? = some n := fun hr =>
      ⟨_, List.getElem?_eq_getElem (length_indexesAt s ▸ hr)⟩
    obtain ⟨n₁, hn₁⟩ := hcore seat₁.core
    obtain ⟨n₂, hn₂⟩ := hcore seat₂.core
    exact ⟨⟨i, n₁, k⟩, ⟨j, n₂, k⟩, ⟨pcis, s, hc, seat₁, rfl, hn₁, d, hd, hlisted, hk⟩,
      ⟨pcis, s, hc, seat₂, rfl, hn₂, d, hd, hlisted, hk⟩, rfl⟩

namespace Interleaved

/-- Where both GPUs are listed. -/
def site : Numanode × Obj × List Obj :=
  (⟨none, [core 2 0 0, core 4 1 1],
      [(bridge, [Clusters.gpu 21 1, Clusters.gpu 22 2, Clusters.efa 30 3, Clusters.efa 40 4])]⟩,
    bridge, [Clusters.gpu 21 1, Clusters.gpu 22 2, Clusters.efa 30 3, Clusters.efa 40 4])

/-- What NVML says of the two. -/
def reported : List NvmlPciInfo := [⟨0, 1, 0⟩, ⟨0, 2, 0⟩]

/-- The two processes of the machine have two CPUs, and may have one NIC. -/
theorem mayPlace_share_iff_machine : traverse (machine id) none [] = .ok (numanodes id) ∧
    ∃ m, getPCIInfoMap infoList = .ok m ∧
      (∀ p q, Peer.MayPlace (numanodes id) m enumeration 0 p →
        Peer.MayPlace (numanodes id) m enumeration 1 q → p.device ≠ q.device ∧ p.cpu ≠ q.cpu) ∧
      ∃ p q, Peer.MayPlace (numanodes id) m enumeration 0 p ∧
        Peer.MayPlace (numanodes id) m enumeration 1 q ∧ p.efa = q.efa := by
  have hwalk : traverse (machine id) none [] = .ok (numanodes id) := by decide +kernel
  obtain ⟨m, hm, hc⟩ : ∃ m, getPCIInfoMap infoList = .ok m ∧
      checks (numanodes id) m enumeration = .ok reported := ⟨_, rfl, rfl⟩
  have hfirst : Peer.Seat (numanodes id) reported 0 site :=
    ⟨by decide, ⟨_, rfl, Clusters.gpu 21 1, by decide⟩, by decide, by decide⟩
  have hsecond : Peer.Seat (numanodes id) reported 1 site :=
    ⟨by decide, ⟨_, rfl, Clusters.gpu 22 2, by decide⟩, by decide, by decide⟩
  obtain ⟨hcpu, -, hefa⟩ := mayPlace_share_iff enumeration (by decide) hwalk (by decide)
    (by decide) hm Nat.zero_ne_one
  exact ⟨hwalk, m, hm, hcpu, hefa.mpr ⟨reported, site, checks_eq_ok.mp hc, hfirst, hsecond⟩⟩

end Interleaved

end EfaExamples
