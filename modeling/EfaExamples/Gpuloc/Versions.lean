import EfaExamples.Gpuloc.Model.Versions
import EfaExamples.Gpuloc.Sharing
/-!
# The three versions of `GPUloc`

Each version adds to the one before. The second puts the map of the first in
the order of NVML, and the third is the second with the `fi_info` of each EFA
device, and one more reason to throw.
-/

namespace EfaExamples

variable {nodes : List Numanode} {m : PciInfoMap} {nvml : Nvml} {pcis : List NvmlPciInfo}
variable {lib : Unspecified} {early early' : Bare.Unspecified} {ds : List Obj}

/-- An entry without the `fi_info` of its EFA devices. -/
def GPUAffinity.bare (loc : GPUAffinity) : Bare.GPUAffinity :=
  { gpu := loc.gpu
    numanode := loc.numanode
    cores := loc.cores
    efas := loc.efas.map Prod.fst }

namespace Bare

/-- The sorting of an earlier version, for the later one. -/
def Unspecified.later (early : Bare.Unspecified) : EfaExamples.Unspecified where
  iterate := id
  iterate_perm := List.Perm.refl
  sort := early.sort
  sort_perm := early.sort_perm
  sort_sorted := early.sort_sorted

end Bare

/-! ## The map of the GPUs -/

theorem classify_bare (ds : List Obj) :
    Bare.classify ds = (ds.filter (·.isGPU), ds.filter (·.listedEFA)) := by
  induction ds with
  | nil => rfl
  | cons d ds ih =>
    rw [Bare.classify, ih]
    cases hg : d.isGPU <;> cases he : d.isEFA <;> simp [Obj.listedEFA, hg, he]

theorem assign_bare (loc : GPUAffinity) (gpuloc : List GPUAffinity) :
    (assign loc gpuloc).map (·.bare) = Bare.assign loc.bare (gpuloc.map (·.bare)) := by
  have hany : (gpuloc.map (·.bare)).any (·.gpu == loc.bare.gpu) =
      gpuloc.any (·.gpu == loc.gpu) := List.any_map
  rw [assign, Bare.assign, hany]
  split
  · rw [List.map_map, List.map_map]
    refine List.map_congr_left fun l _ => ?_
    exact apply_ite GPUAffinity.bare (l.gpu = loc.gpu) loc l
  · rw [List.map_append, List.map_singleton]

/-- What the loop over the bridges makes of a node is the same, but for the `fi_info`. -/
theorem locateBridge_bare {numa : Numanode} {gpuloc gpuloc' : List GPUAffinity}
    {bridge : Obj × List Obj} (hsort : lib.sort numa.cores = early.sort numa.cores)
    (h : locateBridge lib m numa gpuloc bridge = .ok gpuloc') :
    Bare.locateBridge early numa (gpuloc.map (·.bare)) bridge = gpuloc'.map (·.bare) := by
  have hp : Paired m bridge.2 := by
    by_contra hp
    rw [locateBridge, classify_eq_error hp] at h
    cases h
  rw [locateBridge, classify_eq_ok hp] at h
  obtain rfl := Except.ok.inj h
  rw [Bare.locateBridge, classify_bare, ← map_fst_efasOf (m := m), ← hsort]
  exact List.foldl_hom (List.map GPUAffinity.bare) fun gpuloc gpu =>
    (assign_bare (entryAt lib m (numa, bridge) gpu) gpuloc).symm

/-- **The map is the same**, if the cores of a node are sorted in one way only. -/
theorem locate_bare (hn : (devices nodes).Nodup) (hp : Paired m (devices nodes))
    (hsort : ∀ numa ∈ nodes, lib.sort numa.cores = early.sort numa.cores) :
    Bare.locate early nodes = (entries lib m nodes).map (·.bare) := by
  have h : locate lib m nodes = .ok (entries lib m nodes) := (locate_eq_ite hn).trans (if_pos hp)
  refine foldl_of_foldlM (List.map GPUAffinity.bare) (fun numa hnuma g g' hg => ?_) h
  exact foldl_of_foldlM (List.map GPUAffinity.bare) (fun bridge _ l l' hl =>
    locateBridge_bare (hsort numa hnuma) hl) hg

/-- Where the logical indexes of a node are distinct, its cores are sorted in one way only. -/
theorem sort_eq_sort (hidx : ∀ numa ∈ nodes, (numa.cores.map (·.logicalIndex)).Nodup) :
    ∀ numa ∈ nodes, lib.sort numa.cores = early.sort numa.cores := by
  intro numa hnuma
  have hsort : lib.sort numa.cores = early.later.sort numa.cores :=
    sort_eq (hidx numa hnuma) (List.Perm.refl _) (List.Perm.refl _)
  exact hsort

/-! ## The vector by index -/

/-- Where the addresses are distinct, an index finds the same in every order. -/
theorem found_bare (hpci : ((devices nodes).map Obj.pciAddress).Nodup) (pci : NvmlPciInfo) :
    (early.iterate ((entries lib m nodes).map (·.bare))).filter (·.gpu.is pci) =
      (found lib m nodes pci).map (·.bare) := by
  have hperm : ((early.iterate ((entries lib m nodes).map (·.bare))).filter (·.gpu.is pci)).Perm
      ((found lib m nodes pci).map (·.bare)) := by
    refine ((early.iterate_perm _).filter _).trans ?_
    rw [List.filter_map]
    exact (((lib.iterate_perm _).filter _).map _).symm
  have hone : (found lib m nodes pci).length ≤ 1 := by
    rw [length_found, gpus, List.filter_filter]
    exact length_filter_le_one hpci fun d hd => Obj.is_iff.mp (Bool.and_elim_left hd)
  refine eq_of_forall_mem_eq hperm.length_eq fun a ha b hb => ?_
  exact eq_of_length_le_one (by rwa [List.length_map]) (hperm.mem_iff.mp ha) hb

theorem indexed_bare {gpuloc : List GPUAffinity} {early : List Bare.GPUAffinity}
    (h : ∀ pci, early.filter (·.gpu.is pci) = (gpuloc.filter (·.gpu.is pci)).map (·.bare))
    (is : List ℕ) :
    Bare.indexed nvml early is = (indexed nvml gpuloc is).map (List.map (·.bare)) := by
  induction is with
  | nil => rfl
  | cons i is ih =>
    rw [Bare.indexed, indexed, ih]
    cases nvml.pciInfo i with
    | error e => rfl
    | ok pci =>
      cases indexed nvml gpuloc is with
      | error e => rfl
      | ok affinity =>
        show Except.ok _ = Except.ok _
        rw [h, List.map_append]

/-- **The third version is the second behind one more check.** -/
theorem getAffinity_bare (lib : Unspecified) (early : Bare.Unspecified) (m : PciInfoMap)
    (nvml : Nvml) (hpci : ((devices nodes).map Obj.pciAddress).Nodup)
    (hsort : ∀ numa ∈ nodes, lib.sort numa.cores = early.sort numa.cores) :
    (getAffinity lib nodes m nvml).map (List.map (·.bare)) =
      if Paired m (devices nodes) then Bare.getAffinity early nodes nvml
      else .error (.outOfRange "map::at") := by
  rw [getAffinity, locate_eq_ite hpci.of_map]
  by_cases hp : Paired m (devices nodes)
  · rw [if_pos hp, if_pos hp, Bare.getAffinity, locate_bare hpci.of_map hp hsort]
    simp only [bind, Except.bind, List.length_map, indexed_bare (found_bare hpci)]
    cases nvmlCheck "nvmlDeviceGetCount(&count)" nvml.deviceGetCount with
    | error e => rfl
    | ok count =>
      dsimp only
      cases assertion "count == gpuloc.size()" (count = (entries lib m nodes).length) with
      | error e => rfl
      | ok u =>
        dsimp only
        cases indexed nvml (lib.iterate (entries lib m nodes)) (List.range count) with
        | error e => rfl
        | ok affinity =>
          simp only [Except.map, List.length_map]
          cases assertion "gpuloc.size() == affinity.size()"
            ((entries lib m nodes).length = affinity.length) <;> rfl
  · rw [if_neg hp, if_neg hp]
    rfl

/-- **The vector holds each entry of the map once**, if no two indices are one device. -/
theorem table_perm (hpci : ((devices nodes).map Obj.pciAddress).Nodup) (hnvml : nvml.Distinct)
    (hc : Checked nodes m nvml pcis) : (table lib m nodes pcis).Perm (entries lib m nodes) := by
  have hpcis : pcis.Pairwise (· ≠ ·) := by
    have hanswered := forall₂_imp_of_mem hc.answered
      (S := fun i pci => i < (gpus nodes).length ∧ nvml.pciInfo i = .ok pci)
      fun i hi pci hpci => ⟨List.mem_range.mp hi, hpci⟩
    refine pairwise_of_forall₂ hanswered List.nodup_range ?_
    rintro i j p q ⟨hi, hp⟩ ⟨hj, hq⟩ hij rfl
    exact hij (hnvml _ hc.count i hi j hj p hp hq)
  have hnodup : (table lib m nodes pcis).Nodup := by
    refine pairwise_of_forall₂ (found_table lib hpci hc) hpcis ?_
    rintro p q loc loc' hp hq hpq rfl
    have hloc := mem_found.mp (hp ▸ List.mem_singleton_self loc)
    have hloc' := mem_found.mp (hq ▸ List.mem_singleton_self loc)
    exact hpq ((Obj.sameDevice_of_is hloc.2).eq (Obj.sameDevice_of_is hloc'.2))
  have hsub : table lib m nodes pcis ⊆ entries lib m nodes := by
    intro loc hloc
    obtain ⟨pci, -, hloc⟩ := List.mem_flatMap.mp hloc
    exact (mem_found.mp hloc).1
  have hlen : (entries lib m nodes).length = (gpus nodes).length := by
    rw [← map_gpu_entries lib m nodes, List.length_map]
  refine (hnodup.subperm hsub).perm_of_length_le ?_
  rw [length_table, ← hc.found, hlen]

/-- The vector of the second version holds each entry of its map once. -/
theorem perm_locate {affinity : List Bare.GPUAffinity}
    (hpci : ((devices nodes).map Obj.pciAddress).Nodup) (hnvml : nvml.Distinct)
    (h : Bare.getAffinity early nodes nvml = .ok affinity) :
    affinity.Perm (Bare.locate early nodes) := by
  -- with an `fi_info` for every address the third version tells of the other two
  let m : PciInfoMap := fun _ => some 0
  have hp : Paired m (devices nodes) := fun _ _ _ => rfl
  have hbare := getAffinity_bare early.later early m nvml hpci fun _ _ => rfl
  rw [if_pos hp, h, getAffinity_eq_map hpci.of_map] at hbare
  have hlocate : Bare.locate early nodes = (entries early.later m nodes).map (·.bare) :=
    locate_bare hpci.of_map hp fun _ _ => rfl
  cases hpcis : checks nodes m nvml with
  | error e =>
    rw [hpcis] at hbare
    cases hbare
  | ok pcis =>
    rw [hpcis] at hbare
    obtain rfl := Except.ok.inj hbare
    rw [hlocate]
    exact (table_perm hpci hnvml (checks_eq_ok.mp hpcis)).map _

/-- **The versions agree.** Without the `fi_info` the third returns and throws what the second does,
but for the EFA devices that have none. The vector of the second holds each entry of the map of
the first once, if no two indices are one device. -/
theorem versions_agree (lib : Unspecified) (early early' : Bare.Unspecified) (m : PciInfoMap)
    (nvml : Nvml) (hpci : ((devices nodes).map Obj.pciAddress).Nodup)
    (hidx : ∀ numa ∈ nodes, (numa.cores.map (·.logicalIndex)).Nodup) :
    (getAffinity lib nodes m nvml).map (List.map (·.bare)) =
      (if Paired m (devices nodes) then Bare.getAffinity early nodes nvml
      else .error (.outOfRange "map::at")) ∧
    (nvml.Distinct → ∀ affinity, Bare.getAffinity early nodes nvml = .ok affinity →
      affinity.Perm (Bare.locate early' nodes)) := by
  refine ⟨getAffinity_bare lib early m nvml hpci (sort_eq_sort hidx), fun hnvml affinity h => ?_⟩
  have hlocate : ∀ early : Bare.Unspecified,
      Bare.locate early nodes = (entries lib (fun _ => some 0) nodes).map (·.bare) := fun _ =>
    locate_bare hpci.of_map (fun _ _ _ => rfl) (sort_eq_sort hidx)
  rw [hlocate early', ← hlocate early]
  exact perm_locate hpci hnvml h

/-! ## What is printed -/

theorem isSome_mapM {α β : Type} {f : α → Option β} {l : List α} :
    (l.mapM f).isSome = true ↔ ∀ a ∈ l, (f a).isSome = true := by
  induction l with
  | nil => simp
  | cons a l ih =>
    rw [List.mapM_cons, List.forall_mem_cons, ← ih]
    cases f a <;> cases l.mapM f <;> simp

theorem isSome_printEntry {head : String} {loc : Bare.GPUAffinity} :
    (Bare.printEntry head loc).isSome = true ↔
      loc.numanode.isSome = true ∧ loc.cores ≠ [] := by
  obtain ⟨gpu, numanode, cores, efas⟩ := loc
  rw [Bare.printEntry]
  cases numanode with
  | none => simp
  | some n =>
    cases cores with
    | nil => simp
    | cons c cores => simp [List.getLast?_cons]

/-- **A GPU can be printed** if its package has a NUMA node and a core below it. -/
def Printable (t : Obj) (x : Filing) : Prop :=
  ∃ p, x.package = some p ∧ (∃ y ∈ filedWith p t.reached, y.obj.isNumaNode = true) ∧
    ∃ y ∈ filedWith p t.reached, y.obj.isCore = true

/-- What an earlier version prints of a GPU is of the GPU's package. -/
theorem printable_iff {t gpu : Obj} {nodes' : List Numanode} {s : Numanode × Obj × List Obj}
    (ht : t.Distinct) (h : traverse t none [] = .ok nodes)
    (hre : List.Forall₂ Numanode.Reordered nodes nodes') (hs : s ∈ sites nodes')
    (hgpu : gpu ∈ s.2.2) : ∃ x ∈ filings none t.reached, x.obj = gpu ∧
      (Printable t x ↔ s.1.numanode.isSome = true ∧ early.sort s.1.cores ≠ []) := by
  obtain ⟨s₀, hs₀, hnuma, hdev⟩ := exists_site hre hs
  obtain ⟨hnuma₀, hbridge⟩ := mem_sites_iff.mp hs₀
  obtain ⟨p, -, hh⟩ := exists_of_forall₂_right (holds_of_traverse ht h) hnuma₀
  obtain ⟨-, x, hx, rfl, -⟩ := ((hh.devices s₀.2 hbridge).2 gpu).mp (hdev.mem_iff.mp hgpu)
  obtain ⟨hx, hp⟩ := mem_filedWith.mp hx
  have hcores : (early.sort s.1.cores).Perm s₀.1.cores := (early.sort_perm _).trans hnuma.cores
  refine ⟨x, hx, rfl, ?_⟩
  have hne : ∀ l : List Obj, l ≠ [] ↔ ∃ a, a ∈ l := fun l =>
    ⟨List.exists_mem_of_ne_nil l, fun ⟨_, ha⟩ => List.ne_nil_of_mem ha⟩
  have hnode : s.1.numanode.isSome = true ↔ ∃ y ∈ filedWith p t.reached, y.obj.isNumaNode = true := by
    rw [hnuma.numanode, hh.numanode, List.getLast?_isSome, hne]
    simp
  have hcore : early.sort s.1.cores ≠ [] ↔ ∃ y ∈ filedWith p t.reached, y.obj.isCore = true := by
    rw [hne]
    simp only [hcores.mem_iff, hh.cores.2]
    constructor
    · rintro ⟨c, hc, y, hy, rfl⟩
      exact ⟨y, hy, hc⟩
    · rintro ⟨y, hy, hc⟩
      exact ⟨_, hc, y, hy, rfl⟩
  rw [hnode, hcore, Printable]
  constructor
  · rintro ⟨p', hp', hprint⟩
    obtain rfl := Option.some.inj (hp'.symm.trans hp)
    exact hprint
  · exact fun hprint => ⟨p, hp, hprint⟩

/-- **What `gpuloc` and `nvml` can print.** They follow no null pointer and take no end of an empty
vector exactly if every GPU met has a NUMA node and a core below its package. -/
theorem isSome_print_iff {t : Obj} {nodes' : List Numanode} (early early' : Bare.Unspecified)
    (ht : t.Distinct) (h : traverse t none [] = .ok nodes)
    (hre : List.Forall₂ Numanode.Reordered nodes nodes') :
    ((Bare.printMap early (Bare.locate early' nodes')).isSome = true ↔
      ∀ x ∈ filings none t.reached, x.obj.isGPU = true → Printable t x) ∧
    (((devices nodes).map Obj.pciAddress).Nodup → ∀ nvml : Nvml, nvml.Distinct →
      ∀ affinity, Bare.getAffinity early' nodes' nvml = .ok affinity →
        ((Bare.printVector affinity).isSome = true ↔
          ∀ x ∈ filings none t.reached, x.obj.isGPU = true → Printable t x)) := by
  have hn : (devices nodes').Nodup := (devices_perm hre).nodup_iff.mpr (nodup_devices ht h)
  have hlocate : Bare.locate early' nodes' =
      (entries early'.later (fun _ => some 0) nodes').map (·.bare) :=
    locate_bare hn (fun _ _ _ => rfl) fun _ _ => rfl
  have hall : (∀ loc ∈ Bare.locate early' nodes', loc.numanode.isSome = true ∧ loc.cores ≠ []) ↔
      ∀ x ∈ filings none t.reached, x.obj.isGPU = true → Printable t x := by
    rw [hlocate, List.forall_mem_map]
    constructor
    · intro hall x hx his
      have hpci : x.obj.isPCI = true := by
        by_contra hpci
        rw [Obj.isPCI, beq_iff_eq] at hpci
        simp [Obj.isGPU, hpci] at his
      have hmem : x.obj ∈ devices nodes' := (devices_perm hre).mem_iff.mpr
        ((mem_devices ht h).mpr ⟨hpci, x.toVisit, mem_of_filing hx, rfl⟩)
      obtain ⟨s, hs, hgpu⟩ := List.mem_flatMap.mp hmem
      obtain ⟨y, hy, hyx, hiff⟩ := printable_iff ht h hre hs hgpu
      obtain rfl := ht.filing_eq hx hy hyx.symm
      exact hiff.mpr (hall _ (mem_entries.mpr ⟨s, hs, _, hgpu, his, rfl⟩))
    · intro hall loc hloc
      obtain ⟨s, hs, gpu, hgpu, his, rfl⟩ := mem_entries.mp hloc
      obtain ⟨x, hx, rfl, hiff⟩ := printable_iff ht h hre hs hgpu
      exact hiff.mp (hall x hx his)
  constructor
  · rw [← hall, Bare.printMap, Option.isSome_map, isSome_mapM]
    simp only [(early.iterate_perm _).mem_iff, isSome_printEntry]
  · intro hpci nvml hnvml affinity haff
    have hperm := perm_locate (nodup_of_reordered hpci hre) hnvml haff
    rw [← hall, Bare.printVector, Option.isSome_map, isSome_mapM]
    simp only [isSome_printEntry, ← hperm.mem_iff]
    rw [← List.forall_mem_map (f := Prod.fst)
      (P := fun loc : Bare.GPUAffinity => loc.numanode.isSome = true ∧ loc.cores ≠ []),
      List.zipIdx_map_fst]

/-- The map of the GPUs iterated backwards. -/
def Bare.Unspecified.backwards : Bare.Unspecified where
  iterate := List.reverse
  iterate_perm := List.reverse_perm
  sort := EfaExamples.Unspecified.listed.sort
  sort_perm := EfaExamples.Unspecified.listed.sort_perm
  sort_sorted := EfaExamples.Unspecified.listed.sort_sorted

namespace OneEach

/-- The two GPUs in the three versions. -/
theorem versions_agree_machine : ∃ m, getPCIInfoMap Clusters.infoList = .ok m ∧
    (getAffinity .listed numanodes m Interleaved.enumeration).map (List.map (·.bare)) =
      Bare.getAffinity .backwards numanodes Interleaved.enumeration ∧
    ∃ affinity, Bare.getAffinity .backwards numanodes Interleaved.enumeration = .ok affinity ∧
      affinity.Perm (Bare.locate .backwards numanodes) := by
  obtain ⟨m, hm, hp⟩ : ∃ m, getPCIInfoMap Clusters.infoList = .ok m ∧
      Paired m (devices numanodes) := ⟨_, rfl, by decide⟩
  have hnvml : Interleaved.enumeration.Distinct := by
    intro count _ i _ j _ pci hi hj
    have h := Except.ok.inj (hi.trans hj.symm)
    simpa using congrArg NvmlPciInfo.bus h
  have hpci : ((devices numanodes).map Obj.pciAddress).Nodup := by decide
  obtain ⟨hbare, hperm⟩ := versions_agree .listed .backwards .backwards m Interleaved.enumeration
    hpci (by decide)
  rw [if_pos hp] at hbare
  exact ⟨m, hm, hbare, _, rfl, hperm hnvml _ rfl⟩

end OneEach

namespace Clusters

/-- Every GPU of the machine is printed. -/
theorem isSome_print_iff_machine :
    (Bare.printMap .backwards (Bare.locate .backwards numanodes)).isSome = true ∧
      ∀ x ∈ filings none machine.reached, x.obj.isGPU = true → Printable machine x := by
  have hprint : (Bare.printMap .backwards (Bare.locate .backwards numanodes)).isSome = true := by
    decide +kernel
  exact ⟨hprint, (isSome_print_iff .backwards .backwards (by decide) traverse_machine
    (forall₂_reordered_refl numanodes)).1.mp hprint⟩

end Clusters

end EfaExamples
