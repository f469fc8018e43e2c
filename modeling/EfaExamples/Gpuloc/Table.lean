import EfaExamples.Gpuloc.Model.Affinity
/-!
# The table of the GPUs, exactly

`GetAffinity` is a row of checks and a table. The checks look up each EFA device,
count the GPUs and ask NVML; none of them looks at an order. The table has an
entry for each GPU found, made from the site the GPU is listed at.
-/

namespace EfaExamples

variable {gpu : Obj} {nodes : List Numanode} {m : PciInfoMap} {lib : Unspecified} {nvml : Nvml}
variable {pci : NvmlPciInfo} {pcis : List NvmlPciInfo} {gpuloc : List GPUAffinity}
variable {ds : List Obj} {s : Numanode × Obj × List Obj} {ss : List (Numanode × Obj × List Obj)}

/-- An EFA device. `IsEFA` is asked only of what is not a GPU. -/
def Obj.listedEFA (l : Obj) : Bool := !l.isGPU && l.isEFA

/-- Where the devices of a topology are listed: the nodes with their bridges. -/
def sites (nodes : List Numanode) : List (Numanode × Obj × List Obj) :=
  nodes.flatMap fun numa => numa.bridge.map fun bridge => (numa, bridge)

/-- The PCI devices of a topology. -/
def devices (nodes : List Numanode) : List Obj := (sites nodes).flatMap fun s => s.2.2

/-- The GPUs of a topology. -/
def gpus (nodes : List Numanode) : List Obj := (devices nodes).filter (·.isGPU)

/-- Every EFA device has an `fi_info`. -/
def Paired (m : PciInfoMap) (ds : List Obj) : Prop :=
  ∀ d ∈ ds, d.listedEFA = true → (m d.pciAddress).isSome = true

instance (m : PciInfoMap) (ds : List Obj) : Decidable (Paired m ds) :=
  inferInstanceAs (Decidable (∀ d ∈ ds, _ → _))

/-- The EFA devices of a bridge, each with its `fi_info`. -/
def efasOf (m : PciInfoMap) (ds : List Obj) : List (Obj × ℕ) :=
  (ds.filter (·.listedEFA)).map fun d => (d, (m d.pciAddress).getD 0)

/-- The entry of a GPU at a site. -/
def entryAt (lib : Unspecified) (m : PciInfoMap) (s : Numanode × Obj × List Obj) (gpu : Obj) :
    GPUAffinity :=
  { gpu := gpu
    numanode := s.1.numanode
    cores := lib.sort s.1.cores
    efas := efasOf m s.2.2 }

/-- The entries of a site. -/
def entriesAt (lib : Unspecified) (m : PciInfoMap) (s : Numanode × Obj × List Obj) :
    List GPUAffinity :=
  (s.2.2.filter (·.isGPU)).map (entryAt lib m s)

/-- The entries of a topology. -/
def entries (lib : Unspecified) (m : PciInfoMap) (nodes : List Numanode) : List GPUAffinity :=
  (sites nodes).flatMap (entriesAt lib m)

/-! ## Where the devices are listed -/

theorem mem_sites_iff : s ∈ sites nodes ↔ s.1 ∈ nodes ∧ s.2 ∈ s.1.bridge := by
  rw [sites, List.mem_flatMap]
  constructor
  · rintro ⟨numa, hnuma, hs⟩
    obtain ⟨e, he, rfl⟩ := List.mem_map.mp hs
    exact ⟨hnuma, he⟩
  · rintro ⟨hnuma, he⟩
    exact ⟨s.1, hnuma, List.mem_map.mpr ⟨s.2, he, rfl⟩⟩

theorem mem_gpus : gpu ∈ gpus nodes ↔ ∃ s ∈ sites nodes, gpu ∈ s.2.2 ∧ gpu.isGPU = true := by
  rw [gpus, devices, List.mem_filter, List.mem_flatMap]
  constructor
  · rintro ⟨⟨s, hs, hgpu⟩, his⟩
    exact ⟨s, hs, hgpu, his⟩
  · rintro ⟨s, hs, hgpu, his⟩
    exact ⟨⟨s, hs, hgpu⟩, his⟩

/-! ## The devices of a bridge -/

theorem paired_cons {d : Obj} : Paired m (d :: ds) ↔
    (d.listedEFA = true → (m d.pciAddress).isSome = true) ∧ Paired m ds :=
  List.forall_mem_cons

theorem paired_append {ds' : List Obj} : Paired m (ds ++ ds') ↔ Paired m ds ∧ Paired m ds' :=
  List.forall_mem_append

theorem getFiInfo_eq (pci : Obj) (m : PciInfoMap) : getFiInfo pci m =
    if (m pci.pciAddress).isSome then .ok ((m pci.pciAddress).getD 0)
    else .error (.outOfRange "map::at") := by
  rw [getFiInfo, PciInfoMap.at]
  cases m pci.pciAddress <;> rfl

/-- Where every EFA device has its `fi_info`, the loop lists what there is. -/
theorem classify_eq_ok (hp : Paired m ds) :
    classify m ds = .ok (ds.filter (·.isGPU), efasOf m ds) := by
  induction ds with
  | nil => rfl
  | cons d ds ih =>
    rw [paired_cons] at hp
    rw [classify, ih hp.2]
    cases hg : d.isGPU with
    | true =>
      rw [if_pos rfl]
      simp [efasOf, Obj.listedEFA, hg, bind, Except.bind, pure, Except.pure]
    | false =>
      rw [if_neg Bool.false_ne_true]
      cases he : d.isEFA with
      | true =>
        have hsome := hp.1 (by simp [Obj.listedEFA, hg, he])
        rw [if_pos rfl, getFiInfo_eq, if_pos hsome]
        simp [efasOf, Obj.listedEFA, hg, he, bind, Except.bind, pure, Except.pure]
      | false =>
        rw [if_neg Bool.false_ne_true]
        simp [efasOf, Obj.listedEFA, hg, he]

/-- Where one has none, it throws the same wherever that one is. -/
theorem classify_eq_error (hp : ¬ Paired m ds) :
    classify m ds = .error (.outOfRange "map::at") := by
  induction ds with
  | nil => exact absurd (by simp [Paired]) hp
  | cons d ds ih =>
    rw [paired_cons, not_and_or] at hp
    rw [classify]
    cases hg : d.isGPU with
    | true =>
      rw [if_pos rfl, ih (hp.resolve_left fun h => h (by simp [Obj.listedEFA, hg]))]
      rfl
    | false =>
      rw [if_neg Bool.false_ne_true]
      cases he : d.isEFA with
      | true =>
        rw [if_pos rfl, getFiInfo_eq]
        by_cases hsome : (m d.pciAddress).isSome = true
        · rw [if_pos hsome, ih (hp.resolve_left fun h => h fun _ => hsome)]
          rfl
        · rw [if_neg hsome]
          rfl
      | false =>
        rw [if_neg Bool.false_ne_true]
        exact ih (hp.resolve_left fun h => h (by simp [Obj.listedEFA, he]))

theorem map_fst_efasOf : (efasOf m ds).map Prod.fst = ds.filter (·.listedEFA) := by
  rw [efasOf, List.map_map]
  exact List.map_id _

/-! ## The loops over the nodes and their bridges -/

theorem map_gpu_entriesAt : (entriesAt lib m s).map (·.gpu) = s.2.2.filter (·.isGPU) := by
  rw [entriesAt, List.map_map]
  exact List.map_id _

/-- The GPUs among the entries are those of the topology. -/
theorem map_gpu_entries (lib : Unspecified) (m : PciInfoMap) (nodes : List Numanode) :
    (entries lib m nodes).map (·.gpu) = gpus nodes := by
  rw [entries, List.map_flatMap, gpus, devices, List.filter_flatMap]
  exact List.flatMap_congr fun s _ => map_gpu_entriesAt

theorem mem_entries {loc : GPUAffinity} : loc ∈ entries lib m nodes ↔
    ∃ s ∈ sites nodes, ∃ gpu ∈ s.2.2, gpu.isGPU = true ∧ loc = entryAt lib m s gpu := by
  simp only [entries, entriesAt, List.mem_flatMap, List.mem_map, List.mem_filter]
  constructor
  · rintro ⟨s, hs, gpu, ⟨hgpu, his⟩, rfl⟩
    exact ⟨s, hs, gpu, hgpu, his, rfl⟩
  · rintro ⟨s, hs, gpu, hgpu, his, rfl⟩
    exact ⟨s, hs, gpu, ⟨hgpu, his⟩, rfl⟩

/-- A GPU that has no entry gets one. -/
theorem assign_eq {loc : GPUAffinity} {gpuloc : List GPUAffinity}
    (h : loc.gpu ∉ gpuloc.map (·.gpu)) : assign loc gpuloc = gpuloc ++ [loc] := by
  have hany : ¬ gpuloc.any (·.gpu == loc.gpu) = true := by
    simp only [List.any_eq_true, beq_iff_eq, not_exists, not_and]
    exact fun l hl he => h (List.mem_map.mpr ⟨l, hl, he⟩)
  rw [assign, if_neg hany]

theorem foldl_assign_eq {gpus : List Obj} {gpuloc : List GPUAffinity} {mk : Obj → GPUAffinity}
    (hmk : ∀ gpu, (mk gpu).gpu = gpu) (h : (gpuloc.map (·.gpu) ++ gpus).Nodup) :
    gpus.foldl (fun gpuloc gpu => assign (mk gpu) gpuloc) gpuloc = gpuloc ++ gpus.map mk := by
  induction gpus generalizing gpuloc with
  | nil => simp
  | cons gpu gpus ih =>
    have hnew : (mk gpu).gpu ∉ gpuloc.map (·.gpu) := by
      rw [hmk]
      exact fun hmem => (List.nodup_append.mp h).2.2 _ hmem _ List.mem_cons_self rfl
    rw [List.foldl_cons, assign_eq hnew, ih (by simpa [hmk] using h)]
    simp

/-- The two loops are one over the sites. -/
theorem locate_eq (gpuloc : List GPUAffinity) :
    nodes.foldlM (fun gpuloc numa => numa.bridge.foldlM (locateBridge lib m numa) gpuloc) gpuloc =
      (sites nodes).foldlM (fun gpuloc s => locateBridge lib m s.1 gpuloc s.2) gpuloc := by
  induction nodes generalizing gpuloc with
  | nil => rfl
  | cons n nodes ih =>
    rw [sites, List.flatMap_cons, List.foldlM_append, List.foldlM_cons, List.foldlM_map]
    exact bind_congr ih

theorem locateSites_eq_ok (hp : Paired m (ss.flatMap fun s => s.2.2))
    (hn : (gpuloc.map (·.gpu) ++ (ss.flatMap fun s => s.2.2).filter (·.isGPU)).Nodup) :
    ss.foldlM (fun gpuloc s => locateBridge lib m s.1 gpuloc s.2) gpuloc =
      .ok (gpuloc ++ ss.flatMap (entriesAt lib m)) := by
  induction ss generalizing gpuloc with
  | nil => simp [pure, Except.pure]
  | cons s ss ih =>
    rw [List.flatMap_cons, paired_append] at hp
    rw [List.flatMap_cons, List.filter_append, ← List.append_assoc] at hn
    have hstep : locateBridge lib m s.1 gpuloc s.2 = .ok (gpuloc ++ entriesAt lib m s) := by
      rw [locateBridge, classify_eq_ok hp.1, entriesAt,
        ← foldl_assign_eq (fun _ => rfl) (List.nodup_append.mp hn).1]
      rfl
    rw [List.foldlM_cons, hstep]
    refine (ih hp.2 ?_).trans ?_
    · rw [List.map_append, map_gpu_entriesAt]
      exact hn
    · rw [List.flatMap_cons, List.append_assoc]

theorem locateSites_eq_error (hp : ¬ Paired m (ss.flatMap fun s => s.2.2)) :
    ss.foldlM (fun gpuloc s => locateBridge lib m s.1 gpuloc s.2) gpuloc =
      .error (.outOfRange "map::at") := by
  induction ss generalizing gpuloc with
  | nil => exact absurd (by simp [Paired]) hp
  | cons s ss ih =>
    rw [List.flatMap_cons, paired_append, not_and_or] at hp
    rw [List.foldlM_cons]
    by_cases hs : Paired m s.2.2
    · rw [locateBridge, classify_eq_ok hs]
      exact ih (hp.resolve_left fun h => h hs)
    · rw [locateBridge, classify_eq_error hs]
      rfl

/-- **What the loops over the nodes and their bridges do.** -/
theorem locate_eq_ite (hn : (devices nodes).Nodup) : locate lib m nodes =
    if Paired m (devices nodes) then .ok (entries lib m nodes)
    else .error (.outOfRange "map::at") := by
  rw [locate, locate_eq]
  split
  next hp => exact locateSites_eq_ok hp (by rw [List.map_nil, List.nil_append]; exact hn.filter _)
  next hp => exact locateSites_eq_error hp

/-! ## The indices -/

/-- The loop over the indices asks NVML for each, whatever the map holds. -/
theorem indexed_eq_map (nvml : Nvml) (gpuloc : List GPUAffinity) (is : List ℕ) :
    indexed nvml gpuloc is =
      (is.mapM nvml.pciInfo).map fun pcis => pcis.flatMap fun pci =>
        gpuloc.filter (·.gpu.is pci) := by
  induction is with
  | nil => rfl
  | cons i is ih =>
    rw [indexed, List.mapM_cons, ih]
    cases nvml.pciInfo i with
    | error e => rfl
    | ok pci => cases is.mapM nvml.pciInfo <;> rfl

/-! ## The checks and the table -/

/-- The entries that an index finds. -/
def found (lib : Unspecified) (m : PciInfoMap) (nodes : List Numanode) (pci : NvmlPciInfo) :
    List GPUAffinity :=
  (lib.iterate (entries lib m nodes)).filter (·.gpu.is pci)

/-- The table, for what NVML reports of the indices. -/
def table (lib : Unspecified) (m : PciInfoMap) (nodes : List Numanode) (pcis : List NvmlPciInfo) :
    List GPUAffinity :=
  pcis.flatMap (found lib m nodes)

/-- The checks of `GetAffinity`, and what NVML reports of the indices. -/
def checks (nodes : List Numanode) (m : PciInfoMap) (nvml : Nvml) :
    Except Thrown (List NvmlPciInfo) := do
  if Paired m (devices nodes) then pure () else throw (.outOfRange "map::at")
  let count ← nvmlCheck "nvmlDeviceGetCount(&count)" nvml.deviceGetCount
  assertion "count == gpuloc.size()" (count = (gpus nodes).length)
  let pcis ← (List.range count).mapM nvml.pciInfo
  assertion "gpuloc.size() == affinity.size()"
    ((gpus nodes).length = (pcis.flatMap fun pci => (gpus nodes).filter (·.is pci)).length)
  return pcis

/-- An index finds an entry for each GPU it speaks of. -/
theorem map_gpu_found (lib : Unspecified) (m : PciInfoMap) (nodes : List Numanode)
    (pci : NvmlPciInfo) :
    ((found lib m nodes pci).map (·.gpu)).Perm ((gpus nodes).filter (·.is pci)) := by
  rw [← map_gpu_entries lib m nodes, List.filter_map]
  exact ((lib.iterate_perm _).filter _).map _

theorem length_found (lib : Unspecified) (m : PciInfoMap) (nodes : List Numanode)
    (pci : NvmlPciInfo) :
    (found lib m nodes pci).length = ((gpus nodes).filter (·.is pci)).length := by
  rw [← (map_gpu_found lib m nodes pci).length_eq, List.length_map]

theorem length_table (lib : Unspecified) (m : PciInfoMap) (nodes : List Numanode)
    (pcis : List NvmlPciInfo) : (table lib m nodes pcis).length =
    (pcis.flatMap fun pci => (gpus nodes).filter (·.is pci)).length := by
  rw [table, List.length_flatMap, List.length_flatMap]
  exact congrArg List.sum (List.map_congr_left fun pci _ => length_found lib m nodes pci)

/-- **`GetAffinity` is its checks and the table.** -/
theorem getAffinity_eq_map (hn : (devices nodes).Nodup) :
    getAffinity lib nodes m nvml = (checks nodes m nvml).map (table lib m nodes) := by
  have hlen : (entries lib m nodes).length = (gpus nodes).length := by
    rw [← map_gpu_entries lib m nodes, List.length_map]
  rw [getAffinity, checks, locate_eq_ite hn]
  split
  · simp only [bind, Except.bind, hlen, indexed_eq_map]
    cases nvmlCheck "nvmlDeviceGetCount(&count)" nvml.deviceGetCount with
    | error e => rfl
    | ok count =>
      dsimp only
      cases assertion "count == gpuloc.size()" (count = (gpus nodes).length) with
      | error e => rfl
      | ok u =>
        cases (List.range count).mapM nvml.pciInfo with
        | error e => rfl
        | ok pcis =>
          have hlength : (pcis.flatMap fun pci =>
              (lib.iterate (entries lib m nodes)).filter (·.gpu.is pci)).length =
              (pcis.flatMap fun pci => (gpus nodes).filter (·.is pci)).length :=
            length_table lib m nodes pcis
          simp only [Except.map, hlength]
          cases assertion "gpuloc.size() == affinity.size()" ((gpus nodes).length =
            (pcis.flatMap fun pci => (gpus nodes).filter (·.is pci)).length) <;> rfl
  · rfl

theorem mem_found {loc : GPUAffinity} : loc ∈ found lib m nodes pci ↔
    loc ∈ entries lib m nodes ∧ loc.gpu.is pci = true := by
  rw [found, List.mem_filter, (lib.iterate_perm _).mem_iff]

theorem nodup_found (hn : (devices nodes).Nodup) : (found lib m nodes pci).Nodup := by
  have hmap := (map_gpu_found lib m nodes pci).nodup_iff.mpr ((hn.filter _).filter _)
  exact hmap.of_map

/-- What the checks ask for: an `fi_info` for every EFA device, as many GPUs as NVML counts, an
answer for each index, and as many matches as GPUs. -/
structure Checked (nodes : List Numanode) (m : PciInfoMap) (nvml : Nvml)
    (pcis : List NvmlPciInfo) : Prop where
  paired : Paired m (devices nodes)
  count : nvml.deviceGetCount = .ok (gpus nodes).length
  answered : List.Forall₂ (fun i pci => nvml.pciInfo i = .ok pci)
    (List.range (gpus nodes).length) pcis
  found : (gpus nodes).length = (pcis.flatMap fun pci => (gpus nodes).filter (·.is pci)).length

theorem checks_eq_ok : checks nodes m nvml = .ok pcis ↔ Checked nodes m nvml pcis := by
  rw [checks]
  by_cases hp : Paired m (devices nodes)
  · simp only [hp, if_true, bind_eq_ok]
    constructor
    · rintro ⟨count, hcount, _, hsize, pcis', hpcis, _, hfound, hret⟩
      obtain rfl := Except.ok.inj hret
      obtain rfl := assertion_eq_ok.mp hsize
      exact ⟨hp, nvmlCheck_eq_ok.mp hcount, mapM_eq_ok.mp hpcis, assertion_eq_ok.mp hfound⟩
    · rintro ⟨-, hcount, hpcis, hfound⟩
      exact ⟨_, nvmlCheck_eq_ok.mpr hcount, (), assertion_eq_ok.mpr rfl, pcis,
        mapM_eq_ok.mpr hpcis, (), assertion_eq_ok.mpr hfound, rfl⟩
  · constructor
    · intro h
      simp only [hp, if_false] at h
      cases h
    · exact fun h => absurd h.paired hp

end EfaExamples
