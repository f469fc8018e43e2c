import EfaExamples.Common.Numbering
import EfaExamples.Gpuloc.Locality
import EfaExamples.Gpuloc.Model.Peer
/-!
# The CPU that a `Peer` is pinned to

A `Peer` hands the logical index of a core to `sched_setaffinity`, which takes
it for the number the operating system has for a PU. hwloc numbers the cores in
the order of the walk, one package after the other; how the system numbers the
PUs is up to the firmware. So the process is where the table puts it only if
the PU of that number lies in the same package.
-/

namespace EfaExamples

variable {t p : Obj} {nodes nodes' : List Numanode} {infos : List FiInfo} {m : PciInfoMap}
variable {lib : Unspecified} {nvml : Nvml} {affinity : List GPUAffinity} {loc : GPUAffinity}
variable {vs before after : List Visit} {v : Visit} {x : Filing} {rank : ℕ} {place : Placement}

/-- The cores among what is met, in the order of the walk. -/
def coresOf (vs : List Visit) : List Obj := (vs.map (·.obj)).filter (·.isCore)

/-- The cores filed with a package. -/
def coresWith (t p : Obj) : List Obj := coresOf ((filedWith p t.reached).map (·.toVisit))

/-- The logical index that has `rank` smaller ones among those of the cores filed with `p`. -/
def indexAt (t p : Obj) (rank : ℕ) : Option ℕ :=
  (((coresWith t p).map (·.logicalIndex)).insertionSort (· ≤ ·))[rank]?

/-- hwloc numbers the cores in the order of the walk. -/
def Obj.Indexed (t : Obj) : Prop :=
  (coresOf t.reached).map (·.logicalIndex) = List.range (coresOf t.reached).length

instance (t : Obj) : Decidable t.Indexed := inferInstanceAs (Decidable (_ = _))

/-- The number of cores met before `p`. -/
def coresBefore (t p : Obj) : ℕ := (coresOf (t.reached.takeWhile (·.obj ≠ p))).length

/-- **The CPU is next to the GPU**: it is the number the system has for a PU of one of the cores
in the entry. -/
def GPUAffinity.RunsOn (t : Obj) (loc : GPUAffinity) (cpu : ℕ) : Prop :=
  ∃ c ∈ loc.cores, ∃ v ∈ t.places, v.obj.type = .pu ∧ v.obj.osIndex = cpu ∧ c ∈ v.above

instance (t : Obj) (loc : GPUAffinity) (cpu : ℕ) : Decidable (loc.RunsOn t cpu) :=
  inferInstanceAs (Decidable (∃ c ∈ loc.cores, ∃ v ∈ t.places, _ ∧ _ ∧ c ∈ v.above))

/-- **The firmware numbers the GPU's package like hwloc**, as far as the core at `rank` goes: the
PU to which the system has given its logical index belongs to a core of the package. -/
def Obj.NumberedLike (t gpu : Obj) (rank : ℕ) : Prop :=
  ∃ x ∈ filings none t.reached, x.obj = gpu ∧ ∃ p, x.package = some p ∧
    ∃ n, indexAt t p rank = some n ∧
      ∃ v ∈ t.places, v.obj.type = .pu ∧ v.obj.osIndex = n ∧ ∃ c ∈ coresWith t p, c ∈ v.above

/-! ## The cores of a package -/

theorem coresOf_append (vs ws : List Visit) : coresOf (vs ++ ws) = coresOf vs ++ coresOf ws := by
  rw [coresOf, List.map_append, List.filter_append]
  rfl

theorem mem_coresWith {c : Obj} :
    c ∈ coresWith t p ↔ c.isCore = true ∧ ∃ y ∈ filedWith p t.reached, y.obj = c := by
  simp [coresWith, coresOf, and_comm]

theorem nodup_coresWith (ht : t.Distinct) : (coresWith t p).Nodup := by
  have hsub : ((filedWith p t.reached).map (·.toVisit)).Sublist t.reached := by
    have := (List.filter_sublist (p := fun x : Filing => decide (x.package = some p))
      (l := filings none t.reached)).map Filing.toVisit
    rwa [filings_toVisit] at this
  exact (ht.reached.sublist (hsub.map _)).filter _

/-- What is filed with `p` after it, until the next package. -/
theorem filter_filings (hp : p ∉ packages vs) :
    (filings (some p) vs).filter (·.package = some p) =
      (vs.takeWhile fun u => !u.obj.isPackage).map fun u => ⟨u, some p⟩ := by
  induction vs with
  | nil => rfl
  | cons u vs ih =>
    rw [packages_cons] at hp
    rw [filings, List.takeWhile_cons]
    by_cases hu : u.obj.isPackage = true
    · rw [if_pos hu] at hp
      have hne : u.obj ≠ p := fun h => hp (h ▸ List.mem_cons_self)
      have hrest : ∀ x ∈ filings (some u.obj) vs, ¬ x.package = some p := by
        intro x hx hxp
        rcases package_eq_or_mem hx with h | ⟨q, hq, h⟩
        · exact hne (Option.some.inj (h.symm.trans hxp))
        · exact hp (List.mem_cons_of_mem _ (Option.some.inj (h.symm.trans hxp) ▸ hq))
      rw [if_pos hu, List.filter_cons, if_neg (by simpa using hne), List.filter_eq_nil_iff.mpr
        fun x hx => by simpa using hrest x hx]
      simp [hu]
    · rw [if_neg hu] at hp
      rw [if_neg hu, List.filter_cons, if_pos (by simp), ih hp]
      simp [hu]

/-- **From a package to the next one everything is filed with it.** -/
theorem filedWith_split (hn : (packages (before ++ v :: after)).Nodup)
    (hv : v.obj.isPackage = true) : filedWith v.obj (before ++ v :: after) =
      ⟨v, some v.obj⟩ :: (after.takeWhile fun u => !u.obj.isPackage).map
        fun u => ⟨u, some v.obj⟩ := by
  rw [packages_append, packages_cons, if_pos hv] at hn
  have hbefore : v.obj ∉ packages before :=
    fun h => (List.nodup_append.mp hn).2.2 _ h _ List.mem_cons_self rfl
  have hafter : v.obj ∉ packages after := (List.nodup_cons.mp (List.nodup_append.mp hn).2.1).1
  rw [filedWith, filings_append, List.filter_append, ← filedWith, filedWith_eq_nil hbefore,
    List.nil_append, filings, if_pos hv, List.filter_cons, if_pos (by simp),
    filter_filings hafter]

/-- **hwloc numbers the cores of a package after those before it.** -/
theorem Obj.Indexed.map_coresWith (hidx : t.Indexed) (ht : t.Distinct)
    (hp : p ∈ packages t.reached) : (coresWith t p).map (·.logicalIndex) =
      List.range' (coresBefore t p) (coresWith t p).length := by
  obtain ⟨hp, hpack⟩ := List.mem_filter.mp hp
  obtain ⟨v, hv, rfl⟩ := List.mem_map.mp hp
  obtain ⟨before, after, hsplit⟩ := List.append_of_mem hv
  have hreached := ht.reached
  have hpackages := ht.packages
  unfold Indexed at hidx
  rw [hsplit] at hidx hreached hpackages
  have hcore : v.obj.isCore = false := by simp [isCore, isPackage_iff.mp hpack]
  have hwith : coresWith t v.obj =
      coresOf (after.takeWhile fun u => !u.obj.isPackage) := by
    rw [coresWith, hsplit, filedWith_split hpackages hpack]
    simp [coresOf, hcore, Function.comp_def]
  have hfirst : coresBefore t v.obj = (coresOf before).length := by
    have hne : ∀ u ∈ before, decide (u.obj ≠ v.obj) = true := by
      intro u hu
      rw [List.map_append, List.map_cons] at hreached
      have hu := List.mem_map_of_mem (f := fun u : Visit => u.obj) hu
      simpa using (List.nodup_append.mp hreached).2.2 _ hu _ List.mem_cons_self
    rw [coresBefore, hsplit, List.takeWhile_append_of_pos hne, List.takeWhile_cons]
    simp
  -- the cores in three pieces
  have hpieces : coresOf (before ++ v :: after) = coresOf before ++
      (coresWith t v.obj ++ coresOf (after.dropWhile fun u => !u.obj.isPackage)) := by
    have hself : coresOf (v :: after) = coresOf after := by simp [coresOf, hcore]
    rw [coresOf_append, hself, hwith, ← coresOf_append (after.takeWhile _),
      List.takeWhile_append_dropWhile]
  rw [hpieces] at hidx
  rw [hfirst]
  exact map_eq_range'_of_append hidx

theorem Obj.Indexed.indexAt_eq {n : ℕ} (hidx : t.Indexed) (ht : t.Distinct)
    (hp : p ∈ packages t.reached) (hn : indexAt t p rank = some n) :
    n = coresBefore t p + rank := by
  have hsorted : (List.range' (coresBefore t p) (coresWith t p).length).Pairwise (· ≤ ·) :=
    List.pairwise_le_range'
  rw [indexAt, hidx.map_coresWith ht hp, hsorted.insertionSort_eq] at hn
  obtain ⟨hlt, hn⟩ := List.getElem?_eq_some_iff.mp hn
  rw [← hn]
  simp

/-! ## The entry -/

/-- The cores of an entry have the logical indexes of the cores filed with the package, in
order. -/
theorem GPUAffinity.Filed.map_cores (hx : loc.Filed t x p) (ht : t.Distinct)
    (hnodup : loc.cores.Nodup)
    (hsorted : loc.cores.Pairwise fun x y => x.logicalIndex ≤ y.logicalIndex) :
    loc.cores.map (·.logicalIndex) =
      ((coresWith t p).map (·.logicalIndex)).insertionSort (· ≤ ·) := by
  have hperm : loc.cores.Perm (coresWith t p) :=
    (List.perm_ext_iff_of_nodup hnodup (nodup_coresWith ht)).mpr fun c => by
      rw [hx.cores, mem_coresWith]
  refine List.Perm.eq_of_pairwise (fun a b _ _ => Nat.le_antisymm) (List.pairwise_map.mpr hsorted)
    (List.pairwise_insertionSort _ _) ?_
  exact (hperm.map _).trans (List.perm_insertionSort _ _).symm

/-- **Pinning.** The CPU that a `Peer` passes to `Taskset::Set` is a PU of one of the cores in the
GPU's entry exactly if the firmware numbers the GPU's package like hwloc at its local rank. With
hwloc's numbering that number is the local rank and the cores before the package. -/
theorem runsOn_iff (ht : t.Distinct) (h : traverse t none [] = .ok nodes)
    (hn : List.Forall₂ Numanode.Reordered nodes nodes') (hm : getPCIInfoMap infos = .ok m)
    (ha : getAffinity lib nodes' m nvml = .ok affinity) (hloc : affinity[rank]? = some loc)
    (hplace : Peer.place affinity rank = some place) :
    (loc.RunsOn t place.cpu ↔ t.NumberedLike loc.gpu rank) ∧
      (t.Indexed → ∀ x ∈ filings none t.reached, x.obj = loc.gpu → ∀ p, x.package = some p →
        indexAt t p rank = some (coresBefore t p + rank)) := by
  obtain ⟨⟨x, p, hx⟩, hnodup, hsorted⟩ :=
    exists_filed ht h hn hm ha loc (List.mem_of_getElem? hloc)
  -- the number that the `Peer` passes
  have hindex : indexAt t p rank = some place.cpu := by
    rw [Peer.place, hloc] at hplace
    simp only [Option.bind_eq_bind, Option.bind_some, Option.bind_eq_some_iff, Option.pure_def,
      Option.some.injEq] at hplace
    obtain ⟨core, hcore, efa, -, rfl⟩ := hplace
    rw [indexAt, ← hx.map_cores ht hnodup hsorted, List.getElem?_map, hcore]
    rfl
  have hcores : ∀ c, c ∈ loc.cores ↔ c ∈ coresWith t p := fun c => by rw [hx.cores, mem_coresWith]
  have hpackage : ∀ x' ∈ filings none t.reached, x'.obj = loc.gpu → ∀ p', x'.package = some p' →
      p' = p := by
    intro x' hx' hgpu p' hp'
    obtain rfl := ht.filing_eq hx' hx.filing (hgpu.trans hx.gpu.symm)
    exact Option.some.inj (hp'.symm.trans hx.package)
  refine ⟨⟨?_, ?_⟩, ?_⟩
  · rintro ⟨c, hc, v, hv, htype, hos, habove⟩
    exact ⟨x, hx.filing, hx.gpu, p, hx.package, place.cpu, hindex, v, hv, htype, hos, c,
      (hcores c).mp hc, habove⟩
  · rintro ⟨x', hx', hgpu, p', hp', n, hn', v, hv, htype, hos, c, hc, habove⟩
    obtain rfl := hpackage x' hx' hgpu p' hp'
    obtain rfl := Option.some.inj (hn'.symm.trans hindex)
    exact ⟨c, (hcores c).mpr hc, v, hv, htype, hos, habove⟩
  · intro hidx x' hx' hgpu p' hp'
    obtain rfl := hpackage x' hx' hgpu p' hp'
    rw [hindex, hidx.indexAt_eq ht (package_mem hx' hp') hindex]

namespace Interleaved

/-- A core with one PU, which the system numbers `osIndex`. -/
def core (address logicalIndex osIndex : ℕ) : Obj :=
  .mk { address, type := .core, logicalIndex } []
    [.mk { address := address + 1, type := .pu, logicalIndex, osIndex } [] [] [] []] [] []

/-- A host bridge with two GPUs and two EFA devices. -/
def bridge : Obj :=
  .mk { address := 20, type := .bridge } [] []
    [Clusters.gpu 21 1, Clusters.gpu 22 2, Clusters.efa 30 3, Clusters.efa 40 4] []

/-- Two packages of two cores. The PUs are numbered in turn, as `osIndex` says. -/
def machine (osIndex : ℕ → ℕ) : Obj :=
  .mk { address := 0, type := .other } []
    [.mk { address := 1, type := .package } [] [core 2 0 (osIndex 0), core 4 1 (osIndex 1)]
        [bridge] [],
      .mk { address := 6, type := .package } [] [core 7 2 (osIndex 2), core 9 3 (osIndex 3)] [] []]
    [] []

/-- The nodes of the two packages. -/
def numanodes (osIndex : ℕ → ℕ) : List Numanode :=
  [⟨none, [core 2 0 (osIndex 0), core 4 1 (osIndex 1)],
      [(bridge, [Clusters.gpu 21 1, Clusters.gpu 22 2, Clusters.efa 30 3, Clusters.efa 40 4])]⟩,
    ⟨none, [core 7 2 (osIndex 2), core 9 3 (osIndex 3)], []⟩]

/-- One `fi_info` for each EFA device. -/
def infoList : List FiInfo := [3, 4].map fun bus => ⟨some ⟨some ⟨true, ⟨0, bus, 1, 0⟩⟩⟩⟩

/-- NVML counts the two GPUs by their bus. -/
def enumeration : Nvml := { Clusters.enumeration with deviceGetCount := .ok 2 }

/-- The entry of a GPU. -/
def entry (osIndex : ℕ → ℕ) (gpu : Obj) : GPUAffinity :=
  ⟨gpu, none, [core 2 0 (osIndex 0), core 4 1 (osIndex 1)],
    [(Clusters.efa 30 3, 0), (Clusters.efa 40 4, 1)]⟩

def entries (osIndex : ℕ → ℕ) : List GPUAffinity :=
  [entry osIndex (Clusters.gpu 21 1), entry osIndex (Clusters.gpu 22 2)]

/-- The first package has the even numbers. -/
def inTurn (i : ℕ) : ℕ := if i < 2 then 2 * i else 2 * i - 3

/-- The second process gets the PU 1, which is in the other package. -/
theorem runs_elsewhere : traverse (machine inTurn) none [] = .ok (numanodes inTurn) ∧
    (∃ m, getPCIInfoMap infoList = .ok m ∧
      getAffinity .listed (numanodes inTurn) m enumeration = .ok (entries inTurn)) ∧
    Peer.place (entries inTurn) 1 = some ⟨1, 1, 1⟩ ∧
    ¬ (entry inTurn (Clusters.gpu 22 2)).RunsOn (machine inTurn) 1 :=
  ⟨by decide +kernel, ⟨_, rfl, rfl⟩, by decide, by decide⟩

/-- Where the PUs are numbered like their cores it gets one of its own. -/
theorem runsOn_iff_machine :
    (∃ m, getPCIInfoMap infoList = .ok m ∧
      getAffinity .listed (numanodes id) m enumeration = .ok (entries id)) ∧
    (entry id (Clusters.gpu 22 2)).RunsOn (machine id) 1 ∧
      (machine id).NumberedLike (Clusters.gpu 22 2) 1 := by
  obtain ⟨m, hm, ha⟩ : ∃ m, getPCIInfoMap infoList = .ok m ∧
      getAffinity .listed (numanodes id) m enumeration = .ok (entries id) := ⟨_, rfl, rfl⟩
  have hruns : (entry id (Clusters.gpu 22 2)).RunsOn (machine id) 1 := by decide
  have hwalk : traverse (machine id) none [] = .ok (numanodes id) := by decide +kernel
  have hloc : (entries id)[1]? = some (entry id (Clusters.gpu 22 2)) := rfl
  have hplace : Peer.place (entries id) 1 = some ⟨1, 1, 1⟩ := by decide
  have hiff := (runsOn_iff (by decide) hwalk
    (List.forall₂_same.mpr fun numa _ => Numanode.Reordered.refl numa) hm ha hloc hplace).1
  exact ⟨⟨m, hm, ha⟩, hruns, hiff.mp hruns⟩

end Interleaved

end EfaExamples
