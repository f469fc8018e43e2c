import EfaExamples.Gpuloc.Discovery
import EfaExamples.Gpuloc.Places
/-!
# The topology is partitioned

In a topology whose packages are not nested and hold all that is filed, the
vector has a node for each package, and each holds the cores, the bridges and the
devices below its package. That a device is listed once needs none of this: an
object is met once.
-/

namespace EfaExamples

variable {t : Obj} {vs : List Visit} {x : Filing} {nodes : List Numanode} {l p : Obj}

/-- Where the walk is defined, what is filed has a package to go with, and a
device has a bridge. -/
theorem package_isSome (h : traverse t none [] = .ok nodes) (hx : x ∈ filings none t.reached)
    (hfiled : x.obj.isFiled = true) :
    (∃ p ∈ packages t.reached, x.package = some p) ∧
      (x.obj.isPCI = true → ∃ b, x.bridge = some b) := by
  rw [traverse_root] at h
  obtain ⟨before, after, heq, hpack⟩ := filing_split hx
  obtain ⟨⟨u, hu, hup⟩, hbridge⟩ := exists_foldlM_iff.mp ⟨nodes, h⟩ before _ after heq hfiled
  have hno : ¬ x.obj.isPackage = true := fun hp => by
    rw [Obj.isFiled_of_isPackage hp] at hfiled
    cases hfiled
  rw [if_neg hno] at hpack
  have hne := packages_ne_nil.mpr ⟨u, hu, hup⟩
  have hp := List.getLast?_eq_some_getLast hne
  refine ⟨⟨_, ?_, hpack.trans hp⟩, fun hpci => Option.isSome_iff_exists.mp (hbridge hpci)⟩
  exact package_mem hx (hpack.trans hp)

/-! ## The devices -/

theorem devices_eq (nodes : List Numanode) :
    devices nodes = nodes.flatMap fun numa => numa.bridge.flatMap (·.2) := by
  rw [devices, sites, List.flatMap_assoc]
  simp only [List.flatMap_map]

theorem mem_devices_iff :
    l ∈ devices nodes ↔ ∃ numa ∈ nodes, ∃ e ∈ numa.bridge, l ∈ e.2 := by
  simp [devices_eq, List.mem_flatMap]

theorem mem_filedWith : x ∈ filedWith p vs ↔ x ∈ filings none vs ∧ x.package = some p := by
  simp [filedWith]

/-- Under the nearest host bridge above it, in the node of its package, a device is listed. -/
theorem Numanode.Holds.listed {numa : Numanode} {b : Obj}
    (hn : numa.Holds (filedWith p t.reached)) (hx : x ∈ filings none t.reached)
    (hp : x.package = some p) (hpci : x.obj.isPCI = true) (hb : x.bridge = some b) :
    ∃ e ∈ numa.bridge, e.1 = b ∧ x.obj ∈ e.2 := by
  have hown := mem_filedWith.mpr ⟨hx, hp⟩
  obtain ⟨e, he, rfl⟩ := List.mem_map.mp ((hn.bridges.2 b).mpr (Or.inr ⟨x, hown, hpci, hb⟩))
  exact ⟨e, he, rfl, ((hn.devices e he).2 x.obj).mpr ⟨hpci, x, hown, rfl, hb⟩⟩

/-- A node for each package, with what is filed with it. -/
theorem holds_of_traverse (ht : t.Distinct) (h : traverse t none [] = .ok nodes) :
    List.Forall₂ (fun p numa => numa.Holds (filedWith p t.reached)) (packages t.reached) nodes := by
  rw [traverse_root] at h
  exact holds_of_foldlM ht.packages h

/-- **Every device the walk meets is listed**, -/
theorem mem_devices (ht : t.Distinct) (h : traverse t none [] = .ok nodes) :
    l ∈ devices nodes ↔ l.isPCI = true ∧ ∃ v ∈ t.reached, v.obj = l := by
  have hholds := holds_of_traverse ht h
  rw [mem_devices_iff]
  constructor
  · rintro ⟨numa, hnuma, e, he, hl⟩
    obtain ⟨p, hp, hh⟩ := exists_of_forall₂_right hholds hnuma
    obtain ⟨hpci, x, hx, rfl, -⟩ := ((hh.devices e he).2 l).mp hl
    exact ⟨hpci, x.toVisit, mem_of_filing (mem_filedWith.mp hx).1, rfl⟩
  · rintro ⟨hpci, v, hv, rfl⟩
    obtain ⟨x, hx, rfl⟩ := exists_filing none hv
    obtain ⟨⟨p, hp, hpack⟩, hbridge⟩ := package_isSome h hx (by simp [Obj.isFiled, hpci])
    obtain ⟨b, hb⟩ := hbridge hpci
    obtain ⟨numa, hnuma, hh⟩ := exists_of_forall₂_left hholds hp
    obtain ⟨e, he, -, hl⟩ := hh.listed hx hpack hpci hb
    exact ⟨numa, hnuma, e, he, hl⟩

/-- **and once.** -/
theorem nodup_devices (ht : t.Distinct) (h : traverse t none [] = .ok nodes) :
    (devices nodes).Nodup := by
  have hholds := holds_of_traverse ht h
  rw [devices_eq, List.nodup_flatMap]
  constructor
  · intro numa hnuma
    obtain ⟨p, -, hh⟩ := exists_of_forall₂_right hholds hnuma
    rw [List.nodup_flatMap]
    refine ⟨fun e he => (hh.devices e he).1, ?_⟩
    -- a device has one nearest bridge
    refine (List.pairwise_map.mp hh.bridges.1).imp_of_mem fun {e e'} he he' hne => ?_
    intro l hl hl'
    obtain ⟨-, x, hx, rfl, hb⟩ := ((hh.devices e he).2 l).mp hl
    obtain ⟨-, y, hy, hxy, hb'⟩ := ((hh.devices e' he').2 _).mp hl'
    obtain rfl := ht.filing_eq (mem_filedWith.mp hy).1 (mem_filedWith.mp hx).1 hxy
    exact hne (Option.some.inj (hb.symm.trans hb'))
  · -- and is filed with one package
    refine pairwise_of_forall₂ hholds ht.packages fun p p' numa numa' hh hh' hne => ?_
    intro l hl hl'
    obtain ⟨e, he, hl⟩ := List.mem_flatMap.mp hl
    obtain ⟨e', he', hl'⟩ := List.mem_flatMap.mp hl'
    obtain ⟨-, x, hx, rfl, -⟩ := ((hh.devices e he).2 l).mp hl
    obtain ⟨-, y, hy, hxy, -⟩ := ((hh'.devices e' he').2 _).mp hl'
    obtain ⟨hx, hp⟩ := mem_filedWith.mp hx
    obtain ⟨hy, hp'⟩ := mem_filedWith.mp hy
    obtain rfl := ht.filing_eq hy hx hxy
    exact hne (Option.some.inj (hp.symm.trans hp'))

/-! ## One node a package -/

/-- A topology in which packages are not nested and everything that is filed lies
below one, a device below a host bridge too. No PU is above any of these on a normal or
memory edge: the walk meets them all. -/
structure Obj.Partitionable (t : Obj) : Prop where
  distinct : t.Distinct
  reached : ∀ v ∈ t.places, v.obj.isPackage = true ∨ v.obj.isFiled = true → v ∈ t.reached
  flat : ∀ v ∈ t.places, v.obj.isPackage = true → ∀ a ∈ v.above, a.isPackage = false
  package : ∀ v ∈ t.places, v.obj.isFiled = true → ∃ p ∈ v.above, p.isPackage = true
  bridge : ∀ v ∈ t.places, v.obj.isPCI = true → ∃ b ∈ v.above, b.isHostBridge = true

/-- What the node of a package lists: the cores and the host bridges below it, and
under each bridge the devices whose nearest it is. -/
structure Numanode.Lists (t p : Obj) (numa : Numanode) : Prop where
  cores : numa.cores.Nodup ∧ ∀ l, l ∈ numa.cores ↔
    l.isCore = true ∧ ∃ v ∈ t.places, v.obj = l ∧ p ∈ v.above
  bridges : (numa.bridge.map Prod.fst).Nodup ∧ ∀ b, b ∈ numa.bridge.map Prod.fst ↔
    b.isHostBridge = true ∧ ∃ v ∈ t.places, v.obj = b ∧ p ∈ v.above
  devices : ∀ e ∈ numa.bridge, e.2.Nodup ∧ ∀ l, l ∈ e.2 ↔
    l.isPCI = true ∧ ∃ v ∈ t.places, v.obj = l ∧ p ∈ v.above ∧ v.bridge = some e.1

namespace Obj.Partitionable

/-- What is filed is filed with the package above it. -/
theorem package_iff (ht : t.Partitionable) (hx : x ∈ filings none t.reached)
    (hfiled : x.obj.isFiled = true) :
    x.package = some p ↔ p ∈ x.above ∧ p.isPackage = true := by
  have hplaces : ∀ v ∈ t.reached, v ∈ t.places := fun v hv => (reached_sublist t).mem hv
  have hflat : ∀ v ∈ t.reached, v.obj.isPackage = true → ∀ a ∈ v.above, a.isPackage = false :=
    fun v hv => ht.flat v (hplaces v hv)
  constructor
  · intro hpack
    obtain ⟨q, hq, hqpack⟩ := ht.package _ (hplaces _ (mem_of_filing hx)) hfiled
    have hp := package_of_above ht.distinct hflat hx hq hqpack
    obtain rfl := Option.some.inj (hp.symm.trans hpack)
    exact ⟨hq, hqpack⟩
  · rintro ⟨hp, hpack⟩
    exact package_of_above ht.distinct hflat hx hp hpack

/-- What is filed with a package, by what lies below it. -/
theorem exists_filedWith_iff (ht : t.Partitionable) (hp : p.isPackage = true)
    (hfiled : l.isFiled = true) (P : Visit → Prop) :
    (∃ x ∈ filedWith p t.reached, x.obj = l ∧ P x.toVisit) ↔
      ∃ v ∈ t.places, v.obj = l ∧ p ∈ v.above ∧ P v := by
  constructor
  · rintro ⟨x, hx, rfl, hP⟩
    obtain ⟨hx, hpack⟩ := mem_filedWith.mp hx
    exact ⟨x.toVisit, (reached_sublist t).mem (mem_of_filing hx), rfl,
      ((ht.package_iff hx hfiled).mp hpack).1, hP⟩
  · rintro ⟨v, hv, rfl, habove, hP⟩
    obtain ⟨x, hx, rfl⟩ := exists_filing none (ht.reached v hv (Or.inr hfiled))
    exact ⟨x, mem_filedWith.mpr ⟨hx, (ht.package_iff hx hfiled).mpr ⟨habove, hp⟩⟩, rfl, hP⟩

/-- The nearest host bridge above a device lies below the device's package. -/
theorem bridge_below {v : Visit} {b : Obj} (ht : t.Partitionable) (hv : v ∈ t.places)
    (hp : p ∈ v.above) (hpack : p.isPackage = true) (hb : v.bridge = some b) :
    b.isHostBridge = true ∧ ∃ u ∈ t.places, u.obj = b ∧ p ∈ u.above := by
  obtain ⟨hbridge, l₁, l₂, hsplit, -⟩ := List.find?_eq_some_iff_append.mp hb
  obtain ⟨hplace, -⟩ := above_visits hv hsplit
  refine ⟨hbridge, _, hplace, rfl, ?_⟩
  obtain ⟨q, hq, hqpack⟩ := ht.package _ hplace (by simp [isFiled, hbridge])
  rw [hsplit] at hp
  rcases List.mem_append.mp hp with hp | hp
  · -- a package between the two would have another above it
    obtain ⟨m₁, m₂, rfl⟩ := List.append_of_mem hp
    rw [List.append_assoc, List.cons_append] at hsplit
    obtain ⟨hpplace, -⟩ := above_visits hv hsplit
    have hno := ht.flat _ hpplace hpack q (by simp [hq])
    rw [hqpack] at hno
    cases hno
  · rcases List.mem_cons.mp hp with rfl | hp
    · have htype := type_of_isHostBridge hbridge
      rw [isPackage_iff.mp hpack] at htype
      cases htype
    · exact hp

/-- The walk comes to an end. -/
theorem defined (ht : t.Partitionable) : ∃ nodes, traverse t none [] = .ok nodes := by
  rw [traverse_root]
  refine exists_foldlM_iff.mpr fun before v after heq hfiled => ?_
  have hv : v ∈ t.places := (reached_sublist t).mem (by rw [heq]; simp)
  refine ⟨?_, fun hpci => Visit.bridge_isSome.mpr (ht.bridge v hv hpci)⟩
  -- the package above is met before
  obtain ⟨p, hp, hpack⟩ := ht.package v hv hfiled
  have hx : (⟨v, (packages before).getLast?⟩ : Filing) ∈ filings none t.reached := by
    have hno : v.obj.isPackage = false := by
      cases hvp : v.obj.isPackage with
      | true =>
        rw [isFiled_of_isPackage hvp] at hfiled
        cases hfiled
      | false => rfl
    rw [heq, filings_append, Option.or_none, filings, hno, if_neg Bool.false_ne_true]
    simp
  have hlast := (ht.package_iff hx hfiled).mpr ⟨hp, hpack⟩
  exact packages_ne_nil.mp (List.ne_nil_of_mem (List.mem_of_getLast? hlast))

/-- The packages of the topology are those met. -/
theorem packages_eq (ht : t.Partitionable) : packages t.places = packages t.reached := by
  have hsub : (packages t.reached).Sublist (packages t.places) :=
    ((reached_sublist t).map _).filter _
  have hmem : packages t.places ⊆ packages t.reached := by
    intro p hp
    obtain ⟨hp, hpack⟩ := List.mem_filter.mp hp
    obtain ⟨v, hv, rfl⟩ := List.mem_map.mp hp
    exact List.mem_filter.mpr ⟨List.mem_map_of_mem (ht.reached v hv (Or.inl hpack)), hpack⟩
  have hlen := ((ht.distinct.obj.filter _).subperm hmem).length_le
  exact (hsub.eq_of_length_le hlen).symm

/-- What a node holds is what its package lists. -/
theorem lists {numa : Numanode} (ht : t.Partitionable) (hp : p.isPackage = true)
    (hn : numa.Holds (filedWith p t.reached)) : numa.Lists t p := by
  refine ⟨⟨hn.cores.1, fun l => ?_⟩, ⟨hn.bridges.1, fun b => ?_⟩,
    fun e he => ⟨(hn.devices e he).1, fun l => ?_⟩⟩
  · rw [hn.cores.2]
    refine and_congr_right fun hcore => ?_
    have h := ht.exists_filedWith_iff hp (l := l) (by simp [isFiled, hcore]) fun _ => True
    simpa using h
  · rw [hn.bridges.2]
    constructor
    · rintro (⟨hbridge, hx⟩ | ⟨x, hx, hpci, hb⟩)
      · have h := ht.exists_filedWith_iff hp (l := b) (by simp [isFiled, hbridge]) fun _ => True
        exact ⟨hbridge, by simpa using h.mp (by simpa using hx)⟩
      · obtain ⟨v, hv, -, habove, hb⟩ := (ht.exists_filedWith_iff hp (by simp [isFiled, hpci])
          fun v => v.bridge = some b).mp ⟨x, hx, rfl, hb⟩
        exact ht.bridge_below hv habove hp hb
    · rintro ⟨hbridge, hv⟩
      have h := ht.exists_filedWith_iff hp (l := b) (by simp [isFiled, hbridge]) fun _ => True
      exact Or.inl ⟨hbridge, by simpa using h.mpr (by simpa using hv)⟩
  · rw [(hn.devices e he).2]
    refine and_congr_right fun hpci => ?_
    exact ht.exists_filedWith_iff hp (by simp [isFiled, hpci]) fun v => v.bridge = some e.1

end Obj.Partitionable

/-- **`Traverse` partitions the topology.** There is one node for each package, in
depth-first order; it lists the cores and the host bridges below its package, and
each device under its nearest host bridge; and every PCI device of the topology is
listed exactly once. -/
theorem traverse_partitions (ht : t.Partitionable) : ∃ nodes, traverse t none [] = .ok nodes ∧
    List.Forall₂ (fun p numa => numa.Lists t p) (packages t.places) nodes ∧
    (devices nodes).Perm ((t.places.map (·.obj)).filter (·.isPCI)) := by
  obtain ⟨nodes, h⟩ := ht.defined
  have hholds := holds_of_traverse ht.distinct h
  refine ⟨nodes, h, ?_, ?_⟩
  · rw [ht.packages_eq]
    refine forall₂_imp_of_mem hholds fun p hp numa hh => ht.lists ?_ hh
    exact (List.mem_filter.mp hp).2
  · have hall : (t.places.map (·.obj)).Nodup := ht.distinct.obj
    refine (List.perm_ext_iff_of_nodup (nodup_devices ht.distinct h) (hall.filter _)).mpr
      fun l => ?_
    rw [mem_devices ht.distinct h, List.mem_filter, List.mem_map, and_comm]
    refine and_congr_left fun hpci => ⟨?_, ?_⟩
    · rintro ⟨v, hv, hvl⟩
      exact ⟨v, (Obj.reached_sublist t).mem hv, hvl⟩
    · rintro ⟨v, hv, rfl⟩
      exact ⟨v, ht.reached v hv (Or.inr (by simp [Obj.isFiled, hpci])), rfl⟩

/-- Two packages. One has its NUMA node in front, a core and two host bridges; below one
of these a device lies behind a PCI-to-PCI bridge, with a misc child. The other has a
core, and a device below its bridge. -/
def twoPackages : Obj :=
  .mk { address := 0, type := .other } []
    [.mk { address := 1, type := .package } [leaf 2 .numanode]
        [.mk { address := 3, type := .core } [] [leaf 4 .pu] [] []]
        [.mk { address := 5, type := .bridge } [] []
            [.mk { address := 6, type := .bridge, attr := { bridge := { upstreamType := .pci } } } [] []
              [.mk { address := 7, type := .pciDevice } [] [] [leaf 8 .osDevice]
                [leaf 9 .misc]] [],
              leaf 10 .pciDevice] [],
          leaf 11 .bridge] [],
      .mk { address := 12, type := .package } [leaf 13 .numanode] [leaf 14 .core]
        [.mk { address := 15, type := .bridge } [] [] [leaf 16 .pciDevice] []] []] [] []

theorem traverse_partitions_twoPackages : ∃ nodes, traverse twoPackages none [] = .ok nodes ∧
    List.Forall₂ (fun p numa => numa.Lists twoPackages p) (packages twoPackages.places) nodes ∧
    (devices nodes).Perm ((twoPackages.places.map (·.obj)).filter (·.isPCI)) :=
  traverse_partitions ⟨by decide, by decide, by decide, by decide, by decide⟩

end EfaExamples
