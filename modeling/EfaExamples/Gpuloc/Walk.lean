import Mathlib.Data.List.Induction
import Mathlib.Data.List.Nodup
import EfaExamples.Common.Matching
import EfaExamples.Common.Thrown
import EfaExamples.Gpuloc.Model.Traverse
/-!
# The walk over the topology

`Traverse` meets the objects of a tree depth first, and all it carries from one
to the next is the vector and the bridge. The bridge is the nearest host bridge
above, so the walk is a loop over the list of what is met, each with its
ancestors. An object is filed with the package met last. What each `Numanode`
holds in the end are the objects filed with its package.
-/

namespace EfaExamples

/-- An object in its place: its proper ancestors, nearest first. -/
structure Visit where
  obj : Obj
  above : List Obj
  deriving DecidableEq

/-- The nearest host bridge above. -/
def Visit.bridge (v : Visit) : Option Obj := v.above.find? (·.isHostBridge)

namespace Obj

/-- What is filed in the last `Numanode`. -/
def isFiled (l : Obj) : Bool := l.isNumaNode || l.isHostBridge || l.isCore || l.isPCI

mutual

/-- `l` and what lies below it, depth first. With `skip`, the PUs that `Traverse`
passes over are left out with what lies below them. -/
def visits (skip : Bool) : Obj → List Obj → List Visit
  | .mk d memory normal io misc, above =>
    ⟨.mk d memory normal io misc, above⟩ ::
      (visitsAll skip true memory (.mk d memory normal io misc :: above) ++
        (visitsAll skip true normal (.mk d memory normal io misc :: above) ++
          (visitsAll skip false io (.mk d memory normal io misc :: above) ++
            visitsAll skip false misc (.mk d memory normal io misc :: above))))

/-- The children of one kind. -/
def visitsAll (skip skipPU : Bool) : List Obj → List Obj → List Visit
  | [], _ => []
  | .mk d memory normal io misc :: rest, above =>
    (if skip && (skipPU && d.type == .pu) then []
      else visits skip (.mk d memory normal io misc) above) ++ visitsAll skip skipPU rest above

end

/-- The objects of a topology. -/
def places (t : Obj) : List Visit := t.visits false []

/-- Those that the walk meets, in its order. -/
def reached (t : Obj) : List Visit := t.visits true []

end Obj

/-! ## The walk is a loop -/

theorem bridgeBelow_eq (l : Obj) (above : List Obj) :
    bridgeBelow l (above.find? (·.isHostBridge)) = (l :: above).find? (·.isHostBridge) := by
  rw [bridgeBelow, List.find?_cons]
  cases l.isHostBridge <;> rfl

mutual

theorem traverse_eq_foldlM : ∀ (l : Obj) (above : List Obj) (numanodes : List Numanode),
    traverse l (above.find? (·.isHostBridge)) numanodes =
      (l.visits true above).foldlM (fun numanodes v => file v.obj v.bridge numanodes) numanodes
  | .mk d memory normal io misc, above, numanodes => by
    rw [traverse, Obj.visits, List.foldlM_cons]
    refine bind_congr fun n => ?_
    dsimp only
    rw [bridgeBelow_eq, List.foldlM_append, traverseAll_eq_foldlM true memory]
    refine bind_congr fun n => ?_
    rw [List.foldlM_append, traverseAll_eq_foldlM true normal]
    refine bind_congr fun n => ?_
    rw [List.foldlM_append, traverseAll_eq_foldlM false io]
    exact bind_congr fun n => traverseAll_eq_foldlM false misc _ _

theorem traverseAll_eq_foldlM (skipPU : Bool) :
    ∀ (ls above : List Obj) (numanodes : List Numanode),
    traverseAll skipPU ls (above.find? (·.isHostBridge)) numanodes =
      (Obj.visitsAll true skipPU ls above).foldlM
        (fun numanodes v => file v.obj v.bridge numanodes) numanodes
  | [], above, numanodes => rfl
  | .mk d memory normal io misc :: rest, above, numanodes => by
    rw [traverseAll, Obj.visitsAll, List.foldlM_append, Bool.true_and]
    cases hpu : skipPU && d.type == .pu with
    | true => exact traverseAll_eq_foldlM skipPU rest above numanodes
    | false =>
      rw [if_neg Bool.false_ne_true, if_neg Bool.false_ne_true, traverse_eq_foldlM]
      exact bind_congr fun n => traverseAll_eq_foldlM skipPU rest above n

end

/-- **The walk from the root.** -/
theorem traverse_root (t : Obj) : traverse t none [] =
    t.reached.foldlM (fun numanodes v => file v.obj v.bridge numanodes) [] :=
  traverse_eq_foldlM t [] []

/-! ## Filing -/

/-- The packages met, in order. -/
def packages (vs : List Visit) : List Obj := (vs.map Visit.obj).filter (·.isPackage)

/-- An object with the package met last. -/
structure Filing extends Visit where
  package : Option Obj

/-- What is met, each with the package met last. -/
def filings : Option Obj → List Visit → List Filing
  | _, [] => []
  | package, v :: vs =>
    let package := if v.obj.isPackage then some v.obj else package
    ⟨v, package⟩ :: filings package vs

/-- What is filed with `p`. -/
def filedWith (p : Obj) (vs : List Visit) : List Filing :=
  (filings none vs).filter (·.package = some p)

theorem packages_append (vs ws : List Visit) :
    packages (vs ++ ws) = packages vs ++ packages ws := by
  simp [packages]

theorem packages_cons (v : Visit) (vs : List Visit) :
    packages (v :: vs) = if v.obj.isPackage then v.obj :: packages vs else packages vs := by
  rw [packages, List.map_cons, List.filter_cons]
  rfl

theorem filings_append (package : Option Obj) (vs ws : List Visit) :
    filings package (vs ++ ws) =
      filings package vs ++ filings ((packages vs).getLast?.or package) ws := by
  induction vs generalizing package with
  | nil => simp [filings, packages]
  | cons v vs ih =>
    rw [List.cons_append, filings, filings, ih, List.cons_append]
    rw [packages_cons]
    split
    · rw [List.getLast?_cons]
      cases (packages vs).getLast? <;> rfl
    · rfl

/-- The object met next is filed with the last package so far. -/
theorem filings_concat (vs : List Visit) (v : Visit) :
    filings none (vs ++ [v]) = filings none vs ++
      [⟨v, if v.obj.isPackage then some v.obj else (packages vs).getLast?⟩] := by
  rw [filings_append, Option.or_none]
  rfl

/-- What is filed is filed with a package that was met, unless it is met before the first. -/
theorem package_eq_or_mem {package : Option Obj} {vs : List Visit} {x : Filing}
    (hx : x ∈ filings package vs) : x.package = package ∨ ∃ q ∈ packages vs, x.package = some q := by
  induction vs generalizing package with
  | nil => cases hx
  | cons v vs ih =>
    rw [filings] at hx
    rw [packages_cons]
    by_cases hv : v.obj.isPackage = true
    · rw [if_pos hv] at hx ⊢
      rcases List.mem_cons.mp hx with rfl | hx
      · exact Or.inr ⟨_, List.mem_cons_self, rfl⟩
      · rcases ih hx with h | ⟨q, hq, h⟩
        · exact Or.inr ⟨_, List.mem_cons_self, h⟩
        · exact Or.inr ⟨q, List.mem_cons_of_mem _ hq, h⟩
    · rw [if_neg hv] at hx ⊢
      rcases List.mem_cons.mp hx with rfl | hx
      · exact Or.inl rfl
      · exact ih hx

theorem package_mem {vs : List Visit} {x : Filing} {p : Obj} (hx : x ∈ filings none vs)
    (hp : x.package = some p) : p ∈ packages vs := by
  rcases package_eq_or_mem hx with h | ⟨q, hq, h⟩
  · rw [hp] at h
    cases h
  · rw [hp, Option.some.injEq] at h
    exact h ▸ hq

/-- The objects filed are those met. -/
theorem filings_toVisit (package : Option Obj) (vs : List Visit) :
    (filings package vs).map Filing.toVisit = vs := by
  induction vs generalizing package with
  | nil => rfl
  | cons v vs ih => rw [filings, List.map_cons, ih]

/-! ## What a node holds -/

/-- **A node holds what is filed with its package**: the NUMA node met last, the
cores, the host bridges and the bridges of the devices, and each device under the
nearest host bridge above it. -/
structure Numanode.Holds (own : List Filing) (numa : Numanode) : Prop where
  numanode : numa.numanode = ((own.map (·.obj)).filter (·.isNumaNode)).getLast?
  cores : numa.cores.Nodup ∧ ∀ l, l ∈ numa.cores ↔ l.isCore = true ∧ ∃ x ∈ own, x.obj = l
  bridges : (numa.bridge.map Prod.fst).Nodup ∧ ∀ b, b ∈ numa.bridge.map Prod.fst ↔
    (b.isHostBridge = true ∧ ∃ x ∈ own, x.obj = b) ∨ ∃ x ∈ own, x.obj.isPCI ∧ x.bridge = some b
  devices : ∀ e ∈ numa.bridge, e.2.Nodup ∧ ∀ l, l ∈ e.2 ↔
    l.isPCI = true ∧ ∃ x ∈ own, x.obj = l ∧ x.bridge = some e.1

namespace Obj

variable {l : Obj}

/-- The tests look at the type, so an object passes one of them at most. -/
theorem isPackage_iff : l.isPackage = true ↔ l.type = .package := by simp [isPackage]

theorem isNumaNode_iff : l.isNumaNode = true ↔ l.type = .numanode := by simp [isNumaNode]

theorem isCore_iff : l.isCore = true ↔ l.type = .core := by simp [isCore]

theorem isPCI_iff : l.isPCI = true ↔ l.type = .pciDevice := by simp [isPCI]

theorem type_of_isHostBridge (hl : l.isHostBridge = true) : l.type = .bridge := by
  unfold isHostBridge at hl
  split at hl
  · cases hl
  · rename_i htype
    simpa using htype

end Obj

namespace Numanode.Holds

variable {own : List Filing} {numa : Numanode} {x : Filing} {b : Obj}

theorem empty (hx : x.obj.isFiled = false) : Numanode.empty.Holds [x] := by
  simp only [Obj.isFiled, Bool.or_eq_false_iff] at hx
  obtain ⟨⟨⟨hnuma, hbridge⟩, hcore⟩, hpci⟩ := hx
  refine ⟨?_, ⟨List.nodup_nil, fun l => ?_⟩, ⟨List.nodup_nil, fun l => ?_⟩, by simp [Numanode.empty]⟩
  · simp [Numanode.empty, hnuma]
  · grind [Numanode.empty]
  · grind [Numanode.empty]

/-- What is not filed changes nothing. -/
theorem skip (hn : numa.Holds own) (hx : x.obj.isFiled = false) : numa.Holds (own ++ [x]) := by
  simp only [Obj.isFiled, Bool.or_eq_false_iff] at hx
  obtain ⟨⟨⟨hnuma, hbridge⟩, hcore⟩, hpci⟩ := hx
  refine ⟨?_, ⟨hn.cores.1, fun l => ?_⟩, ⟨hn.bridges.1, fun l => ?_⟩, fun e he => ⟨(hn.devices e he).1, fun l => ?_⟩⟩
  · rw [hn.numanode]
    simp [hnuma]
  · grind [hn.cores.2 l]
  · grind [hn.bridges.2 l]
  · grind [(hn.devices e he).2 l]

theorem setNumanode (hn : numa.Holds own) (hx : x.obj.isNumaNode = true) :
    Numanode.Holds (own ++ [x]) { numa with numanode := some x.obj } := by
  have htype := Obj.isNumaNode_iff.mp hx
  have hcore : x.obj.isCore = false := by simp [Obj.isCore, htype]
  have hpci : x.obj.isPCI = false := by simp [Obj.isPCI, htype]
  have hbridge : x.obj.isHostBridge = false := by simp [Obj.isHostBridge, htype]
  refine ⟨?_, ⟨hn.cores.1, fun l => ?_⟩, ⟨hn.bridges.1, fun l => ?_⟩, fun e he => ⟨(hn.devices e he).1, fun l => ?_⟩⟩
  · simp [hx]
  · grind [hn.cores.2 l]
  · grind [hn.bridges.2 l]
  · grind [(hn.devices e he).2 l]

theorem emplaceCore (hn : numa.Holds own) (hx : x.obj.isCore = true) :
    (numa.emplaceCore x.obj).Holds (own ++ [x]) := by
  have htype := Obj.isCore_iff.mp hx
  have hnuma : x.obj.isNumaNode = false := by simp [Obj.isNumaNode, htype]
  have hpci : x.obj.isPCI = false := by simp [Obj.isPCI, htype]
  have hbridge : x.obj.isHostBridge = false := by simp [Obj.isHostBridge, htype]
  have heq : numa.emplaceCore x.obj = { numa with cores := (numa.emplaceCore x.obj).cores } := by
    unfold Numanode.emplaceCore
    split <;> rfl
  rw [heq]
  refine ⟨?_, ⟨?_, fun l => ?_⟩, ⟨hn.bridges.1, fun l => ?_⟩,
    fun e he => ⟨(hn.devices e he).1, fun l => ?_⟩⟩
  · simp [hn.numanode, hnuma]
  · unfold Numanode.emplaceCore
    split
    · exact hn.cores.1
    · rename_i hnew
      exact List.nodup_append.mpr ⟨hn.cores.1, List.nodup_singleton _, by grind⟩
  · unfold Numanode.emplaceCore
    grind [hn.cores.2 l]
  · grind [hn.bridges.2 l]
  · grind [(hn.devices e he).2 l]

/-- The bridges with one more, which has no devices if it is new. -/
theorem keys_emplaceBridge (hn : (numa.bridge.map Prod.fst).Nodup) :
    ((numa.emplaceBridge b).bridge.map Prod.fst).Nodup ∧
      (∀ k, k ∈ (numa.emplaceBridge b).bridge.map Prod.fst ↔
        k ∈ numa.bridge.map Prod.fst ∨ k = b) ∧
      ∀ e ∈ (numa.emplaceBridge b).bridge, e ∈ numa.bridge ∨
        e = (b, []) ∧ b ∉ numa.bridge.map Prod.fst := by
  unfold Numanode.emplaceBridge
  split
  · rename_i hb
    exact ⟨hn, fun k => ⟨Or.inl, fun hk => hk.elim id fun hk => hk ▸ hb⟩, fun e he => Or.inl he⟩
  · rename_i hb
    refine ⟨?_, fun k => by simp, fun e he => ?_⟩
    · rw [List.map_append, List.map_singleton]
      exact List.nodup_append.mpr ⟨hn, List.nodup_singleton _, by grind⟩
    · rcases List.mem_append.mp he with he | he
      · exact Or.inl he
      · exact Or.inr ⟨List.mem_singleton.mp he, hb⟩

theorem emplaceBridge (hn : numa.Holds own) (hx : x.obj.isHostBridge = true) :
    (numa.emplaceBridge x.obj).Holds (own ++ [x]) := by
  have htype := Obj.type_of_isHostBridge hx
  have hnuma : x.obj.isNumaNode = false := by simp [Obj.isNumaNode, htype]
  have hpci : x.obj.isPCI = false := by simp [Obj.isPCI, htype]
  have hcore : x.obj.isCore = false := by simp [Obj.isCore, htype]
  obtain ⟨hnodup, hkeys, hentries⟩ := keys_emplaceBridge (b := x.obj) hn.bridges.1
  have heq : numa.emplaceBridge x.obj =
      { numa with bridge := (numa.emplaceBridge x.obj).bridge } := by
    unfold Numanode.emplaceBridge
    split <;> rfl
  rw [heq]
  refine ⟨?_, ⟨hn.cores.1, fun l => ?_⟩, ⟨hnodup, fun l => ?_⟩, fun e he => ?_⟩
  · simp [hn.numanode, hnuma]
  · grind [hn.cores.2 l]
  · rw [hkeys l, hn.bridges.2 l]
    grind
  · rcases hentries e he with he | ⟨rfl, hnew⟩
    · refine ⟨(hn.devices e he).1, fun l => ?_⟩
      grind [(hn.devices e he).2 l]
    · -- a device under it would have made the bridge
      rw [hn.bridges.2] at hnew
      refine ⟨List.nodup_nil, fun l => ?_⟩
      grind

theorem emplacePCI (hn : numa.Holds own) (hx : x.obj.isPCI = true) (hb : x.bridge = some b) :
    (numa.emplacePCI b x.obj).Holds (own ++ [x]) := by
  have htype := Obj.isPCI_iff.mp hx
  have hnuma : x.obj.isNumaNode = false := by simp [Obj.isNumaNode, htype]
  have hbridge : x.obj.isHostBridge = false := by simp [Obj.isHostBridge, htype]
  have hcore : x.obj.isCore = false := by simp [Obj.isCore, htype]
  obtain ⟨hnodup, hkeys, hentries⟩ := keys_emplaceBridge (b := b) hn.bridges.1
  have hnumanode : (numa.emplaceBridge b).numanode = numa.numanode := by
    unfold Numanode.emplaceBridge
    split <;> rfl
  have hcores : (numa.emplaceBridge b).cores = numa.cores := by
    unfold Numanode.emplaceBridge
    split <;> rfl
  have hfst : (numa.emplacePCI b x.obj).bridge.map Prod.fst =
      (numa.emplaceBridge b).bridge.map Prod.fst := by
    rw [Numanode.emplacePCI, List.map_map]
    refine List.map_congr_left fun e _ => ?_
    simp only [Function.comp]
    split <;> rfl
  -- what each bridge has before the device is put in
  have hold : ∀ e ∈ (numa.emplaceBridge b).bridge, e.2.Nodup ∧ ∀ l, l ∈ e.2 ↔
      l.isPCI = true ∧ ∃ y ∈ own, y.obj = l ∧ y.bridge = some e.1 := by
    intro e he
    rcases hentries e he with he | ⟨rfl, hnew⟩
    · exact hn.devices e he
    · rw [hn.bridges.2] at hnew
      exact ⟨List.nodup_nil, by grind⟩
  refine ⟨?_, ⟨?_, fun l => ?_⟩, ⟨by rw [hfst]; exact hnodup, fun k => ?_⟩, fun e he => ?_⟩
  · simp [Numanode.emplacePCI, hnumanode, hn.numanode, hnuma]
  · rw [Numanode.emplacePCI, hcores]
    exact hn.cores.1
  · rw [Numanode.emplacePCI, hcores]
    grind [hn.cores.2 l]
  · rw [hfst, hkeys k, hn.bridges.2 k]
    grind
  · obtain ⟨e₀, he₀, rfl⟩ := List.mem_map.mp he
    obtain ⟨hnd, hmem⟩ := hold e₀ he₀
    split
    · rename_i hk
      refine ⟨?_, fun l => ?_⟩
      · dsimp only
        split
        · exact hnd
        · exact List.nodup_append.mpr ⟨hnd, List.nodup_singleton _, by grind⟩
      · dsimp only
        grind [hmem l]
    · refine ⟨hnd, fun l => ?_⟩
      grind [hmem l]

end Numanode.Holds

/-- What filing `l` does to a node. -/
def Numanode.add (l : Obj) (bridge : Option Obj) (numa : Numanode) : Numanode :=
  if l.isNumaNode then { numa with numanode := some l }
  else if l.isHostBridge then numa.emplaceBridge l
  else if l.isCore then numa.emplaceCore l
  else match bridge with
    | some b => numa.emplacePCI b l
    | none => numa

/-- **What the walk does at an object**: a package opens a node, a device without
a bridge ends the walk, and what is filed changes the last node only. -/
theorem file_eq (l : Obj) (bridge : Option Obj) (numanodes : List Numanode) :
    file l bridge numanodes =
      if l.isPackage then .ok (numanodes ++ [.empty])
      else if l.isFiled then
        if l.isPCI ∧ bridge = none then .error .nullBridge
        else atBack (Numanode.add l bridge) numanodes
      else .ok numanodes := by
  have hbridge : l.type ≠ .bridge → l.isHostBridge = false := fun h => by
    simp [Obj.isHostBridge, h]
  cases htype : l.type with
  | pciDevice =>
    unfold file Obj.isFiled Numanode.add
    cases bridge <;> simp [Obj.isPackage, Obj.isNumaNode, Obj.isCore, Obj.isPCI, htype,
      hbridge (by simp [htype])]
  | bridge =>
    unfold file Obj.isFiled Numanode.add
    cases l.isHostBridge <;>
      simp [Obj.isPackage, Obj.isNumaNode, Obj.isCore, Obj.isPCI, htype]
  | package | numanode | core | pu | osDevice | misc | other =>
    unfold file Obj.isFiled Numanode.add
    simp [Obj.isPackage, Obj.isNumaNode, Obj.isCore, Obj.isPCI, htype, hbridge (by simp [htype])]

@[simp] theorem atBack_nil (f : Numanode → Numanode) :
    atBack f [] = .error .backOfEmpty := rfl

@[simp] theorem atBack_concat (f : Numanode → Numanode) (ns : List Numanode) (numa : Numanode) :
    atBack f (ns ++ [numa]) = .ok (ns ++ [f numa]) := by
  simp [atBack]

/-- A package is not filed. -/
theorem Obj.isFiled_of_isPackage {l : Obj} (hl : l.isPackage = true) : l.isFiled = false := by
  have htype := isPackage_iff.mp hl
  simp [isFiled, isNumaNode, isHostBridge, isCore, isPCI, htype]

/-- The step of the walk succeeds where there is a node, and a bridge for a device. -/
theorem exists_file_iff {l : Obj} {bridge : Option Obj} {numanodes : List Numanode} :
    (∃ numanodes', file l bridge numanodes = .ok numanodes') ↔
      (l.isFiled = true → numanodes ≠ [] ∧ (l.isPCI = true → bridge.isSome = true)) := by
  rw [file_eq]
  split
  · rename_i hl
    simp [Obj.isFiled_of_isPackage hl]
  · split
    · rename_i hl
      rcases List.eq_nil_or_concat numanodes with rfl | ⟨ns, numa, rfl⟩
      · cases bridge <;> cases l.isPCI <;> simp [hl]
      · cases bridge <;> cases l.isPCI <;> simp [hl]
    · rename_i hl
      simp [hl]

/-- It makes a node for a package, and none otherwise. -/
theorem length_file {l : Obj} {bridge : Option Obj} {numanodes numanodes' : List Numanode}
    (hf : file l bridge numanodes = .ok numanodes') :
    numanodes'.length = numanodes.length + if l.isPackage then 1 else 0 := by
  rw [file_eq] at hf
  split at hf
  · rename_i hl
    rw [← Except.ok.inj hf, if_pos hl, List.length_append]
    rfl
  · rename_i hl
    rw [if_neg hl]
    split at hf
    · split at hf
      · cases hf
      · rcases List.eq_nil_or_concat numanodes with rfl | ⟨ns, numa, rfl⟩
        · cases hf
        · rw [List.concat_eq_append, atBack_concat] at hf
          rw [← Except.ok.inj hf]
          simp
    · rw [← Except.ok.inj hf]
      rfl

/-- **One object is filed**: the last node changes, and no other. -/
theorem Numanode.Holds.file {own : List Filing} {numa : Numanode} {x : Filing}
    {ns numanodes : List Numanode} (hn : numa.Holds own) (hp : x.obj.isPackage = false)
    (hf : file x.obj x.bridge (ns ++ [numa]) = .ok numanodes) :
    ∃ numa' : Numanode, numanodes = ns ++ [numa'] ∧ numa'.Holds (own ++ [x]) := by
  rw [file_eq, hp, if_neg Bool.false_ne_true] at hf
  split at hf
  · rename_i hx
    split at hf
    · cases hf
    · rename_i hpci
      rw [atBack_concat] at hf
      refine ⟨_, (Except.ok.inj hf).symm, ?_⟩
      unfold Numanode.add
      split
      · rename_i hnuma
        exact hn.setNumanode hnuma
      · rename_i hnuma
        split
        · rename_i hbridge
          exact hn.emplaceBridge hbridge
        · rename_i hbridge
          split
          · rename_i hcore
            exact hn.emplaceCore hcore
          · rename_i hcore
            have hx : x.obj.isPCI = true := by
              simpa [Obj.isFiled, hnuma, hbridge, hcore] using hx
            split
            · rename_i b hb
              exact hn.emplacePCI hx hb
            · rename_i hb
              exact absurd ⟨hx, hb⟩ hpci
  · rename_i hx
    exact ⟨numa, (Except.ok.inj hf).symm, hn.skip (by simpa using hx)⟩

theorem filedWith_concat (p : Obj) (vs : List Visit) (v : Visit) :
    filedWith p (vs ++ [v]) = filedWith p vs ++
      if (if v.obj.isPackage then some v.obj else (packages vs).getLast?) = some p then
        [⟨v, some p⟩] else [] := by
  rw [filedWith, filings_concat, List.filter_append, ← filedWith]
  generalize (if v.obj.isPackage = true then some v.obj else (packages vs).getLast?) = package
  by_cases h : package = some p
  · rw [if_pos h, h]
    simp
  · rw [if_neg h]
    simp [h]

/-- Nothing is filed with a package that was not met. -/
theorem filedWith_eq_nil {p : Obj} {vs : List Visit} (hp : p ∉ packages vs) :
    filedWith p vs = [] := by
  rw [filedWith, List.filter_eq_nil_iff]
  intro x hx hpack
  exact hp (package_mem hx (of_decide_eq_true hpack))

/-- **The nodes of a walk**: one for each package met, and each holds what is
filed with its package. -/
theorem holds_of_foldlM {vs : List Visit} {numanodes : List Numanode} (hn : (packages vs).Nodup)
    (h : vs.foldlM (fun numanodes v => file v.obj v.bridge numanodes) [] = .ok numanodes) :
    List.Forall₂ (fun p numa => numa.Holds (filedWith p vs)) (packages vs) numanodes := by
  induction vs using List.reverseRecOn generalizing numanodes with
  | nil =>
    obtain rfl : [] = numanodes := Except.ok.inj h
    exact List.Forall₂.nil
  | append_singleton vs v ih =>
    obtain ⟨numanodes₀, h₀, h⟩ := foldlM_concat_eq_ok.mp h
    rw [packages_append] at hn ⊢
    have ih := ih (List.nodup_append.mp hn).1 h₀
    by_cases hp : v.obj.isPackage = true
    · -- a package: it has a node of its own, and nothing but itself is filed with it
      have hpack : packages [v] = [v.obj] := by simp [packages, hp]
      rw [hpack] at hn ⊢
      have hnew : v.obj ∉ packages vs :=
        fun hmem => (List.nodup_append.mp hn).2.2 _ hmem _ List.mem_cons_self rfl
      have hnodes : numanodes₀ ++ [.empty] = numanodes := by
        rw [file_eq, if_pos hp] at h
        exact Except.ok.inj h
      rw [← hnodes]
      refine forall₂_concat.mpr ⟨forall₂_imp_of_mem ih fun p hmem numa hh => ?_, ?_⟩
      · rw [filedWith_concat, if_pos hp, if_neg, List.append_nil]
        · exact hh
        · rintro ⟨⟩
          exact hnew hmem
      · rw [filedWith_concat, if_pos hp, if_pos rfl, filedWith_eq_nil hnew]
        exact Numanode.Holds.empty (Obj.isFiled_of_isPackage hp)
    · have hpack : packages [v] = [] := by simp [packages, hp]
      rw [hpack, List.append_nil] at hn ⊢
      rcases List.eq_nil_or_concat (packages vs) with hps | ⟨ps, p, hps⟩
      · rw [hps, List.forall₂_nil_left_iff] at ih
        have hlen := length_file h
        rw [ih, if_neg hp, List.length_nil] at hlen
        rw [hps, List.length_eq_zero_iff.mp hlen]
        exact .nil
      · -- the last package's node changes, and no other
        rw [List.concat_eq_append] at hps
        have hlast : (packages vs).getLast? = some p := by rw [hps, List.getLast?_concat]
        rw [hps] at ih hn ⊢
        obtain ⟨ns, numa, rfl, hns, hnuma⟩ := forall₂_concat_left.mp ih
        obtain ⟨numa', rfl, hnuma'⟩ := hnuma.file (x := ⟨v, some p⟩) (by simpa using hp) h
        refine forall₂_concat.mpr ⟨forall₂_imp_of_mem hns fun q hmem numa hh => ?_, ?_⟩
        · rw [filedWith_concat, if_neg hp, hlast, if_neg, List.append_nil]
          · exact hh
          · rintro ⟨⟩
            exact (List.nodup_append.mp hn).2.2 _ hmem _ List.mem_cons_self rfl
        · rw [filedWith_concat, if_neg hp, hlast, if_pos rfl]
          exact hnuma'

end EfaExamples
