import EfaExamples.Gpuloc.Walk
/-!
# Where the walk is defined

Everything but a package goes into the last node of the vector, and a device
under the bridge it inherits. So the walk is defined exactly on the topologies
in which, depth first, a package comes before all that is filed, and every device
has a host bridge above it. Memory children come before the normal children, so
a NUMA node of the machine itself comes before any package.
-/

namespace EfaExamples

/-- **What discovery needs of a topology.** -/
structure Discoverable (t : Obj) : Prop where
  /-- a package is met before whatever is filed -/
  package : ∀ before v after, t.reached = before ++ v :: after → v.obj.isFiled = true →
    ∃ u ∈ before, u.obj.isPackage = true
  /-- a device has a host bridge above it -/
  bridge : ∀ v ∈ t.reached, v.obj.isPCI = true → ∃ b ∈ v.above, b.isHostBridge = true

/-- What holds of every item and what comes before it. -/
theorem forall_split_concat {α : Type} {P : List α → α → Prop} {l : List α} {a : α} :
    (∀ before x after, l ++ [a] = before ++ x :: after → P before x) ↔
      (∀ before x after, l = before ++ x :: after → P before x) ∧ P l a := by
  constructor
  · intro h
    refine ⟨fun before x after heq => h before x (after ++ [a]) ?_, h l a [] rfl⟩
    rw [heq, List.append_assoc, List.cons_append]
  · rintro ⟨hl, ha⟩ before x after heq
    rcases List.eq_nil_or_concat after with rfl | ⟨after, b, rfl⟩
    · obtain ⟨rfl, hlast⟩ := List.append_inj' heq rfl
      rw [← (List.cons.inj hlast).1]
      exact ha
    · rw [List.concat_eq_append, ← List.cons_append, ← List.append_assoc] at heq
      obtain ⟨rfl, -⟩ := List.append_inj' heq rfl
      exact hl before x after rfl

/-- The walk makes a node for each package. -/
theorem length_of_foldlM {vs : List Visit} {numanodes : List Numanode}
    (h : vs.foldlM (fun numanodes v => file v.obj v.bridge numanodes) [] = .ok numanodes) :
    numanodes.length = (packages vs).length := by
  induction vs using List.reverseRecOn generalizing numanodes with
  | nil =>
    rw [← Except.ok.inj h]
    rfl
  | append_singleton vs v ih =>
    obtain ⟨numanodes₀, h₀, hf⟩ := foldlM_concat_eq_ok.mp h
    rw [length_file hf, ih h₀, packages_append, List.length_append, packages_cons]
    split <;> rfl

theorem packages_ne_nil {vs : List Visit} : packages vs ≠ [] ↔ ∃ u ∈ vs, u.obj.isPackage = true := by
  simp [packages]

theorem Visit.bridge_isSome {v : Visit} :
    v.bridge.isSome = true ↔ ∃ b ∈ v.above, b.isHostBridge = true := by
  rw [bridge, List.find?_isSome]

/-- The object can be filed after what comes before it. -/
def Visit.Fileable (before : List Visit) (v : Visit) : Prop := v.obj.isFiled = true →
  (∃ u ∈ before, u.obj.isPackage = true) ∧ (v.obj.isPCI = true → v.bridge.isSome = true)

/-- Round after round. -/
theorem exists_foldlM_iff {vs : List Visit} :
    (∃ numanodes, vs.foldlM (fun numanodes v => file v.obj v.bridge numanodes) [] =
        .ok numanodes) ↔
      ∀ before v after, vs = before ++ v :: after → v.Fileable before := by
  induction vs using List.reverseRecOn with
  | nil => exact ⟨fun _ before v after h => by simp at h, fun _ => ⟨[], rfl⟩⟩
  | append_singleton vs v ih =>
    rw [forall_split_concat (P := Visit.Fileable), ← ih]
    constructor
    · rintro ⟨numanodes, h⟩
      obtain ⟨numanodes₀, h₀, hf⟩ := foldlM_concat_eq_ok.mp h
      refine ⟨⟨numanodes₀, h₀⟩, fun hv => ?_⟩
      obtain ⟨hne, hb⟩ := exists_file_iff.mp ⟨numanodes, hf⟩ hv
      refine ⟨packages_ne_nil.mp ?_, hb⟩
      rw [← List.length_pos_iff, ← length_of_foldlM h₀]
      exact List.length_pos_iff.mpr hne
    · rintro ⟨⟨numanodes₀, h₀⟩, hv⟩
      have hstep : ∃ numanodes, file v.obj v.bridge numanodes₀ = .ok numanodes := by
        refine exists_file_iff.mpr fun hfiled => ?_
        obtain ⟨hpack, hb⟩ := hv hfiled
        refine ⟨?_, hb⟩
        rw [← List.length_pos_iff, length_of_foldlM h₀]
        exact List.length_pos_iff.mpr (packages_ne_nil.mpr hpack)
      obtain ⟨numanodes, hf⟩ := hstep
      exact ⟨numanodes, foldlM_concat_eq_ok.mpr ⟨numanodes₀, h₀, hf⟩⟩

/-- **Where topology discovery is defined.** `Traverse` takes no `back()` of an
empty vector and files no device under a null bridge exactly if a package is met
before all that is filed and every device has a host bridge above it. -/
theorem traverse_defined_iff (t : Obj) :
    (∃ numanodes, traverse t none [] = .ok numanodes) ↔ Discoverable t := by
  rw [traverse_root, exists_foldlM_iff]
  constructor
  · intro h
    refine ⟨fun before v after heq hv => (h before v after heq hv).1, fun v hv hpci => ?_⟩
    obtain ⟨before, after, heq⟩ := List.append_of_mem hv
    have hfiled : v.obj.isFiled = true := by simp [Obj.isFiled, hpci]
    exact Visit.bridge_isSome.mp ((h before v after heq hfiled).2 hpci)
  · rintro ⟨hpack, hbridge⟩ before v after heq hv
    refine ⟨hpack before v after heq hv, fun hpci => Visit.bridge_isSome.mpr (hbridge v ?_ hpci)⟩
    rw [heq]
    exact List.mem_append_right _ List.mem_cons_self

/-- An object without children. -/
def leaf (address : ℕ) (type : ObjType) : Obj := .mk { address, type } [] [] [] []

/-- A machine whose NUMA node is its own memory child, next to a package with a core. -/
def flatMachine : Obj :=
  .mk { address := 0, type := .other } [leaf 1 .numanode]
    [.mk { address := 2, type := .package } [] [leaf 3 .core] [] []] [] []

/-- A machine with a device below a PCI-to-PCI bridge, and no host bridge. -/
def bridgeless : Obj :=
  .mk { address := 0, type := .other } []
    [.mk { address := 1, type := .package } [leaf 2 .numanode] []
      [.mk { address := 3, type := .bridge, attr := { bridge := { upstreamType := .pci } } } [] []
        [leaf 4 .pciDevice] []] []] [] []

/-- The NUMA node of the one is filed where there is no node yet, the device of the
other where there is no bridge. -/
theorem traverse_undefined :
    traverse flatMachine none [] = .error .backOfEmpty ∧
      traverse bridgeless none [] = .error .nullBridge := ⟨rfl, rfl⟩

end EfaExamples
