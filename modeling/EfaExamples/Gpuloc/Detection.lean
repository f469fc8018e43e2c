import EfaExamples.Gpuloc.Places
/-!
# What `IsEFA` detects

`IsOSDevType` asks every object it meets for the type of an OS device, with the
one it starts from. Of an object that is none, the answer is in the bytes of
its own attributes. So a PCI device without any OS device passes for an EFA
device if it is device 0 on bus 0 of domain 3.
-/

namespace EfaExamples

/-- The four bytes are 3 at one address, up to the function. -/
theorem PcidevAttr.word_eq_three_iff {a : PcidevAttr} :
    a.word = 3 ↔ a.domain % 2 ^ 16 = 3 ∧ a.bus % 2 ^ 8 = 0 ∧ a.dev % 2 ^ 8 = 0 := by
  unfold word
  omega

theorem ObjData.osdevType_eq_openfabrics_iff {d : ObjData} : d.osdevType = .openfabrics ↔
    d.type = .osDevice ∧ d.attr.osdev = .openfabrics ∨ d.type ≠ .osDevice ∧ d.word = 3 := by
  unfold osdevType
  split <;> rename_i htype
  · simp [htype]
  · split <;> rename_i hword <;> simp [htype, hword]

namespace Obj

variable {type : OsdevType}

theorem anyOSDevType_eq (type : OsdevType) (skipPU : Bool) (ls : List Obj) :
    anyOSDevType type skipPU ls =
      (ls.filter fun c => !(skipPU && c.type == .pu)).any (isOSDevType type) := by
  induction ls with
  | nil => rfl
  | cons l rest ih =>
    rcases l with ⟨d, memory, normal, io, misc⟩
    rw [anyOSDevType, ih, List.filter_cons]
    cases hpu : skipPU && d.type == .pu with
    | true => simp [Obj.type, data, hpu]
    | false => simp [Obj.type, data, hpu]

/-- An object, and its children. -/
theorem isOSDevType_eq (type : OsdevType) (l : Obj) : isOSDevType type l =
    (l.data.osdevType == type || (l.children true).any (isOSDevType type)) := by
  rcases l with ⟨d, memory, normal, io, misc⟩
  rw [isOSDevType, anyOSDevType_eq, anyOSDevType_eq, anyOSDevType_eq, anyOSDevType_eq, children]
  simp [data, Bool.or_assoc]

/-- **What `IsOSDevType` finds** is some object it meets that reads as the type. -/
theorem isOSDevType_iff (l : Obj) (above : List Obj) : isOSDevType type l = true ↔
    ∃ v ∈ l.visits true above, v.obj.data.osdevType = type := by
  induction l using children_induction true generalizing above with
  | h l ih =>
    rw [isOSDevType_eq, visits_eq]
    simp only [Bool.or_eq_true, beq_iff_eq, List.any_eq_true, List.mem_cons, List.mem_flatMap,
      exists_eq_or_imp]
    refine or_congr_right ⟨?_, ?_⟩
    · rintro ⟨c, hc, hfound⟩
      obtain ⟨v, hv, htype⟩ := (ih c hc (l :: above)).mp hfound
      exact ⟨v, ⟨c, hc, hv⟩, htype⟩
    · rintro ⟨v, ⟨c, hc, hv⟩, htype⟩
      exact ⟨c, hc, (ih c hc (l :: above)).mpr ⟨v, hv, htype⟩⟩

/-- An OS device of type OPENFABRICS is met from `l` on. -/
def HasOpenFabrics (l : Obj) : Prop :=
  ∃ v ∈ l.reached, v.obj.type = .osDevice ∧ v.obj.data.attr.osdev = .openfabrics

/-- An object that is no OS device and begins with 3 is met from `l` on. -/
def HasAlias (l : Obj) : Prop :=
  ∃ v ∈ l.reached, v.obj.type ≠ .osDevice ∧ v.obj.data.word = 3

/-- **What `IsEFA` detects**: either of the two. -/
theorem isEFA_iff (l : Obj) :
    l.isEFA = true ↔ l.type = .pciDevice ∧ (l.HasOpenFabrics ∨ l.HasAlias) := by
  have hfound : isOSDevType .openfabrics l = true ↔ l.HasOpenFabrics ∨ l.HasAlias := by
    rw [isOSDevType_iff l []]
    simp only [ObjData.osdevType_eq_openfabrics_iff, and_or_left, exists_or]
    rfl
  rw [isEFA]
  by_cases htype : l.type = .pciDevice
  · simp [htype, hfound]
  · simp [htype]

/-- **Detection.** `IsEFA` tells the PCI devices with an OPENFABRICS device from the other objects,
at `l`, exactly if `l` is no PCI device, or it has such a device, or no object met from it on
that is not an OS device begins with 3. -/
theorem isEFA_exact_iff (l : Obj) :
    (l.isEFA = true ↔ l.type = .pciDevice ∧ l.HasOpenFabrics) ↔
      (l.type = .pciDevice → l.HasOpenFabrics ∨ ¬ l.HasAlias) := by
  rw [isEFA_iff]
  tauto

/-- A disk at 0003:00:00.0, with its block device. -/
def disk : Obj :=
  .mk { address := 1, type := .pciDevice, attr := { pcidev := { domain := 3, classId := 0x0108 } } }
    [] [] [.mk { address := 2, type := .osDevice } [] [] [] []] []

/-- It passes for an EFA device. -/
theorem isEFA_disk : disk.isEFA = true ∧ ¬ (disk.type = .pciDevice ∧ disk.HasOpenFabrics) := by
  refine ⟨by decide, ?_⟩
  rintro ⟨-, h⟩
  unfold HasOpenFabrics at h
  revert h
  decide

end Obj

end EfaExamples
