import Mathlib.Algebra.Group.Nat.Defs
/-!
# Class `Hwloc`

`gpuloc.h`: the objects of an hwloc topology, what the tests of `Hwloc` make
of them, and the `Numanode` that `Traverse` leaves for each package. An
unordered container of the source is the list of its elements in the order an
iteration meets them.
-/

namespace EfaExamples

/-- The types of hwloc objects the code tells apart. -/
inductive ObjType
  | package
  | numanode
  | core
  | pu
  | bridge
  | pciDevice
  | osDevice
  | misc
  | other
  deriving DecidableEq, Repr

/-- `HWLOC_OBJ_OSDEV_OPENFABRICS`, or another type of OS device. -/
inductive OsdevType
  | openfabrics
  | other
  deriving DecidableEq, Repr

/-- `hwloc_pcidev_attr_s`. -/
structure PcidevAttr where
  domain : ℕ := 0
  bus : ℕ := 0
  dev : ℕ := 0
  func : ℕ := 0
  classId : ℕ := 0
  vendorId : ℕ := 0
  deriving DecidableEq, Repr

/-- The first four bytes of the `struct` as a little-endian number: the domain takes two of them. -/
def PcidevAttr.word (a : PcidevAttr) : ℕ :=
  a.domain % 2 ^ 16 + 2 ^ 16 * (a.bus % 2 ^ 8) + 2 ^ 24 * (a.dev % 2 ^ 8)

/-- `hwloc_obj_bridge_type_t`. -/
inductive BridgeType
  | host
  | pci
  deriving DecidableEq, Repr

/-- `hwloc_bridge_attr_s`. -/
structure BridgeAttr where
  /-- `upstream.pci`, the first member -/
  upstream : PcidevAttr := {}
  upstreamType : BridgeType := .host
  deriving DecidableEq, Repr

/-- `hwloc_obj_attr_u`, by what its arms say. It is a union, so an arm the
object does not use reads the bytes of the one it does. -/
structure Attr where
  pcidev : PcidevAttr := {}
  bridge : BridgeAttr := {}
  osdev : OsdevType := .other
  /-- the first four bytes of an arm that the code never means to read -/
  word : ℕ := 0
  deriving DecidableEq, Repr

/-- What an object says of itself; no two objects have the same address. -/
structure ObjData where
  address : ℕ
  type : ObjType
  logicalIndex : ℕ := 0
  /-- the number the operating system has for it -/
  osIndex : ℕ := 0
  attr : Attr := {}
  deriving DecidableEq, Repr

namespace ObjData

/-- The first four bytes of `attr`, of an object that is no OS device. -/
def word (d : ObjData) : ℕ :=
  if d.type = .pciDevice then d.attr.pcidev.word
  else if d.type = .bridge then d.attr.bridge.upstream.word
  else d.attr.word

/-- `attr->osdev.type`, which is the first four bytes, of any object. -/
def osdevType (d : ObjData) : OsdevType :=
  if d.type = .osDevice then d.attr.osdev
  -- `HWLOC_OBJ_OSDEV_OPENFABRICS`
  else if d.word = 3 then .openfabrics
  else .other

end ObjData

/-- `hwloc_obj_t`, with its children: memory, normal, I/O and misc. -/
inductive Obj
  | mk (data : ObjData) (memory normal io misc : List Obj)

namespace Obj

/-- The members of the object. -/
def data : Obj → ObjData
  | mk d _ _ _ _ => d

/-- `l->type`. -/
def type (l : Obj) : ObjType := l.data.type

/-- `l->logical_index`. -/
def logicalIndex (l : Obj) : ℕ := l.data.logicalIndex

/-- `l->os_index`. -/
def osIndex (l : Obj) : ℕ := l.data.osIndex

/-- `l->attr->pcidev`. -/
def pcidev (l : Obj) : PcidevAttr := l.data.attr.pcidev

mutual

/-- Two objects are the same one. -/
def decEq : (x y : Obj) → Decidable (x = y)
  | mk d m n i s, mk d' m' n' i' s' =>
    have := decEqList m m'
    have := decEqList n n'
    have := decEqList i i'
    have := decEqList s s'
    decidable_of_iff (d = d' ∧ m = m' ∧ n = n' ∧ i = i' ∧ s = s') (by simp)

/-- Two lists of objects are the same. -/
def decEqList : (x y : List Obj) → Decidable (x = y)
  | [], [] => isTrue rfl
  | [], _ :: _ => isFalse (by simp)
  | _ :: _, [] => isFalse (by simp)
  | x :: xs, y :: ys =>
    have := decEq x y
    have := decEqList xs ys
    decidable_of_iff (x = y ∧ xs = ys) (by simp)

end

instance : DecidableEq Obj := decEq

mutual

/-- `Hwloc::IsOSDevType`. PUs are passed over among the memory and the normal
children only. -/
def isOSDevType (type : OsdevType) : Obj → Bool
  | mk d memory normal io misc =>
    d.osdevType == type || anyOSDevType type true memory || anyOSDevType type true normal ||
      anyOSDevType type false io || anyOSDevType type false misc

/-- The loop of `IsOSDevType` over the children of one kind. -/
def anyOSDevType (type : OsdevType) (skipPU : Bool) : List Obj → Bool
  | [] => false
  | mk d memory normal io misc :: rest =>
    (!(skipPU && d.type == .pu) && isOSDevType type (mk d memory normal io misc)) ||
      anyOSDevType type skipPU rest

end

/-- `Hwloc::IsPackage`. -/
def isPackage (l : Obj) : Bool := l.type == .package

/-- `Hwloc::IsNumaNode`. -/
def isNumaNode (l : Obj) : Bool := l.type == .numanode

/-- `Hwloc::IsCore`. -/
def isCore (l : Obj) : Bool := l.type == .core

/-- `Hwloc::IsPCI`. -/
def isPCI (l : Obj) : Bool := l.type == .pciDevice

/-- `Hwloc::IsHostBridge`. -/
def isHostBridge (l : Obj) : Bool :=
  if l.type != .bridge then false else l.data.attr.bridge.upstreamType != .pci

/-- `NVIDIA_VENDOR_ID`. -/
def nvidiaVendorId : ℕ := 0x10de

/-- `Hwloc::IsGPU`. -/
def isGPU (l : Obj) : Bool :=
  if l.type != .pciDevice then false
  else if l.pcidev.classId >>> 8 != 0x03 then false
  else if l.pcidev.vendorId != nvidiaVendorId then false
  else true

/-- `Hwloc::IsEFA`. -/
def isEFA (l : Obj) : Bool :=
  if l.type != .pciDevice then false else isOSDevType .openfabrics l

end Obj

/-- `Numanode`. Without a NUMA node object its pointer is null. -/
structure Numanode where
  numanode : Option Obj
  cores : List Obj
  bridge : List (Obj × List Obj)
  deriving DecidableEq

end EfaExamples
