import EfaExamples.Common.Align
import EfaExamples.Efa.Model.Resources
/-!
# The aligned rest of a block

Both constructors keep of a block what lies behind its first aligned address.
`size_` is right as long as that address lies in the block, which nothing
checks: a block smaller than its padding has a `size_` that wraps. The
`CUDABuffer` exports `size` bytes from there on, and not `size_`, so what it
exports lies in the block only if there is no padding.
-/

namespace EfaExamples

variable {k : ℕ} {raw size al : UInt64}

/-- The range lies in the region. -/
def Region.Contains (r : Region) (base len : ℕ) : Prop :=
  r.base.toNat ≤ base ∧ base + len ≤ r.base.toNat + r.len.toNat

instance (r : Region) (base len : ℕ) : Decidable (r.Contains base len) :=
  inferInstanceAs (Decidable (_ ∧ _))

/-- `len` bytes from `data` on are what is left of the `size` bytes at `raw` from the first
multiple of `al` on. -/
structure Aligned (al raw size data len : ℕ) : Prop where
  least : IsLeast {x | al ∣ x ∧ raw ≤ x} data
  within : raw ≤ data ∧ data ≤ raw + size
  rest : data + len = raw + size
  len_le : len ≤ size

/-! ## The arithmetic -/

/-- **The first aligned address, and what is left of the block**, where the address lies in it. -/
theorem align_rest (hk : k < 64)
    (hfit : padTo (2 ^ k) raw.toNat ≤ size.toNat)
    (hword : raw.toNat + padTo (2 ^ k) raw.toNat < 2 ^ 64) :
    (align raw (.ofNat (2 ^ k))).toNat = raw.toNat + padTo (2 ^ k) raw.toNat ∧
      (raw + size - align raw (.ofNat (2 ^ k))).toNat + padTo (2 ^ k) raw.toNat = size.toNat := by
  have hdata : (align raw (.ofNat (2 ^ k))).toNat = raw.toNat + padTo (2 ^ k) raw.toNat :=
    toNat_alignUp raw hk hword
  have hrest : (raw + size - align raw (.ofNat (2 ^ k))).toNat =
      (2 ^ 64 - (align raw (.ofNat (2 ^ k))).toNat + (raw.toNat + size.toNat) % 2 ^ 64) %
        2 ^ 64 := by
    rw [UInt64.toNat_sub, UInt64.toNat_add]
  have hsize : size.toNat < 2 ^ 64 := size.toNat_lt
  refine ⟨hdata, ?_⟩
  rw [hrest, hdata]
  omega

/-- **The rest is right exactly if the first aligned address lies in the block.** -/
theorem aligned_align_iff (hk : k < 64) (hspace : raw.toNat + size.toNat ≤ 2 ^ 64) :
    Aligned (2 ^ k) raw.toNat size.toNat (align raw (.ofNat (2 ^ k))).toNat
        (raw + size - align raw (.ofNat (2 ^ k))).toNat ↔
      padTo (2 ^ k) raw.toNat ≤ size.toNat ∧
        raw.toNat + padTo (2 ^ k) raw.toNat < 2 ^ 64 := by
  have hleast := isLeast_add_padTo (n := raw.toNat) (Nat.two_pow_pos k)
  constructor
  · intro h
    have hdata := h.least.unique hleast
    have hword : (align raw (.ofNat (2 ^ k))).toNat < 2 ^ 64 := UInt64.toNat_lt _
    have := h.within
    omega
  · rintro ⟨hfit, hword⟩
    obtain ⟨hdata, hrest⟩ := align_rest hk hfit hword
    exact ⟨hdata ▸ hleast, by omega, by omega, by omega⟩

/-! ## The constructors -/

/-- What is registered is the `iovec`. -/
theorem Region.bind_eq_ok {sys : System} {data len : UInt64} {mr : Region}
    (h : Region.bind sys data len = .ok mr) : mr = { base := data, len := len } := by
  simp only [Region.bind] at h
  split at h
  · exact (Except.ok.inj h).symm
  · cases h

/-- What `HostBuffer` registers is the aligned rest of the block. -/
theorem HostBuffer.make_eq {sys : System} {domain : ℕ} {b : HostBuffer}
    (h : HostBuffer.make sys domain size al = .ok b) :
    allocate sys size al = .ok (b.raw, b.data, b.size) ∧
      b.mr = { base := b.data, len := b.size } := by
  obtain ⟨_, -, h⟩ := bind_eq_ok.mp h
  obtain ⟨r, hr, h⟩ := bind_eq_ok.mp h
  obtain ⟨mr, hmr, h⟩ := bind_eq_ok.mp h
  obtain rfl := Except.ok.inj h
  exact ⟨hr, Region.bind_eq_ok hmr⟩

theorem allocate_eq_ok {sys : System} {r : UInt64 × UInt64 × UInt64}
    (h : allocate sys size al = .ok r) :
    r = (sys.malloc size, align (sys.malloc size) al,
      sys.malloc size + size - align (sys.malloc size) al) := by
  simp only [allocate] at h
  split at h
  · cases h
  · exact (Except.ok.inj h).symm

/-- `CUDABuffer` keeps the same of its block, and exports `size` bytes of it. -/
theorem CUDABuffer.make_eq {sys : CudaSystem} {d : Resource} {l : Resources} {b : CUDABuffer}
    (h : (CUDABuffer.make sys d size al l).1 = .ok b) (hraw : sys.cudaMalloc size = .ok raw) :
    b.data = align raw al ∧ b.size = raw + size - align raw al ∧
      ∃ fd, sys.getHandle b.data size = .ok fd := by
  simp only [CUDABuffer.make, hraw] at h
  split at h
  · cases h
  · cases h
  · split at h
    · cases h
    next fd hfd =>
      split at h
      · cases h
      · generalize Resources.bind _ _ _ _ _ _ = r at h
        obtain ⟨e | mr, l'⟩ := r
        · cases h
        · obtain rfl := Except.ok.inj h
          exact ⟨rfl, rfl, fd, hfd⟩

/-- **Alignment.** Of a block within the address space, a `HostBuffer` keeps the aligned rest
exactly if the first aligned address lies in the block, its end included, and is an address. A
`CUDABuffer` does, and exports no byte outside the block, exactly if the block is aligned. -/
theorem aligned_iff {k : ℕ} {size : UInt64} (hk : k < 64) :
    (∀ sys domain b, HostBuffer.make sys domain size (.ofNat (2 ^ k)) = .ok b →
      (sys.malloc size).toNat + size.toNat ≤ 2 ^ 64 →
      (Aligned (2 ^ k) (sys.malloc size).toNat size.toNat b.data.toNat b.size.toNat ↔
        padTo (2 ^ k) (sys.malloc size).toNat ≤ size.toNat ∧
          (sys.malloc size).toNat + padTo (2 ^ k) (sys.malloc size).toNat < 2 ^ 64)) ∧
    ∀ (sys : CudaSystem) d l b raw, (CUDABuffer.make sys d size (.ofNat (2 ^ k)) l).1 = .ok b →
      sys.cudaMalloc size = .ok raw → raw.toNat + size.toNat ≤ 2 ^ 64 →
      (∃ fd, sys.getHandle b.data size = .ok fd) ∧
        (Aligned (2 ^ k) raw.toNat size.toNat b.data.toNat b.size.toNat ∧
            Region.Contains { base := raw, len := size } b.data.toNat size.toNat ↔
          2 ^ k ∣ raw.toNat) := by
  refine ⟨fun sys domain b hb hspace => ?_, fun sys d l b raw hb hraw hspace => ?_⟩
  · obtain ⟨hall, -⟩ := HostBuffer.make_eq hb
    have heq := allocate_eq_ok hall
    rw [Prod.mk.injEq, Prod.mk.injEq] at heq
    rw [heq.2.1, heq.2.2]
    exact aligned_align_iff hk hspace
  · obtain ⟨hdata, hrest, hexport⟩ := CUDABuffer.make_eq hb hraw
    refine ⟨hexport, ?_⟩
    have hpos : 0 < 2 ^ k := Nat.two_pow_pos k
    rw [hdata, hrest, ← padTo_eq_zero_iff hpos, aligned_align_iff hk hspace]
    have hlt : raw.toNat < 2 ^ 64 := raw.toNat_lt
    constructor
    · rintro ⟨⟨hfit, hword⟩, -, hend⟩
      rw [(align_rest hk hfit hword).1] at hend
      simp only at hend
      omega
    · intro hpad
      have hfit : padTo (2 ^ k) raw.toNat ≤ size.toNat := by omega
      have hword : raw.toNat + padTo (2 ^ k) raw.toNat < 2 ^ 64 := by omega
      refine ⟨⟨hfit, hword⟩, ?_⟩
      rw [(align_rest hk hfit hword).1, Region.Contains]
      simp only
      omega

/-- A system whose allocators return one address, and where every call succeeds. -/
def allocating (raw : UInt64) : CudaSystem where
  malloc _ := raw
  regattr _ := 0
  errno := ""
  strerror _ := ""
  cudaMalloc _ := .ok raw
  pointerGetAttributes _ := .ok (true, 0)
  getHandle _ _ := .ok 3
  cudaGetErrorString _ := ""
  cuGetErrorString _ := none
  file := "buffer.h"

/-- The buffers of a `Conn`, on a block that `malloc` aligns to 16 and one that `cudaMalloc` aligns
to 256. -/
theorem aligned_iff_conn :
    (∃ b, HostBuffer.make (allocating 4112).toSystem 1 kBufferSize (.ofNat (2 ^ 7)) = .ok b ∧
      Aligned (2 ^ 7) 4112 8129 b.data.toNat b.size.toNat) ∧
    ∃ b, (CUDABuffer.make (allocating 4096) ⟨.domain, 0⟩ (.ofNat kMemoryRegionSize)
        (.ofNat (2 ^ 7)) {}).1 = .ok b ∧
      Aligned (2 ^ 7) 4096 (2 ^ 30) b.data.toNat b.size.toNat ∧
        Region.Contains { base := 4096, len := .ofNat (2 ^ 30) } b.data.toNat (2 ^ 30) := by
  refine ⟨⟨⟨4112, 4224, 8017, ⟨4224, 8017⟩⟩, by decide, ?_⟩, ?_⟩
  · exact ((@aligned_iff 7 kBufferSize (by decide)).1 (allocating 4112).toSystem 1 _
      (by decide) (by decide)).mpr (by decide)
  · have hiff := (@aligned_iff 7 (.ofNat kMemoryRegionSize) (by decide)).2
      (allocating 4096) ⟨.domain, 0⟩ {} _ 4096 rfl rfl (by decide)
    exact ⟨_, rfl, hiff.2.mpr (by decide)⟩

/-- A block of 64 bytes ends before its first aligned address, and `size_` is 48 below zero. And of
a block that is aligned to 256 but not to 512, 256 bytes behind its end are exported. -/
theorem size_wraps :
    (∃ b, HostBuffer.make (allocating 4112).toSystem 1 64 = .ok b ∧ b.data.toNat = 4224 ∧
      b.size.toNat = 2 ^ 64 - 48 ∧
      ¬ Aligned 128 4112 64 b.data.toNat b.size.toNat) ∧
    ∃ b, (CUDABuffer.make (allocating 4352) ⟨.domain, 0⟩ 4096 512 {}).1 = .ok b ∧
      ¬ Region.Contains { base := 4352, len := 4096 } b.data.toNat 4096 := by
  refine ⟨⟨⟨4112, 4224, 0 - 48, ⟨4224, 0 - 48⟩⟩, by decide, rfl, by decide, ?_⟩, ?_⟩
  · intro h
    exact absurd h.len_le (by decide)
  · refine ⟨⟨⟨some ⟨.cudaBlock, 0⟩, 4608, 3840, some ⟨.mr, 2⟩⟩, some ⟨.dmabuf, 1⟩, 0⟩, ?_, ?_⟩
    · rfl
    · decide

end EfaExamples
