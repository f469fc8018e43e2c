import EfaExamples.Efa.Alignment
import EfaExamples.Efa.Resumption
/-!
# Ranges and regions

A buffer is what `malloc` returned less the padding before its first aligned
address. `Recv` and `Send` look at neither: what they post lies in the
registered region exactly if its length and the padding fit into
`kBufferSize` together.
-/

namespace EfaExamples

variable {sys : System} {domain : ℕ}

/-- The bytes before the first aligned address. -/
def padding (raw : UInt64) : ℕ := (128 - raw.toNat % 128) % 128

/-- The range of the local iov of a message. -/
def Request.iov : Request → ℕ × ℕ
  | .recv base len => (base, len)
  | .send base len _ => (base, len)
  | .write base len .. => (base, len)

/-- Where a call's `memcpy` writes, if it makes one. -/
def ConnOp.copied : ConnOp → Option (ℕ × ℕ)
  | .send conn _ sz => some (conn.sendBuffer, sz)
  | _ => none

/-- `memcpy` writes nowhere else. -/
theorem ConnOp.mem_of_copied {a : ConnOp} {f f' : Fabric} (hs : a.enter f = .ok f') {i : ℕ}
    (hi : f'.mem i ≠ f.mem i) : ∃ r ∈ a.copied, r.1 ≤ i ∧ i < r.1 + r.2 := by
  cases a with
  | send conn data sz =>
    rw [enter] at hs
    split at hs
    · cases hs
    · split at hs
      · cases hs
      · obtain rfl := Except.ok.inj hs
        refine ⟨_, rfl, ?_⟩
        by_contra hout
        exact hi (if_neg hout)
  | recv conn sz | write conn data sz addr key immData | read conn immData =>
    rw [enter] at hs
    split at hs
    · cases hs
    · obtain rfl := Except.ok.inj hs
      exact absurd rfl hi

/-- **The first aligned address, and what is left of the block.** -/
theorem allocate_eq {r : UInt64 × UInt64 × UInt64} (h : allocate sys kBufferSize kAlign = .ok r)
    (hspace : (sys.malloc kBufferSize).toNat + kBufferSize.toNat ≤ 2 ^ 64) :
    r.2.1.toNat = (sys.malloc kBufferSize).toNat + padding (sys.malloc kBufferSize) ∧
      r.2.2.toNat + padding (sys.malloc kBufferSize) = kBufferSize.toNat := by
  have hsize : kBufferSize.toNat = 8129 := rfl
  have hpad : padTo (2 ^ 7) (sys.malloc kBufferSize).toNat < 2 ^ 7 := padTo_lt (by decide)
  rw [allocate_eq_ok h]
  exact align_rest (k := 7) (by decide) (by omega) (by omega)

/-- The `efa` example registers the same, under the domain. -/
theorem OwnBuffer.register_eq {b b' : OwnBuffer} (h : OwnBuffer.make sys kBufferSize = .ok b)
    (h' : b.register sys domain = .ok b') :
    allocate sys kBufferSize kAlign = .ok (b'.raw, b'.data, b'.size) ∧
      b'.mrs domain = some { base := b'.data, len := b'.size } := by
  obtain ⟨r, hr, h⟩ := bind_eq_ok.mp h
  obtain rfl := Except.ok.inj h
  obtain ⟨mr, hmr, h'⟩ := bind_eq_ok.mp h'
  obtain rfl := Except.ok.inj h'
  exact ⟨hr, (if_pos rfl).trans (congrArg some (Region.bind_eq_ok hmr))⟩

/-- From the first aligned address on, the block holds what the padding leaves. -/
theorem contains_iff {data size : UInt64} {raw : UInt64} (sz : ℕ)
    (h : allocate sys kBufferSize kAlign = .ok (raw, data, size))
    (hspace : (sys.malloc kBufferSize).toNat + kBufferSize.toNat ≤ 2 ^ 64) :
    Region.Contains { base := data, len := size } data.toNat sz ↔
      padding (sys.malloc kBufferSize) + sz ≤ kBufferSize.toNat := by
  obtain ⟨-, hsize⟩ := allocate_eq h hspace
  simp only [Region.Contains] at hsize ⊢
  omega

/-- What the call posts lies in the region, and so does what it copies to. -/
def ConnOp.InRegion (a : ConnOp) (mr : Region) : Prop :=
  (∀ req ∈ a.request, mr.Contains req.iov.1 req.iov.2) ∧ ∀ r ∈ a.copied, mr.Contains r.1 r.2

/-- **Ranges of `Recv` and `Send`.** Of a buffer of `kBufferSize` bytes, a call
stays in the registered region exactly if its length and the padding of the
block fit into `kBufferSize`. It is the same for the `efa` example. -/
theorem inRegion_iff {sz : ℕ}
    (hspace : (sys.malloc kBufferSize).toNat + kBufferSize.toNat ≤ 2 ^ 64) :
    (∀ b, HostBuffer.make sys domain kBufferSize = .ok b →
      (∀ conn f f', conn.recvBuffer = b.data.toNat → (ConnOp.recv conn sz).enter f = .ok f' →
        ((ConnOp.recv conn sz).InRegion b.mr ↔
          padding (sys.malloc kBufferSize) + sz ≤ kBufferSize.toNat)) ∧
      ∀ conn data f f', conn.sendBuffer = b.data.toNat →
        (ConnOp.send conn data sz).enter f = .ok f' →
        ((ConnOp.send conn data sz).InRegion b.mr ↔
          padding (sys.malloc kBufferSize) + sz ≤ kBufferSize.toNat)) ∧
    ∀ b b', OwnBuffer.make sys kBufferSize = .ok b → b.register sys domain = .ok b' →
      ∀ remote req, b'.recv domain sz = .ok req ∨ b'.send domain remote sz = .ok req →
        ((∃ mr, b'.mrs domain = some mr ∧ mr.Contains req.iov.1 req.iov.2) ↔
          padding (sys.malloc kBufferSize) + sz ≤ kBufferSize.toNat) := by
  refine ⟨fun b hb => ?_, fun b b' hb hb' remote req hreq => ?_⟩
  · obtain ⟨hall, hmr⟩ := HostBuffer.make_eq hb
    have hiff := contains_iff sz hall hspace
    refine ⟨fun conn f f' hconn _ => ?_, fun conn data f f' hconn _ => ?_⟩
    · rw [← hiff, ConnOp.InRegion, hmr, ← hconn]
      simp [ConnOp.request, ConnOp.copied, Request.iov]
    · rw [← hiff, ConnOp.InRegion, hmr, ← hconn]
      simp [ConnOp.request, ConnOp.copied, Request.iov]
  · obtain ⟨hall, hmr⟩ := OwnBuffer.register_eq hb hb'
    have hiov : req.iov = (b'.data.toNat, sz) := by
      rcases hreq with hreq | hreq
      · rw [OwnBuffer.recv] at hreq
        split at hreq
        · cases hreq
        · obtain ⟨_, -, hreq⟩ := bind_eq_ok.mp hreq
          rw [← Except.ok.inj hreq]
          rfl
      · rw [OwnBuffer.send] at hreq
        split at hreq
        · cases hreq
        · obtain ⟨_, -, hreq⟩ := bind_eq_ok.mp hreq
          rw [← Except.ok.inj hreq]
          rfl
    rw [← contains_iff sz hall hspace, hiov, hmr]
    simp

/-- A system whose `malloc` returns one address. -/
def mallocAt (raw : UInt64) : System where
  malloc _ := raw
  regattr _ := 0
  errno := ""
  strerror _ := ""

/-- 8017 bytes fit behind a block that needs 112 bytes of padding. -/
theorem inRegion_iff_8017 : ∃ b, HostBuffer.make (mallocAt 16) 1 kBufferSize = .ok b ∧
    (ConnOp.recv { conn with recvBuffer := 128 } 8017).InRegion b.mr := by
  refine ⟨⟨16, 128, 8017, ⟨128, 8017⟩⟩, by decide, ?_⟩
  have h := (@inRegion_iff (mallocAt 16) 1 8017 (by decide)).1
    ⟨16, 128, 8017, ⟨128, 8017⟩⟩ (by decide)
  exact (h.1 { conn with recvBuffer := 128 } quiet quiet (by decide) rfl).mpr (by decide)

/-- The default length does not. -/
theorem recv_default_outside : ∃ b, HostBuffer.make (mallocAt 16) 1 kBufferSize = .ok b ∧
    (ConnOp.recv { conn with recvBuffer := b.data.toNat } 8129).enter quiet = .ok quiet ∧
    ¬ (ConnOp.recv { conn with recvBuffer := b.data.toNat } 8129).InRegion b.mr := by
  refine ⟨⟨16, 128, 8017, ⟨128, 8017⟩⟩, by decide, rfl, fun h => ?_⟩
  exact absurd (h.1 _ rfl) (by decide)

end EfaExamples
