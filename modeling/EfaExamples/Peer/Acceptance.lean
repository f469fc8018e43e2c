import EfaExamples.Peer.Handshake
/-!
# What the handshake accepts

`num` comes from the wire and `MSGSIZE` wraps, so a message may pass the size check
with a `num` that has nothing to do with its size. `std::vector::resize` refuses
every one of these: a count it takes is so small that 24 times the count does not
wrap. So what is accepted is what is well formed.
-/

namespace EfaExamples

variable {mem : ℕ → UInt8} {buf size : ℕ} {w₀ w : WriterObj}

namespace Message

/-- **A well-formed message** of so many bytes: the header is all there, the rank is the peer's, and
behind the header are the regions and nothing else. -/
structure WellFormed (mem : ℕ → UInt8) (buf size : ℕ) (peer : ℤ) : Prop where
  header : 24 ≤ size
  rank : Message.rank mem buf = peer
  size_eq : size = 24 + 24 * num mem buf

/-- Region `i`, decoded. -/
def decode (mem : ℕ → UInt8) (buf i : ℕ) : CUDARegion :=
  { addr := readLE mem (buf + 24 + 24 * i) 8
    size := readLE mem (buf + 24 + 24 * i + 8) 8
    key := readLE mem (buf + 24 + 24 * i + 16) 8 }

/-- **Where the size does not wrap.** -/
theorem size_eq_iff (hsize : size < 2 ^ 63) :
    (Message.size mem buf = size ∧ num mem buf ≤ WriterObj.maxSize) ↔
      size = 24 + 24 * num mem buf := by
  have hmax : WriterObj.maxSize = (2 ^ 63 - 1) / 24 := rfl
  unfold Message.size
  rw [hmax]
  omega

/-- An element whose bytes are in the address space is where the exact sum says. -/
theorem item_eq {i : ℕ} (hi : i < 2 ^ 31) (hbuf : buf + 24 + 24 * i < 2 ^ 64) :
    item buf i = buf + 24 + 24 * i := by
  unfold item toInt
  omega

end Message

namespace WriterObj

open Message

/-- **The handshake accepts what is well formed**, and nothing else. Of a message it accepts it
takes the seed and the regions as they are, and every element it reads lies in the bytes that were
received. -/
theorem handshake_iff (hsize : size ≤ kBufferSize.toNat)
    (hbuf : buf + kBufferSize.toNat ≤ 2 ^ 64) :
    ((∃ w, handshake mem buf size w₀ = .ok w) ↔ WellFormed mem buf size w₀.peer) ∧
    ∀ w, handshake mem buf size w₀ = .ok w →
      w = { w₀ with
            peerSeed := Message.seed mem buf
            peerRegions := (List.range (num mem buf)).map (decode mem buf) } ∧
      ∀ i < num mem buf, buf + 24 ≤ item buf i ∧ item buf i + 24 ≤ buf + size := by
  have hlimit : kBufferSize.toNat = 8129 := rfl
  have hexact := @size_eq_iff mem buf size (by omega)
  refine ⟨⟨?_, ?_⟩, ?_⟩
  · rintro ⟨w, h⟩
    obtain ⟨hcheck, hrank, hnum, -⟩ := handshake_eq_ok.mp h
    have heq := hexact.mp ⟨hcheck, hnum⟩
    exact ⟨by omega, hrank, heq⟩
  · rintro ⟨-, hrank, heq⟩
    obtain ⟨hcheck, hnum⟩ := hexact.mpr heq
    exact ⟨_, handshake_eq_ok.mpr ⟨hcheck, hrank, hnum, rfl⟩⟩
  · intro w h
    obtain ⟨hcheck, -, hnum, hw⟩ := handshake_eq_ok.mp h
    have heq := hexact.mp ⟨hcheck, hnum⟩
    have hitem : ∀ i < num mem buf, item buf i = buf + 24 + 24 * i := fun i hi =>
      item_eq (by omega) (by omega)
    have hregions : (List.range (num mem buf)).map (region mem buf) =
        (List.range (num mem buf)).map (decode mem buf) :=
      List.map_congr_left fun i hi => by rw [region, hitem i (List.mem_range.mp hi), decode]
    refine ⟨by rw [hw, hregions], fun i hi => ?_⟩
    rw [hitem i hi]
    omega

/-- A message with 337 regions, which fill the buffer as far as they can. -/
def fullMessage : ℕ → UInt8 :=
  storeLE 8 8 337 (storeLE 0 4 1 fun _ => 0)

theorem handshake_iff_full : (∃ w, handshake fullMessage 0 8112 (writerFor 8 2 0) = .ok w) ∧
    ∀ w, handshake fullMessage 0 8112 (writerFor 8 2 0) = .ok w →
      ∀ i < num fullMessage 0, item 0 i + 24 ≤ 8112 := by
  have h := @handshake_iff fullMessage 0 8112 (writerFor 8 2 0) (by decide) (by decide)
  refine ⟨h.1.mpr ⟨by decide, by decide, by decide⟩, fun w hw i hi => ?_⟩
  have := ((h.2 w hw).2 i hi).2
  omega

end WriterObj

end EfaExamples
