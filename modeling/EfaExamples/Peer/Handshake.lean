import EfaExamples.Efa.Bytes
import EfaExamples.Efa.Resumption
import EfaExamples.Peer.Model.Handshake
/-!
# What the handshake settles

`Writer` fills its write buffer before it knows the seed, and checks its pages
against its own buffers only. So the peers agree on the payload exactly if the
uninitialised `peer_seed_` happens to give the same bytes, and the pages stay
inside the peer's regions exactly if the peer announced regions that large.
-/

namespace EfaExamples

variable {mem mem' mem₀ mem₁ : ℕ → UInt8} {p q : ℕ} {connect : Option Connected}
variable {rand : ℕ → ℕ → ℕ → UInt8} {cuda : CudaMemcpy}
variable {peer rank : ℤ} {pageSize numPages garbage size buf seed addr key data : ℕ}
variable {w w₀ : WriterObj}

/-! ## The message -/

theorem toInt_toNat (hl : -2 ^ 31 ≤ rank) (hu : rank < 2 ^ 31) :
    toInt (rank % 2 ^ 32).toNat = rank := by
  unfold toInt
  split <;> omega

namespace Message

theorem item_zero (hp : p + 24 < 2 ^ 64) : item p 0 = p + 24 := by
  simp only [item, toInt]
  omega

theorem region_size_lt {i : ℕ} : (region mem p i).size < 2 ^ 64 := readLE_lt.trans_eq (by decide)

theorem rank_alloc (hl : -2 ^ 31 ≤ rank) (hu : rank < 2 ^ 31) :
    Message.rank (alloc rank seed addr key data mem) data = rank := by
  have hfits : (rank % 2 ^ 32).toNat % 256 ^ 4 = (rank % 2 ^ 32).toNat := by omega
  simp (disch := omega) only [Message.rank, alloc, readLE_storeLE_of_disjoint, readLE_storeLE]
  rw [hfits, toInt_toNat hl hu]

theorem num_alloc : num (alloc rank seed addr key data mem) data = 1 := by
  simp (disch := omega) only [num, alloc, readLE_storeLE_of_disjoint, readLE_storeLE]
  rfl

theorem seed_alloc (hseed : seed < 2 ^ 64) :
    Message.seed (alloc rank seed addr key data mem) data = seed := by
  simp (disch := omega) only [Message.seed, alloc, readLE_storeLE_of_disjoint, readLE_storeLE]
  exact Nat.mod_eq_of_lt hseed

theorem region_alloc (haddr : addr < 2 ^ 64) (hkey : key < 2 ^ 64) (hdata : data + 24 < 2 ^ 64) :
    region (alloc rank seed addr key data mem) data 0 = ⟨addr, kMemoryRegionSize, key⟩ := by
  have hpow : 256 ^ 8 = 2 ^ 64 := rfl
  simp (disch := omega) only [region, item_zero hdata, alloc, Nat.add_assoc, Nat.reduceAdd,
    readLE_storeLE_of_disjoint, readLE_storeLE]
  rw [hpow, Nat.mod_eq_of_lt haddr, Nat.mod_eq_of_lt hkey]
  rfl

end Message

/-- Both memories hold the same bytes there. -/
def SameBytes (mem mem' : ℕ → UInt8) (p q n : ℕ) : Prop := ∀ j < n, mem (p + j) = mem' (q + j)

namespace SameBytes

variable {n : ℕ}

/-- A number that lies in the same bytes is the same number. -/
theorem readLE_eq {k m : ℕ} (h : SameBytes mem mem' p q n) (hk : k + m ≤ n) :
    readLE mem (p + k) m = readLE mem' (q + k) m :=
  readLE_congr fun j hj => by
    rw [Nat.add_assoc, Nat.add_assoc]
    exact h (k + j) (by omega)

/-- What a receive gets lies in its buffer. -/
theorem recv {f : Fabric} {h len : ℕ} (hn : n ≤ len) :
    SameBytes (f.copy ⟨h, .recv buf len⟩ (bytes mem data n)).mem mem buf data n := by
  intro j hj
  have hlen : (bytes mem data n).length = n := by simp [bytes]
  have hget : (bytes mem data n).getD j 0 = mem (data + j) := by simp [bytes, hj]
  simp only [Fabric.copy, memcpy]
  rw [if_pos (by omega), Nat.add_sub_cancel_left, Nat.zero_add, hget]

end SameBytes

/-! ## Construction -/

/-- The bytes of `RandBuffer`. -/
theorem randBuffer_eq_ok {b : List UInt8} : randBuffer rand seed size = .ok b ↔
    size % 8 = 0 ∧ b = (List.range size).map (rand seed size) := by
  refine bind_eq_ok.trans ⟨?_, ?_⟩
  · rintro ⟨_, hsize, h⟩
    exact ⟨assertion_eq_ok.mp hsize, (Except.ok.inj h).symm⟩
  · rintro ⟨hsize, rfl⟩
    exact ⟨(), assertion_eq_ok.mpr hsize, rfl⟩

theorem cudaCheck_eq_ok {α : Type} {r : Except String α} {a : α} :
    cudaCheck r = .ok a ↔ r = .ok a := by
  cases r <;> simp [cudaCheck, Except.mapError]

namespace WriterObj

/-- What passes the checks of `Peer`. -/
theorem peerOf_eq_ok (h : peerOf connect peer pageSize numPages garbage = .ok w) :
    ∃ c, connect = some c ∧ pageSize * numPages % 2 ^ 64 ≤ c.writeSize ∧
      w = { conn := c.conn, pageSize, numPages, peerRegions := [], peer,
            size := pageSize * numPages % 2 ^ 64, peerSeed := garbage } := by
  match connect, h with
  | some c, h =>
    obtain ⟨_, -, h⟩ := bind_eq_ok.mp h
    obtain ⟨_, hwrite, h⟩ := bind_eq_ok.mp h
    exact ⟨c, rfl, assertion_eq_ok.mp hwrite, (Except.ok.inj h).symm⟩

/-- What `Writer` leaves in its write buffer. -/
theorem make_eq_ok (hcuda : cuda.Copies)
    (h : make rand cuda connect peer pageSize numPages garbage mem₀ = .ok (w, mem)) :
    peerOf connect peer pageSize numPages garbage = .ok w ∧ w.size % 8 = 0 ∧
      bytes mem w.conn.writeBuffer w.size = (List.range w.size).map (rand w.peerSeed w.size) := by
  obtain ⟨w', hw, h⟩ := bind_eq_ok.mp h
  obtain ⟨buffer, hbuf, h⟩ := bind_eq_ok.mp h
  obtain ⟨mem', hcopy, h⟩ := bind_eq_ok.mp h
  obtain ⟨rfl, rfl⟩ := Prod.mk.inj (Except.ok.inj h)
  obtain ⟨hsize, rfl⟩ := randBuffer_eq_ok.mp hbuf
  refine ⟨hw, hsize, ?_⟩
  rw [hcuda.toDevice (cudaCheck_eq_ok.mp hcopy), bytes_memcpy (by simp)]
  refine List.map_congr_left fun j hj => ?_
  have hj : j < w'.size := List.mem_range.mp hj
  simp [hj]

/-- What `Handshake` takes from a message it accepts. -/
theorem handshake_eq_ok : handshake mem buf size w₀ = .ok w ↔
    Message.size mem buf = size ∧ Message.rank mem buf = w₀.peer ∧ Message.num mem buf ≤ maxSize ∧
      w = { w₀ with
            peerSeed := Message.seed mem buf
            peerRegions := (List.range (Message.num mem buf)).map (Message.region mem buf) } := by
  constructor
  · intro h
    obtain ⟨_, hsize, h⟩ := bind_eq_ok.mp h
    obtain ⟨_, hrank, h⟩ := bind_eq_ok.mp h
    split at h
    · cases h
    · rename_i hnum
      exact ⟨assertion_eq_ok.mp hsize, assertion_eq_ok.mp hrank, not_lt.mp hnum,
        (Except.ok.inj h).symm⟩
  · rintro ⟨hsize, hrank, hnum, rfl⟩
    refine bind_eq_ok.mpr ⟨(), assertion_eq_ok.mpr hsize, ?_⟩
    refine bind_eq_ok.mpr ⟨(), assertion_eq_ok.mpr hrank, ?_⟩
    rw [if_neg (not_lt.mpr hnum)]
    rfl

/-- **The message of `Alloc` is accepted** wherever its bytes are, and read as it was written. -/
theorem handshake_of_sameBytes
    (hsame : SameBytes mem' (Message.alloc w.peer seed addr key data mem) buf data 48)
    (hl : -2 ^ 31 ≤ w.peer) (hu : w.peer < 2 ^ 31) (hseed : seed < 2 ^ 64) (haddr : addr < 2 ^ 64)
    (hkey : key < 2 ^ 64) (hbuf : buf + 24 < 2 ^ 64) (hdata : data + 24 < 2 ^ 64) :
    handshake mem' buf 48 w =
      .ok { w with peerSeed := seed, peerRegions := [⟨addr, kMemoryRegionSize, key⟩] } := by
  have hnum : Message.num mem' buf = 1 :=
    (hsame.readLE_eq (by decide)).trans Message.num_alloc
  have hsz : Message.size mem' buf = 48 := by rw [Message.size, hnum]; rfl
  have hrank : Message.rank mem' buf = w.peer := by
    have := @SameBytes.readLE_eq _ _ _ _ _ 0 4 hsame (by decide)
    rw [Nat.add_zero, Nat.add_zero] at this
    rw [Message.rank, this]
    exact Message.rank_alloc hl hu
  have hseed' : Message.seed mem' buf = seed :=
    (hsame.readLE_eq (by decide)).trans (Message.seed_alloc hseed)
  have hregion : Message.region mem' buf 0 = ⟨addr, kMemoryRegionSize, key⟩ := by
    rw [← @Message.region_alloc mem w.peer seed addr key data haddr hkey hdata]
    simp only [Message.region, Message.item_zero hbuf, Message.item_zero hdata, Nat.add_assoc]
    rw [hsame.readLE_eq (by decide), hsame.readLE_eq (by decide), hsame.readLE_eq (by decide)]
  rw [handshake_eq_ok, hnum]
  refine ⟨hsz, hrank, by decide, ?_⟩
  rw [hseed', List.range_one, List.map_singleton, hregion]

/-! ## The pages -/

/-- Page `i` lies inside the writer's buffer, and inside the region as it was announced. -/
structure PageInside (w : WriterObj) (writeSize : ℕ) (region : CUDARegion) (i : ℕ) : Prop where
  written : (i + 1) * w.pageSize ≤ writeSize
  announced : region.addr + i * w.pageSize + w.pageSize ≤ region.addr + region.size

/-- Of such a page, the code's addresses are the exact ones. -/
theorem PageInside.page_eq {writeSize i : ℕ} {region : CUDARegion}
    (hin : w.PageInside writeSize region i) (hpage : 0 < w.pageSize)
    (hbuf : w.conn.writeBuffer + writeSize ≤ 2 ^ 64) (haddr : region.addr + region.size ≤ 2 ^ 64) :
    w.page region i = .write w.conn (w.conn.writeBuffer + i * w.pageSize) w.pageSize
      (region.addr + i * w.pageSize) region.key (w.immData i) := by
  have hlocal := hin.written
  have hremote := hin.announced
  rw [Nat.succ_mul] at hlocal
  rw [Writer.page, Writer.base, Writer.addr, Nat.mod_eq_of_lt (by omega),
    Nat.mod_eq_of_lt (by omega)]

/-- **Pages and regions.** Every page lies inside both regions exactly if there
is none, or every region that was announced is large enough for all of them. -/
theorem pageInside_iff {c : Connected}
    (hpeer : peerOf (some c) peer pageSize numPages garbage = .ok w₀)
    (hshake : handshake mem buf size w₀ = .ok w) :
    (∀ region ∈ w.peerRegions, ∀ i < w.numPages, w.PageInside c.writeSize region i) ↔
      numPages = 0 ∨
        ∀ j < Message.num mem buf, pageSize * numPages ≤ (Message.region mem buf j).size := by
  obtain ⟨c', hc, hwrite, hw₀⟩ := peerOf_eq_ok hpeer
  obtain rfl := Option.some.inj hc
  obtain ⟨-, -, -, hw⟩ := handshake_eq_ok.mp hshake
  have hnum : w.numPages = numPages := by rw [hw, hw₀]
  have hpage : w.pageSize = pageSize := by rw [hw, hw₀]
  have hregions : w.peerRegions =
      (List.range (Message.num mem buf)).map (Message.region mem buf) := by rw [hw]
  rw [hregions, hnum]
  constructor
  · intro h
    rcases Nat.eq_zero_or_pos numPages with hnone | hpos
    · exact .inl hnone
    · refine .inr fun j hj => ?_
      have hlast := (h _ (List.mem_map_of_mem (List.mem_range.mpr hj)) (numPages - 1)
        (Nat.sub_one_lt_of_lt hpos)).announced
      have hsplit : (numPages - 1) * pageSize + pageSize = pageSize * numPages := by
        rw [← Nat.succ_mul, Nat.succ_eq_add_one, Nat.sub_add_cancel hpos, Nat.mul_comm]
      rw [hpage, Nat.add_assoc, hsplit] at hlast
      exact Nat.le_of_add_le_add_left hlast
  · rintro (hnone | h) region hregion i hi
    · omega
    · obtain ⟨j, hj, rfl⟩ := List.mem_map.mp hregion
      -- the announced size is a number of 64 bits, so the product did not wrap
      have hsize := h j (List.mem_range.mp hj)
      have hlt : (Message.region mem buf j).size < 2 ^ 64 := Message.region_size_lt
      have hpages : (i + 1) * pageSize ≤ pageSize * numPages := by
        rw [Nat.mul_comm pageSize]
        exact Nat.mul_le_mul_right _ hi
      rw [Nat.mod_eq_of_lt (by omega)] at hwrite
      refine ⟨by rw [hpage]; exact hpages.trans hwrite, ?_⟩
      rw [Nat.succ_mul] at hpages
      rw [hpage]
      omega

end WriterObj

/-- A `Writer` for peer 1, before its handshake. -/
def writerFor (pageSize numPages peerSeed : ℕ) : WriterObj where
  conn := { conn with writeBuffer := 65536 }
  pageSize := pageSize
  numPages := numPages
  peerRegions := []
  peer := 1
  size := pageSize * numPages % 2 ^ 64
  peerSeed := peerSeed

/-- A message of peer 1. -/
def messageAt (seed data : ℕ) : ℕ → UInt8 := Message.alloc 1 seed 65536 9 data fun _ => 0

/-- A message with one region of no bytes. -/
def emptyRegion : ℕ → UInt8 := fun p => if p = 0 ∨ p = 8 then 1 else 0

namespace WriterObj

/-- Two pages of 8 bytes. -/
theorem pageInside_iff_two : ∃ w, (writerFor 8 2 0).handshake (messageAt 5 0) 0 48 = .ok w ∧
    ∀ region ∈ w.peerRegions, ∀ i < w.numPages, w.PageInside 64 region i := by
  have hpeer : peerOf (some ⟨{ conn with writeBuffer := 65536 }, 64, 64⟩) 1 8 2 0 =
      .ok (writerFor 8 2 0) := rfl
  have hshake : (writerFor 8 2 0).handshake (messageAt 5 0) 0 48 = .ok _ :=
    handshake_eq_ok.mpr ⟨by decide, by decide, by decide, rfl⟩
  exact ⟨_, hshake, (pageInside_iff hpeer hshake).mpr (.inr (by decide))⟩

/-- The region of an accepted message holds no byte of the page that is written to it,
and pages whose sizes add up to 2^64 pass both checks. -/
theorem page_outside :
    (peerOf (some ⟨{ conn with writeBuffer := 65536 }, 2 ^ 30, 2 ^ 30⟩) 1 8 1 0 =
        .ok (writerFor 8 1 0) ∧
      ∃ w, (writerFor 8 1 0).handshake emptyRegion 0 48 = .ok w ∧
        ¬ ∀ region ∈ w.peerRegions, ∀ i < w.numPages, w.PageInside (2 ^ 30) region i) ∧
    (peerOf (some ⟨{ conn with writeBuffer := 65536 }, 2 ^ 30, 2 ^ 30⟩) 1 (2 ^ 63) 2 0 =
        .ok (writerFor (2 ^ 63) 2 0) ∧
      ∃ w, (writerFor (2 ^ 63) 2 0).handshake (messageAt 5 0) 0 48 = .ok w ∧
        ¬ ∀ region ∈ w.peerRegions, ∀ i < w.numPages, w.PageInside (2 ^ 30) region i) := by
  refine ⟨⟨rfl, _, handshake_eq_ok.mpr ⟨by decide, by decide, by decide, rfl⟩, fun h => ?_⟩,
    rfl, _, handshake_eq_ok.mpr ⟨by decide, by decide, by decide, rfl⟩, fun h => ?_⟩
  · exact absurd (h ⟨0, 0, 0⟩ (by decide) 0 (by decide)).announced (by decide)
  · exact absurd (h ⟨65536, 2 ^ 30, 9⟩ (by decide) 0 (by decide)).written (by decide)

/-! ## The payload -/

/-- The writer's buffer holds what the seed stands for, and so does a buffer with the same
bytes, as `Verify` finds if it can copy them. -/
structure Agree (rand : ℕ → ℕ → ℕ → UInt8) (cuda : CudaMemcpy) (seed : ℕ) (w : WriterObj)
    (mem : ℕ → UInt8) : Prop where
  payload : randBuffer rand seed w.size = .ok (bytes mem w.conn.writeBuffer w.size)
  verifies : ∀ memR readBuffer actual,
    bytes memR readBuffer w.size = bytes mem w.conn.writeBuffer w.size →
      cuda.deviceToHost readBuffer w.size memR = .ok actual →
        verify rand cuda readBuffer seed w.size memR = .ok true

/-- **The payload.** The writer learns the reader's seed, and its buffer holds the payload of
that seed exactly if the seed it did not have gives the same bytes. -/
theorem agree_iff {memR : ℕ → UInt8} {f : Fabric} {h : ℕ} (hcuda : cuda.Copies)
    (hseed : seed < 2 ^ 64)
    (hmake : make rand cuda connect peer pageSize numPages garbage mem₀ = .ok (w₀, f.mem))
    (hsep : w₀.conn.recvBuffer + kBufferSize.toNat ≤ w₀.conn.writeBuffer ∨
      w₀.conn.writeBuffer + w₀.size ≤ w₀.conn.recvBuffer)
    (hrecv : mem = (f.copy ⟨h, .recv w₀.conn.recvBuffer kBufferSize.toNat⟩
      (bytes (Message.alloc rank seed addr key data memR) data 48)).mem)
    (hshake : handshake mem w₀.conn.recvBuffer size w₀ = .ok w) :
    w.peerSeed = seed ∧
      (Agree rand cuda seed w mem ↔ ∀ i < pageSize * numPages % 2 ^ 64,
        rand garbage (pageSize * numPages % 2 ^ 64) i =
          rand seed (pageSize * numPages % 2 ^ 64) i) := by
  obtain ⟨hpeer, hmod, hbytes⟩ := make_eq_ok hcuda hmake
  obtain ⟨c, -, -, hw₀⟩ := peerOf_eq_ok hpeer
  obtain ⟨-, -, -, hw⟩ := handshake_eq_ok.mp hshake
  have hsize : w₀.size = pageSize * numPages % 2 ^ 64 := by rw [hw₀]
  have hgarbage : w₀.peerSeed = garbage := by rw [hw₀]
  have hlen : (48 : ℕ) ≤ kBufferSize.toNat := by decide
  have hsame : SameBytes mem (Message.alloc rank seed addr key data memR) w₀.conn.recvBuffer
      data 48 := by
    rw [hrecv]
    exact SameBytes.recv hlen
  have hframe : bytes mem w₀.conn.writeBuffer w₀.size =
      (List.range w₀.size).map (rand garbage w₀.size) := by
    rw [← hgarbage, ← hbytes, hrecv]
    refine bytes_congr fun j hj => if_neg ?_
    have : min kBufferSize.toNat
        (bytes (Message.alloc rank seed addr key data memR) data 48).length = 48 := by
      simp [bytes]
      decide
    omega
  have hagree : Agree rand cuda seed w mem ↔
      (List.range w₀.size).map (rand seed w₀.size) = bytes mem w₀.conn.writeBuffer w₀.size := by
    rw [hw]
    constructor
    · rintro ⟨hpayload, -⟩
      exact (randBuffer_eq_ok.mp hpayload).2.symm
    · intro heq
      have hrand : randBuffer rand seed w₀.size =
          .ok (bytes mem w₀.conn.writeBuffer w₀.size) := randBuffer_eq_ok.mpr ⟨hmod, heq.symm⟩
      refine ⟨hrand, fun memR readBuffer actual hread hcopy => ?_⟩
      refine bind_eq_ok.mpr ⟨_, hrand, bind_eq_ok.mpr ⟨actual, cudaCheck_eq_ok.mpr hcopy, ?_⟩⟩
      rw [hcuda.toHost hcopy, hread]
      simp [pure, Except.pure]
  refine ⟨?_, ?_⟩
  · rw [hw]
    exact (hsame.readLE_eq (by decide)).trans (Message.seed_alloc hseed)
  · rw [hagree, hframe, List.map_inj_left, hsize]
    constructor
    · exact fun heq i hi => (heq i (List.mem_range.mpr hi)).symm
    · exact fun heq i hi => (heq i (List.mem_range.mp hi)).symm

/-- Copies that never fail. -/
def copying : CudaMemcpy where
  hostToDevice dst data mem := .ok (memcpy dst 0 data.length (fun j => data.getD j 0) mem)
  deviceToHost src size mem := .ok (bytes mem src size)

theorem copying_copies : copying.Copies where
  toDevice h := (Except.ok.inj h).symm
  toHost h := (Except.ok.inj h).symm

/-- A generator that repeats the low byte of its seed. -/
def repeatSeed (seed _ _ : ℕ) : UInt8 := UInt8.ofNat seed

/-- What the constructor leaves of 16 bytes. -/
def constructed (peerSeed : ℕ) : Fabric :=
  { quiet with
    mem := memcpy 65536 0 16
      (fun j => ((List.range 16).map (repeatSeed peerSeed 16)).getD j 0) quiet.mem }

/-- The memory once the message of seed 5 is there. -/
def greeted (peerSeed : ℕ) : ℕ → UInt8 :=
  ((constructed peerSeed).copy ⟨7, .recv 1000 kBufferSize.toNat⟩ (bytes (messageAt 5 0) 0 48)).mem

/-- The seed of the message was in `peer_seed_` before. -/
theorem agree_iff_same : ∃ w, (writerFor 8 2 5).handshake (greeted 5) 1000 48 = .ok w ∧
    Agree repeatSeed copying 5 w (greeted 5) := by
  have hmake : make repeatSeed copying (some ⟨{ conn with writeBuffer := 65536 }, 64, 64⟩) 1 8 2 5
      quiet.mem = .ok (writerFor 8 2 5, (constructed 5).mem) := rfl
  have hshake : (writerFor 8 2 5).handshake (greeted 5) 1000 48 = .ok _ :=
    handshake_eq_ok.mpr ⟨by decide, by decide, by decide, rfl⟩
  exact ⟨_, hshake,
    (agree_iff copying_copies (by decide) hmake (by decide) rfl hshake).2.mpr fun i _ => rfl⟩

/-- It was 0, and the buffer holds the bytes of 0. -/
theorem payload_of_garbage : ∃ w,
    make repeatSeed copying (some ⟨{ conn with writeBuffer := 65536 }, 64, 64⟩) 1 8 2 0 quiet.mem =
      .ok (writerFor 8 2 0, (constructed 0).mem) ∧
    (writerFor 8 2 0).handshake (greeted 0) 1000 48 = .ok w ∧ w.peerSeed = 5 ∧
    ¬ Agree repeatSeed copying 5 w (greeted 0) := by
  refine ⟨_, rfl, handshake_eq_ok.mpr ⟨by decide, by decide, by decide, rfl⟩, by decide, fun h => ?_⟩
  exact absurd (randBuffer_eq_ok.mp h.payload).2 (by decide)

end WriterObj

end EfaExamples
