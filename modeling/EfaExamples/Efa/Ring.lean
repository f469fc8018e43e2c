import EfaExamples.Efa.Messages
import EfaExamples.Efa.Model.Ring
import EfaExamples.Efa.Resumption
/-!
# What goes round the ring

Every rank connects to the address of the next one, so what it receives is the
text of the one before it, in every interleaving and for any number of ranks.
-/

namespace EfaExamples

variable {size i j : ℕ} {addr : ℕ → List UInt8} {allgather : Allgather}

/-! ## The addresses -/

theorem length_overwrite {s d : List UInt8} (h : i + d.length ≤ s.length) :
    (overwrite s i d).length = s.length := by
  simp only [overwrite, List.length_append, List.length_take, List.length_drop]
  omega

/-- What has been written is there. -/
theorem overwrite_drop_take {s d : List UInt8} (h : i ≤ s.length) :
    ((overwrite s i d).drop i).take d.length = d := by
  have hlen : (s.take i).length = i := List.length_take_of_le h
  rw [overwrite, List.append_assoc, List.drop_append_of_le_length hlen.ge,
    List.drop_of_length_le hlen.le, List.nil_append, List.take_left']
  rfl

theorem endpointIdx_add_le (hi : i < size) : endpointIdx i + kMaxAddrSize ≤ size * kMaxAddrSize :=
  (Nat.succ_mul i kMaxAddrSize).symm.trans_le (Nat.mul_le_mul_right _ hi)

/-- **The remote address is the address of that rank.** -/
theorem remoteAddr_allGatherAddr (hgather : allgather.Gathers)
    (hlen : ∀ rank, (addr rank).length = kMaxAddrSize) (hi : i < size) (hj : j < size) :
    remoteAddr (allGatherAddr allgather size addr i) j = addr j := by
  have htake : ∀ rank, (addr rank).take kMaxAddrSize = addr rank := fun rank =>
    List.take_of_length_le (hlen rank).le
  have hroom : ∀ rank < size, endpointIdx rank + (addr rank).length ≤
      (List.replicate (size * kMaxAddrSize) (0 : UInt8)).length := by
    intro rank hrank
    rw [hlen, List.length_replicate]
    exact endpointIdx_add_le hrank
  have hbufs : ∀ rank < size, (overwrite (List.replicate (size * kMaxAddrSize) 0)
      (endpointIdx rank) ((addr rank).take kMaxAddrSize)).length = size * kMaxAddrSize := by
    intro rank hrank
    rw [htake, length_overwrite (hroom rank hrank), List.length_replicate]
  have hget := overwrite_drop_take (d := addr j) (Nat.le_of_add_right_le (hroom j hj))
  rw [hlen] at hget
  rw [allGatherAddr, hgather size _ hbufs i hi j hj, remoteAddr, htake, hget]

namespace Ring

/-! ## The texts -/

/-- The rank whose text a rank gets. -/
def prev (size rank : ℕ) : ℕ := (rank + (size - 1)) % size

/-- Only the rank before comes before. -/
theorem eq_prev {rank : ℕ} (hr : rank < size) (hnext : next size rank = i) : rank = prev size i := by
  subst hnext
  rw [next, prev, Nat.mod_add_mod, show rank + 1 + (size - 1) = rank + size by omega,
    Nat.add_mod_right, Nat.mod_eq_of_lt hr]

/-- What the locations of `Start` know of the message. -/
def Knows (k : Talk) (received : Prop) : Loc → Prop
  | .received _ o => ∀ v, o = .ok (some v) → k.Returns received v
  | .data v => ∀ x, v = some x → k.Returns received x
  | _ => True

theorem Knows.mono (k : Talk) (u u' : Prop) (l : Loc) (hu : u ≤ u') (h : Knows k u l) :
    Knows k u' l := by
  cases l with
  | received d o => exact fun v hv data n hd => (h v hv data n hd).imp_left hu
  | data v => exact fun x hx data n hd => (h x hx data n hd).imp_left hu
  | _ => trivial

/-- `Start` does what it is asserted to. -/
theorem start_met {k : Talk} (hroom : k.room = kBufferSize.toNat) :
    (k.asserts (Knows k) (Knows.mono k)).Met (start k.conn k.text) := by
  intro u l hl
  cases l with
  | send => exact ⟨⟨rfl, rfl, rfl⟩, fun _ => trivial⟩
  | recv => exact ⟨⟨rfl, hroom.symm⟩, fun _ => trivial⟩
  | sending d => exact fun _ _ _ _ => trivial
  | receiving d => exact fun _ _ o ho => ho
  | sent d o =>
    cases o with
    | ok v => trivial
    | error e => exact Assertions.out_error e
  | received d o =>
    cases o with
    | ok v => exact fun x hx => hl x (hx ▸ rfl)
    | error e => exact Assertions.out_error e
  | data v => exact Assertions.out_none

namespace Ranks

variable (r : Ranks)

/-- What a rank says, and what it is to get. -/
def talk (i : Fin r.size) : Talk where
  conn := r.conn i
  room := kBufferSize.toNat
  text := message r.size i
  expected := message r.size (prev r.size i)

/-- Every rank as `Run` starts it, with its text in `sbuf`. -/
def Begins (x : Network (fun _ : Fin r.size => Loop Loc Unit ConnOp Fabric Val) ℕ Packet) : Prop :=
  (∀ i, (r.talk i).Begins Loc.send (x.party i)) ∧ x.wire = 0

/-- **Round the ring.** In every run of any number of ranks that the fabric can tell apart, what a
rank copies to `data` is the text of the rank before it. -/
theorem data_eq {σ : ℕ → Network (fun _ : Fin r.size => Loop Loc Unit ConnOp Fabric Val) ℕ Packet}
    {n : ℕ} (hrun : IsRun r.Begins r.Step σ n) (hgather : r.allgather.Gathers)
    (hrank : ∀ i < r.size, ∀ j < r.size, r.endpoint (r.addr i) = r.endpoint (r.addr j) → i = j)
    (hbufs : ∀ i, (r.talk i).Apart) : ∀ t ≤ n, ∀ i me data len,
    (me, Loc.data (some (.buf data len))) ∈ ((σ t).party i).stack →
    bytes ((σ t).party i).world.mem data len = message r.size (prev r.size i) := by
  intro t ht i me data len hmem
  have hmet : ∀ i, ((r.talk i).asserts (Knows (r.talk i)) (Knows.mono _)).Met (r.code i) :=
    fun i => by
      rw [show r.code i = start (r.talk i).conn (r.talk i).text by simp only [code, talk]]
      exact start_met rfl
  have hl : ∀ i, Knows (r.talk i) False Loc.send := fun i => trivial
  have hroute : ∀ i j : Fin r.size, (r.talk i).conn.remote = r.endpoint (r.addr j) →
      (r.talk i).text = (r.talk j).expected := by
    intro i j hremote
    have hnext : next r.size i < r.size := Nat.mod_lt _ i.pos
    have haddr : (r.talk i).conn.remote = r.endpoint (r.addr (next r.size i)) :=
      congrArg r.endpoint (remoteAddr_allGatherAddr hgather r.length_addr i.isLt hnext)
    have heq := eq_prev i.isLt (hrank _ hnext _ j.isLt (haddr.symm.trans hremote))
    simp only [talk]
    rw [← heq]
  have htalk := talks_of_run hmet hl hbufs hroute hrun t ht i
  have hreturns : (r.talk i).Returns ((σ t).party i).world.Received (.buf data len) :=
    htalk.hold.stack _ hmem _ rfl
  simpa only [talk] using htalk.bytes_eq hreturns

/-! ## Two ranks -/

/-- One after the other, the block of every rank. -/
def gatherAll : Allgather := fun size bufs _ =>
  (List.range size).flatMap fun rank => remoteAddr (bufs rank) rank

theorem gatherAll_gathers : gatherAll.Gathers := by
  intro size bufs hbufs i _ j hj
  have hblock : ∀ rank ∈ List.range size,
      (remoteAddr (bufs rank) rank).length = kMaxAddrSize := by
    intro rank hrank
    have hrank : rank < size := List.mem_range.mp hrank
    have := endpointIdx_add_le hrank
    rw [remoteAddr, List.length_take, List.length_drop, hbufs rank hrank]
    omega
  have hrange : (List.range size).drop j = j :: (List.range size).drop (j + 1) := by
    rw [List.drop_eq_getElem_cons (by rwa [List.length_range]), List.getElem_range]
  conv_lhs => rw [remoteAddr, gatherAll, endpointIdx, Nat.mul_comm,
    drop_flatMap_of_length hblock, hrange, List.flatMap_cons]
  exact List.take_left' (hblock j (List.mem_range.mpr hj))

/-- Two ranks, whose addresses begin with their numbers. -/
def two : Ranks where
  size := 2
  allgather := gatherAll
  addr rank := List.replicate kMaxAddrSize (UInt8.ofNat rank)
  length_addr _ := List.length_replicate
  rbuf _ := 1000
  sbuf _ := 20000
  endpoint addr := (addr.headD 0).toNat

/-- The fabric of a rank, with the text in the send buffer. -/
def loaded (rank : ℕ) : Fabric :=
  { quiet with
    mem := memcpy 20000 0 (message 2 rank).length (fun j => (message 2 rank).getD j 0) quiet.mem }

/-- Both before their first steps. -/
def booted : Network (fun _ : Fin two.size => Loop Loc Unit ConnOp Fabric Val) ℕ Packet where
  party i := Loop.boot true .send () (loaded i)
  wire := 0

/-- A step of one of them. -/
def choose : (Σ _ : Fin two.size, Act Fabric.Move) →
    Network (fun _ : Fin two.size => Loop Loc Unit ConnOp Fabric Val) ℕ Packet →
    Option (Network (fun _ : Fin two.size => Loop Loc Unit ConnOp Fabric Val) ℕ Packet) :=
  Network.perform (fun i => processAct (two.code i)) fun i => two.endpoint (two.addr i)

/-- Rank 1 sends, and rank 0 sends and receives. -/
def exchange : List (Σ _ : Fin two.size, Act Fabric.Move) :=
  ([.round 0, .resume, .exec 0, .exec 0, .round 0, .resume, .env (.place 1 [])].map
    (Sigma.mk (1 : Fin 2))) ++
  ([.round 0, .resume, .exec 0, .exec 0, .round 0, .resume, .env (.place 1 []),
    .env (.complete 0 1 19), .round 0, .resume, .round 0, .resume, .exec 0, .exec 0, .exec 0,
    .round 0, .resume, .env (.place 2 (message 2 1)), .env (.complete 0 2 19), .round 0, .resume,
    .round 0, .resume, .exec 0].map (Sigma.mk (0 : Fin 2)))

theorem booted_begins : two.Begins booted := by
  refine ⟨fun i => ?_, rfl⟩
  have hidle : (loaded i).Idle := ⟨fun _ => rfl, rfl, fun q hq => by cases hq⟩
  have htext : bytes (loaded i).mem 20000 (message 2 i).length = message 2 i :=
    bytes_memcpy_getD 20000 (message 2 i) quiet.mem
  exact ⟨loaded i, true, (), hidle, rfl, rfl, fun _ => rfl, htext, rfl⟩

theorem exchange_isRun : IsRun two.Begins two.Step (visited choose booted exchange) 31 := by
  have hact : ∀ i a s l s', processAct (two.code i) a s = some (l, s') →
      ProcessStep (two.code i) s l s' := fun _ _ _ _ _ => .of_act
  have hchoose : ∀ a x y, choose a x = some y → two.Step x y :=
    fun _ _ _ => Network.step_of_perform hact
  exact isRun_visited hchoose booted_begins (by decide +kernel)

/-- Rank 0 has the text of rank 1. -/
theorem data_eq_two :
    bytes ((visited choose booted exchange 31).party (0 : Fin 2)).world.mem 1000 19 = message 2 1 :=
  data_eq two exchange_isRun gatherAll_gathers (by decide +kernel) (fun i => Or.inr (by decide +revert +kernel)) 31
    le_rfl (0 : Fin 2) 0 1000 19 (by decide +kernel)

end Ranks

end Ring

end EfaExamples
