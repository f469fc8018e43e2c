import EfaExamples.Efa.Messages
import EfaExamples.Peer.Handshake
import EfaExamples.Peer.Link
import EfaExamples.Peer.Model.Greeting
/-!
# What the writer learns

Whatever the two processes and the fabric do in what order: when the writer has
received something, its handshake takes it, and then the writer has the reader's
seed and the one region that the reader has.
-/

namespace EfaExamples

namespace Greeting

/-- What the locations of `Writer::Handshake` know of the message. -/
def Knows (k : Talk) : ∀ i, Prop → Loc i → Prop
  | .writer, received, .received _ o => ∀ v, o = .ok (some v) → k.Returns received v
  | .writer, received, .message v => ∀ x, v = some x → k.Returns received x
  | _, _, _ => True

theorem Knows.mono (k : Talk) (i : Side) (u u' : Prop) (l : Loc i) (hu : u ≤ u') (h : Knows k i u l) :
    Knows k i u' l := by
  cases i with
  | writer =>
    cases l with
    | received d o => exact fun v hv data n hd => (h v hv data n hd).imp_left hu
    | message v => exact fun x hx data n hd => (h x hx data n hd).imp_left hu
    | _ => trivial
  | reader => trivial

theorem writer_met {k : Talk} (hroom : k.room = kBufferSize.toNat) :
    (k.asserts (Knows k .writer) (Knows.mono k .writer)).Met (writer k.conn) := by
  intro u l hl
  cases l with
  | recv => exact ⟨⟨rfl, hroom.symm⟩, fun _ => trivial⟩
  | receiving d => exact fun _ _ o ho => ho
  | received d o =>
    cases o with
    | ok v => exact fun x hx => hl x (hx ▸ rfl)
    | error e => exact Assertions.out_error e
  | message v => exact Assertions.out_none

theorem reader_met {k : Talk} :
    (k.asserts (Knows k .reader) (Knows.mono k .reader)).Met (reader k.conn k.text.length) := by
  intro u l _
  cases l with
  | send => exact ⟨⟨rfl, rfl, rfl⟩, fun _ => trivial⟩
  | sending d => exact fun _ _ _ _ => trivial
  | sent d o =>
    cases o with
    | ok v => trivial
    | error e => exact Assertions.out_error e
  | check v =>
    rw [reader]
    split
    · exact Assertions.out_none
    · exact Assertions.out_error _

namespace Ends

variable (e : Ends)

/-- The message. -/
def text : List UInt8 := bytes e.alloc (e.conn .reader).sendBuffer 48

theorem msgSize_eq : e.msgSize = 48 := by
  rw [msgSize, Message.size, alloc, Message.num_alloc]
  rfl

theorem length_text : e.text.length = e.msgSize := by
  rw [msgSize_eq, text, bytes, List.length_map, List.length_range]

/-- What a rank says, and what it is to get. -/
def talk : Side → Talk
  | .writer => { conn := e.conn .writer, room := kBufferSize.toNat, text := [], expected := e.text }
  | .reader => { conn := e.conn .reader, room := 0, text := e.text, expected := [] }

/-- Both as `Run` starts them, the message in the reader's send buffer. -/
def Begins (x : Pair) : Prop := (∀ i, (e.talk i).Begins (start i) (x.party i)) ∧ x.wire = 0

/-- No buffers overlap. -/
theorem talk_apart (hbufs : ∀ i, (e.conn i).sendBuffer + 48 ≤ (e.conn i).recvBuffer ∨
    (e.conn i).recvBuffer + 48 ≤ (e.conn i).sendBuffer) : ∀ i, (e.talk i).Apart := by
  have hlen : e.text.length = 48 := e.length_text.trans e.msgSize_eq
  intro i
  have := hbufs i
  cases i <;> simp only [Talk.Apart, talk, hlen, List.length_nil] <;> omega

/-- **What the writer learns.** In every run of the two, in which the reader's connection is to
the writer, and no buffers overlap: a writer that has received something accepts it as
the message of its peer, and then has the peer's seed and the peer's one region. -/
theorem handshake_eq {address : Side → ℕ} {σ : ℕ → Pair} {n : ℕ}
    (hrun : IsRun e.Begins (Network.Step address fun i => ProcessStep (e.code i)) σ n)
    (hwriter : (e.conn .writer).remote = address .reader)
    (hreader : (e.conn .reader).remote = address .writer) (hne : address .writer ≠ address .reader)
    (hbufs : ∀ i, (e.conn i).sendBuffer + 48 ≤ (e.conn i).recvBuffer ∨
      (e.conn i).recvBuffer + 48 ≤ (e.conn i).sendBuffer)
    {w : WriterObj} (hpeer : w.peer = e.rank) : ∀ t ≤ n, ∀ me data len,
    (me, WriterLoc.message (some (.buf data len))) ∈ (σ t).writer.stack →
    w.handshake (σ t).writer.world.mem data len =
      .ok { w with peerSeed := e.seed, peerRegions := [⟨e.addr, kMemoryRegionSize, e.key⟩] } := by
  intro t ht me data len hmem
  have hmet : ∀ i, ((e.talk i).asserts (Knows (e.talk i) i) (Knows.mono _ i)).Met (e.code i) := by
    intro i
    cases i with
    | writer => exact writer_met rfl
    | reader =>
      have hcode : e.code .reader = reader (e.talk .reader).conn (e.talk .reader).text.length := by
        rw [code, talk, length_text]
      rw [hcode]
      exact reader_met
  have hl : ∀ i, Knows (e.talk i) i False (start i) := by
    intro i
    cases i <;> trivial
  have hroute : ∀ i j, (e.talk i).conn.remote = address j → (e.talk i).text = (e.talk j).expected := by
    intro i j hij
    cases i <;> cases j
    · exact absurd (hwriter.symm.trans hij).symm hne
    · rfl
    · rfl
    · exact absurd (hreader.symm.trans hij) hne
  have htalk := talks_of_run hmet hl (e.talk_apart hbufs) hroute hrun t ht .writer
  have hreturns : (e.talk .writer).Returns (σ t).writer.world.Received (.buf data len) :=
    htalk.hold.stack _ hmem _ rfl
  have hbytes : bytes (σ t).writer.world.mem data len = e.text := htalk.bytes_eq hreturns
  obtain ⟨-, rfl, hlen⟩ := hreturns data len rfl
  have hlen : len = 48 := hlen.trans (e.length_text.trans e.msgSize_eq)
  subst hlen
  have hsame : SameBytes (σ t).writer.world.mem e.alloc (e.conn .writer).recvBuffer
      (e.conn .reader).sendBuffer 48 := bytes_eq_iff.mp hbytes
  rw [alloc, ← hpeer] at hsame
  exact WriterObj.handshake_of_sameBytes hsame (hpeer ▸ e.rank_lower) (hpeer ▸ e.rank_lt) e.seed_lt
    e.addr_lt e.key_lt e.buf_lt e.data_lt

/-! ## One message -/

/-- Rank 1 reads, with seed 5 and a buffer at 65536. -/
def rankOne : Ends where
  rank := 1
  rank_lower := by decide
  rank_lt := by decide
  seed := 5
  seed_lt := by decide
  addr := 65536
  addr_lt := by decide
  key := 9
  key_lt := by decide
  mem _ := 0
  conn i := { EfaExamples.conn with
    remote := match i with
      | .writer => 1
      | .reader => 0 }
  data_lt := by decide
  buf_lt := by decide

/-- Both before their first steps. -/
def booted : Pair where
  party
    | .writer => Loop.boot true .recv () quiet
    | .reader => Loop.boot true .send () { quiet with mem := rankOne.alloc }
  wire := 0

/-- A step of one of them. -/
def choose : (Σ _ : Side, Act Fabric.Move) → Pair → Option Pair :=
  Network.perform (fun i => processAct (rankOne.code i)) Link.ranks

/-- The reader sends, and the writer receives. -/
def greet : List (Σ _ : Side, Act Fabric.Move) :=
  Link.turn .reader [.round 0, .resume, .exec 0, .exec 0, .round 0, .resume, .env (.place 1 [])] ++
  Link.turn .writer [.round 0, .resume, .exec 0, .exec 0, .round 0, .resume,
    .env (.place 1 rankOne.text), .env (.complete 0 1 48), .round 0, .resume, .round 0, .resume,
    .exec 0]

theorem greet_isRun : IsRun rankOne.Begins
    (Network.Step Link.ranks fun i => ProcessStep (rankOne.code i)) (visited choose booted greet) 20 := by
  have hact : ∀ i a s l s', processAct (rankOne.code i) a s = some (l, s') →
      ProcessStep (rankOne.code i) s l s' := fun _ _ _ _ _ => .of_act
  have hchoose : ∀ a x y, choose a x = some y →
      Network.Step Link.ranks (fun i => ProcessStep (rankOne.code i)) x y :=
    fun _ _ _ => Network.step_of_perform hact
  refine isRun_visited hchoose ⟨fun i => ?_, rfl⟩ (by decide +kernel)
  cases i with
  | writer => exact ⟨quiet, true, (), quiet_idle, rfl, rfl, fun _ => rfl, rfl, rfl⟩
  | reader =>
    exact ⟨_, true, (), ⟨fun _ => rfl, rfl, fun q hq => by cases hq⟩, rfl, rfl, fun _ => rfl,
      by decide +kernel, rfl⟩

/-- The writer for rank 1 has received it. -/
theorem handshake_eq_greet :
    (writerFor 8 2 0).handshake (visited choose booted greet 20).writer.world.mem 1000 48 =
      .ok { writerFor 8 2 0 with peerSeed := 5, peerRegions := [⟨65536, kMemoryRegionSize, 9⟩] } :=
  handshake_eq rankOne greet_isRun rfl rfl (by decide) (fun i => Or.inr (by cases i <;> decide)) rfl 20
    le_rfl 0 1000 48 (by decide +kernel)

end Ends

end Greeting

end EfaExamples
