import EfaExamples.Efa.Process
import EfaExamples.Peer.Lag
import EfaExamples.Peer.Model.Link
import EfaExamples.Peer.Receipt
/-!
# What a `Read` that has returned says of the writer

No packet is made up on the way, so at most as many `Read`s have returned as
writes with an immediate have been copied (`Link.resumed_le`), and what such a
write says of the writer's other pages holds of the `Read`s.
-/

namespace EfaExamples

open Writer

namespace Link

variable {I : Type} {w : Writer} {v : Version w I} {k times reads n : ℕ} {conn : Conn}
variable {address : Side → ℕ} {σ : ℕ → Link I}

/-- Both processes as `Run` starts them, with nothing on its way. -/
structure Begins (x : Link I) : Prop where
  writer : Starts true (.write 0) {} x.writer
  reader : Reader.Begins x.reader
  queues : ∀ i, (x.party i).world.completions = []
  wire : x.wire = 0

/-- `Reader::Read` has returned. -/
def ReaderEnded (x : Link I) : Prop :=
  ∃ c u, x.reader.coros 0 = some c ∧ c.point.isFinal = true ∧ c.get = .ok u

/-! ## The two runs -/

/-- **The writer runs** as it does against any fabric, -/
theorem writer_run (hrun : IsRun Begins (Step address (v.code times) conn reads) σ n) :
    IsRun (Starts true (.write 0) {}) (Loop.Step efaWorld (v.code times))
      (fun t => (σ t).writer) n :=
  hrun.party .writer (fun _ hx => hx.writer) (fun _ _ _ hs => hs.step) fun s => .stand _ s

/-- and so does the reader. -/
theorem reader_run (hrun : IsRun Begins (Step address (v.code times) conn reads) σ n) :
    IsRun Reader.Begins (Loop.Step efaWorld (Reader.code conn reads)) (fun t => (σ t).reader) n :=
  hrun.party .reader (fun _ hx => hx.reader) (fun _ _ _ hs => hs.step) fun s => .stand _ s

/-- **Nothing is lost, made up or taken twice** between them. -/
theorem conserved (hrun : IsRun Begins (Step address (v.code times) conn reads) σ n) :
    ∀ t ≤ n, (processAccounts (code (v.code times) conn reads)).Conserved address (σ t) := by
  refine hrun.conserved _ fun x hx => conserved_of_empty (fun i => ?_) hx.queues hx.wire
  cases i with
  | writer =>
    obtain ⟨f, -, hh, heq⟩ := hx.writer
    rw [show x.party .writer = _ from heq, Loop.boot_world, hh]
  | reader => exact hx.reader.2

theorem sum_side {M : Type*} [AddCommMonoid M] (f : Side → M) : ∑ i, f i = f .writer + f .reader :=
  Finset.sum_pair (by decide)

/-- A writer sends only what goes with its last pages. -/
theorem card_sent_le {ph : Phase I} {s : Loop (Writer.Loc I) Counters ConnOp Fabric Val}
    (la : Lags v times k ph s) : s.world.sent.card ≤ (finals s.world).length := by
  rw [Fabric.sent, Multiset.coe_card, List.length_filterMap_eq_countP, finals,
    ← List.countP_eq_length_filter]
  refine List.countP_mono_left fun p hp hsome => ?_
  obtain ⟨q, -, hq⟩ := la.placed hp
  obtain ⟨p, data⟩ := p
  obtain rfl : p = w.posting (w.issue q) := hq
  -- a write without an immediate leaves no packet
  cases himm : (w.posting (w.issue q)).req.carriesImm with
  | true => rfl
  | false =>
    simp only [posting, request, Request.carriesImm] at himm
    simp only [posting, request, himm, Posted.packet] at hsome
    cases hsome

/-- **No `Read` returns for nothing.** -/
theorem resumed_le (hv : v.Width k)
    (hrun : IsRun Begins (Step address (v.code times) conn reads) σ n) :
    ∀ t ≤ n, (σ t).reader.world.history.resumed.length ≤ (finals (σ t).writer.world).length := by
  intro t ht
  obtain ⟨ph, la⟩ := lags_of_run hv (writer_run hrun) t ht
  have rc := Reader.receives_of_run (reader_run hrun) t ht
  have hsent : (σ t).reader.world.sent = 0 := by
    rw [Fabric.sent, rc.placed]
    rfl
  have hgot : (σ t).reader.world.notified ≤ (σ t).reader.world.got.card := by
    rw [Fabric.got, rc.placed, Fabric.notified, Fabric.arrivals]
    simp only [List.filterMap_nil, Multiset.coe_nil, zero_add, Multiset.coe_card, List.length_map]
    rw [← List.countP_eq_length_filter, List.countP_append]
    refine (List.countP_mono_left fun e _ he => ?_).trans (Nat.le_add_right _ _)
    exact (Bool.and_eq_true_iff.mp he).1
  have hcons : (σ t).writer.world.sent + (σ t).reader.world.sent = (σ t).wire +
      ((σ t).writer.world.got.map (Prod.mk (address .writer)) +
        (σ t).reader.world.got.map (Prod.mk (address .reader))) := by
    have := conserved hrun t ht
    rwa [Network.Accounts.Conserved, sum_side, sum_side] at this
  have hcard := congrArg Multiset.card hcons
  simp only [Multiset.card_add, Multiset.card_map, hsent, Multiset.card_zero] at hcard
  have := card_sent_le la
  have := rc.resumed_le
  omega

/-- **Few pages are missing** of the regions whose `Read`s have returned. -/
theorem missing_lt (hv : v.Width k) (hk : 0 < k)
    (hrun : IsRun Begins (Step address (v.code times) conn reads) σ n) : ∀ t ≤ n,
    (w.missing (σ t).writer.world
      ((σ t).reader.world.history.resumed.length * w.numPages)).card < k := by
  intro t ht
  obtain ⟨ph, la⟩ := lags_of_run hv (writer_run hrun) t ht
  exact la.missing_lt hk (resumed_le hv hrun t ht)

/-- **After the reader's end** at most as many pages are still to be copied. -/
theorem ended (hv : v.Width k) (hk : 0 < k)
    (hrun : IsRun Begins (Step address (v.code times) conn reads) σ n)
    (hreads : times * w.peerRegions.length ≤ reads) {t : ℕ} (ht : t ≤ n)
    (hend : ReaderEnded (σ t)) :
    (w.missing (σ t).writer.world (times * w.total)).card < k ∧ ∀ t', t ≤ t' → t' ≤ n →
      (σ t').writer.world.history.placed.length ≤ (σ t).writer.world.history.placed.length +
        (w.missing (σ t).writer.world (times * w.total)).card := by
  obtain ⟨ph, la⟩ := lags_of_run hv (writer_run hrun) t ht
  have rc := Reader.receives_of_run (reader_run hrun) t ht
  obtain ⟨c, u, hc, hf, hget⟩ := hend
  constructor
  · have hall : times * w.peerRegions.length ≤ (finals (σ t).writer.world).length :=
      (hreads.trans (rc.times_le hc hf hget)).trans (resumed_le hv hrun t ht)
    have := la.missing_lt hk hall
    rwa [Nat.mul_assoc] at this
  · intro t' htt' ht'
    obtain ⟨ph', la'⟩ := lags_of_run hv (writer_run hrun) t' ht'
    exact la'.copies_le (grows_of_run (writer_run hrun) htt' ht')

/-! ## The two versions -/

/-- A write of a round is none of the missing ones, if there are none. -/
theorem arrived_of_card {f : Fabric} {m r g i : ℕ} (hnone : (w.missing f (m * w.numPages)).card < 1)
    (hi : i < w.numPages) (hlt : r * w.peerRegions.length + g < m) :
    w.Arrived f (r * w.total + (g * w.numPages + i)) := by
  have hempty := Finset.card_eq_zero.mp (Nat.lt_one_iff.mp hnone)
  by_contra hn
  refine Finset.notMem_empty (r * w.total + (g * w.numPages + i)) ?_
  rw [← hempty]
  refine Finset.mem_filter.mpr ⟨Finset.mem_range.mpr ?_, hn⟩
  have := Nat.mul_le_mul_right w.numPages (Nat.succ_le_of_lt hlt)
  rw [Nat.succ_mul, Nat.add_mul, Nat.mul_assoc] at this
  rw [total]
  omega

/-- **A `Read` that has returned covers its region.** In every run of a reader and
of a writer that awaits every write, in which `m` `Read`s have returned, all the
pages of the first `m` regions of the rounds have been copied to their targets.
If no two of the targets overlap, what the writer's buffer starts with is there. -/
theorem reads_cover {σ : ℕ → Link Sequential.Loc}
    (hrun : IsRun Begins (Step address (Sequential.code w times) conn reads) σ n) :
    ∀ t ≤ n, ∀ r g i, g < w.peerRegions.length → i < w.numPages →
      r * w.peerRegions.length + g < (σ t).reader.world.history.resumed.length →
      (∃ p ∈ (σ t).writer.world.history.placed, p.1 = w.posting (w.write r g i)) ∧
        (w.Apart → bytes ((σ t).writer.world.remote w.conn.remote) (w.target g i) w.pageSize =
          bytes (σ t).writer.world.mem w.conn.writeBuffer w.pageSize) := by
  intro t ht r g i hg hi hlt
  obtain ⟨ph, la⟩ := lags_of_run (Sequential.width w) (writer_run hrun) t ht
  have hnone := missing_lt (Sequential.width w) one_pos hrun t ht
  have harr := arrived_of_card hnone hi hlt
  refine ⟨?_, fun hw => la.bytes_of_arrived hw hg hi harr⟩
  rw [← issue_eq_write hg hi]
  exact harr

/-- **The reader ends last.** If a reader that makes a `Read` for every region of
every round has ended, all pages of all rounds have been copied, and from then on
the writer changes nothing at its target. So the reader may give up its memory. -/
theorem reader_ends_last {σ : ℕ → Link Sequential.Loc}
    (hrun : IsRun Begins (Step address (Sequential.code w times) conn reads) σ n)
    (hreads : times * w.peerRegions.length ≤ reads) {t : ℕ} (ht : t ≤ n)
    (hend : ReaderEnded (σ t)) :
    (∀ r g i, r < times → g < w.peerRegions.length → i < w.numPages →
      ∃ p ∈ (σ t).writer.world.history.placed, p.1 = w.posting (w.write r g i)) ∧
    ∀ t', t ≤ t' → t' ≤ n →
      (σ t').writer.world.history.placed = (σ t).writer.world.history.placed ∧
        (σ t').writer.world.remote = (σ t).writer.world.remote := by
  have hw := writer_run (v := Sequential.version w) hrun
  obtain ⟨hmissing, hafter⟩ := ended (Sequential.width w) one_pos hrun hreads ht hend
  refine ⟨fun r g i hr hg hi => ?_, fun t' htt' ht' => ?_⟩
  · rw [total, ← Nat.mul_assoc] at hmissing
    rw [← issue_eq_write hg hi]
    refine arrived_of_card hmissing hi ?_
    have := Nat.mul_le_mul_right w.peerRegions.length (Nat.succ_le_of_lt hr)
    rw [Nat.succ_mul] at this
    omega
  · have hle := hafter t' htt' ht'
    rw [Nat.lt_one_iff.mp hmissing, Nat.add_zero] at hle
    exact ⟨((grows_of_run hw htt' ht').placed.eq_of_length_le hle).symm,
      remote_eq hw htt' ht' hle⟩

/-- **With the pipelined writer some pages may be missing**: of those whose `Read`s
have returned fewer than `batch_size`, and when the reader has ended fewer than
so many are copied yet. -/
theorem reads_nearly_cover {σ : ℕ → Link Batch.Loc}
    (hrun : IsRun Begins (Step address (Batch.code w times) conn reads) σ n) : ∀ t ≤ n,
    (w.missing (σ t).writer.world
      ((σ t).reader.world.history.resumed.length * w.numPages)).card < Batch.batchSize ∧
    (times * w.peerRegions.length ≤ reads → ReaderEnded (σ t) → ∀ t', t ≤ t' → t' ≤ n →
      (σ t').writer.world.history.placed.length <
        (σ t).writer.world.history.placed.length + Batch.batchSize) := by
  intro t ht
  refine ⟨missing_lt (Batch.width w) (by decide) hrun t ht, fun hreads hend t' htt' ht' => ?_⟩
  obtain ⟨hmissing, hafter⟩ := ended (Batch.width w) (by decide) hrun hreads ht hend
  have := hafter t' htt' ht'
  omega

/-! ## Two pages and one `Read` -/

/-- The reader is at address 1. -/
def ranks : Side → ℕ
  | .writer => 0
  | .reader => 1

/-- Both processes before their first steps. -/
def booted {I : Type} : Link I where
  party
    | .writer => Loop.boot true (.write 0) {} quiet
    | .reader => Loop.boot true (.read 0) () quiet
  wire := 0

theorem booted_begins {I : Type} : Begins (booted : Link I) :=
  ⟨starts_quiet _ _ _, ⟨⟨quiet, quiet_idle, rfl⟩, rfl⟩, fun i => by cases i <;> rfl, rfl⟩

/-- A step of one of them. -/
def choose {I : Type} (write : Writer.Loc I → Op (Writer.Loc I) Counters ConnOp Val) :
    (Σ _ : Side, Act Fabric.Move) → Link I → Option (Link I) :=
  Network.perform (fun i => processAct (code write EfaExamples.conn 1 i)) ranks

/-- Choices that have their steps are a run. -/
theorem isRun_choose {I : Type} {write : Writer.Loc I → Op (Writer.Loc I) Counters ConnOp Val}
    {as : List (Σ _ : Side, Act Fabric.Move)} (h : goesOn (choose write) booted as = true) :
    IsRun Begins (Step ranks write EfaExamples.conn 1) (visited (choose write) booted as)
      as.length := by
  have hstep : ∀ i a s l s', processAct (code write EfaExamples.conn 1 i) a s = some (l, s') →
      ProcessStep (code write EfaExamples.conn 1 i) s l s' := fun _ _ _ _ _ => .of_act
  have hchoose : ∀ a x y, choose write a x = some y → Step ranks write EfaExamples.conn 1 x y :=
    fun _ _ _ => Network.step_of_perform hstep
  exact isRun_visited hchoose booted_begins h

/-- Choices of one of them. -/
def turn (i : Side) (as : List (Act Fabric.Move)) : List (Σ _ : Side, Act Fabric.Move) :=
  as.map (Sigma.mk i)

/-- Each page is copied and completed before the next is posted, and the reader takes
its notification in the end. -/
def inTurn : List (Σ _ : Side, Act Fabric.Move) :=
  turn .reader [.round 0, .resume, .exec 0, .exec 0, .round 0, .resume] ++
  turn .writer [.round 0, .resume, .exec 0, .exec 0, .round 0, .resume, .exec 0, .exec 0, .exec 0,
    .exec 0, .round 0, .resume, .env (.place 2 []), .env (.complete 0 2 4), .round 0, .resume,
    .round 0, .resume, .exec 0, .exec 0, .exec 0, .exec 0, .exec 0, .exec 0, .round 0, .resume,
    .env (.place 3 [])] ++
  turn .reader [.env arrival, .round 0, .resume, .round 0, .resume, .exec 0, .exec 0]

theorem inTurn_isRun : IsRun Begins (Step ranks (Sequential.code twoPages 1) EfaExamples.conn 1)
    (visited (choose (Sequential.code twoPages 1)) booted inTurn) 40 :=
  isRun_choose (by decide +kernel)

/-- The first page is there when the `Read` has returned. -/
theorem reads_cover_inTurn :
    ∃ p ∈ (visited (choose (Sequential.code twoPages 1)) booted inTurn 40).writer.world.history.placed,
      p.1 = twoPages.posting (twoPages.write 0 0 0) :=
  (reads_cover inTurn_isRun 40 le_rfl 0 0 0 (by decide) (by decide) (by decide +kernel)).1

/-- And the reader has ended. -/
theorem reader_ends_last_inTurn :
    ∃ p ∈ (visited (choose (Sequential.code twoPages 1)) booted inTurn 40).writer.world.history.placed,
      p.1 = twoPages.posting (twoPages.write 0 0 0) := by
  refine (reader_ends_last inTurn_isRun (by decide) le_rfl ?_).1 0 0 0 (by decide) (by decide)
    (by decide)
  exact ⟨_, none, rfl, by decide +kernel, by decide +kernel⟩

/-- The pipelined writer's second page is copied first, and the reader has ended when the
first one is. -/
def outOfTurn : List (Σ _ : Side, Act Fabric.Move) :=
  turn .reader [.round 0, .resume, .exec 0, .exec 0, .round 0, .resume] ++
  turn .writer [.round 0, .resume, .exec 0, .exec 0, .round 0, .resume, .exec 0, .exec 0, .exec 0,
    .exec 0, .exec 0, .exec 0, .exec 0, .exec 0, .exec 0, .round 0, .resume, .resume,
    .env (.place 3 [])] ++
  turn .reader [.env arrival, .round 0, .resume, .round 0, .resume, .exec 0, .exec 0] ++
  turn .writer [.env (.place 2 [])]

theorem outOfTurn_isRun : IsRun Begins (Step ranks (Batch.code twoPages 1) EfaExamples.conn 1)
    (visited (choose (Batch.code twoPages 1)) booted outOfTurn) 33 :=
  isRun_choose (by decide +kernel)

/-- One page is missing when the reader has ended, and is copied after that. -/
theorem reads_nearly_cover_outOfTurn :
    (twoPages.missing (visited (choose (Batch.code twoPages 1)) booted outOfTurn 32).writer.world 2).card
        < Batch.batchSize ∧
      (twoPages.missing (visited (choose (Batch.code twoPages 1)) booted outOfTurn 32).writer.world 2).card
        = 1 ∧
      (visited (choose (Batch.code twoPages 1)) booted outOfTurn 33).writer.world.history.placed.length
        = 2 := by
  refine ⟨?_, by decide +kernel, by decide +kernel⟩
  have hlen : (visited (choose (Batch.code twoPages 1)) booted
      outOfTurn 32).reader.world.history.resumed.length = 1 := by decide +kernel
  have h := (reads_nearly_cover outOfTurn_isRun 32 (by decide)).1
  rwa [hlen] at h

end Link

end EfaExamples
