import EfaExamples.Common.Numbering
import EfaExamples.Efa.Resumption
import EfaExamples.Peer.Writing
/-!
# Runs of the writer

The two versions of `WriteOne`, and what holds along a run of
`Writer::Write` around either of them: the state is in a phase of it, no round
comes after the last one, and what has been posted is a write that the rounds
up to here contain.
-/

namespace EfaExamples

open Loop

/-- The loop as `Run` starts it, with nothing done before. -/
def Starts {Loc G : Type} (isVoid : Bool) (l : Loc) (g : G) (s : Loop Loc G ConnOp Fabric Val) :
    Prop :=
  ∃ f : Fabric, f.Idle ∧ f.history = {} ∧ s = boot isVoid l g f

theorem starts_quiet {Loc G : Type} (isVoid : Bool) (l : Loc) (g : G) :
    Starts isVoid l g (boot isVoid l g quiet) := ⟨quiet, quiet_idle, rfl, rfl⟩

/-- The message carries an immediate. -/
def Request.carriesImm : Request → Bool
  | .write _ _ _ _ _ _ cqData => cqData
  | _ => false

/-- The requests posted so far, in order. -/
def Fabric.requests (f : Fabric) : List Request := f.history.posted.map Posted.req

/-- The `WriteOne` of the `batch` example. -/
def Batch.version (w : Writer) : Writer.Version w Batch.Loc where
  entry r := .page r 0 0 []
  one := Batch.writeOne w
  Here := Batch.Here w
  allowed _ _ := Batch.allowed
  entered := Batch.here_entry

/-- The `WriteOne` of the `dmabuf` and `affinity` examples. -/
def Sequential.version (w : Writer) : Writer.Version w Sequential.Loc where
  entry r := .page r 0 0
  one := Sequential.writeOne w
  Here := Sequential.Here w
  allowed _ _ := Sequential.allowed
  entered := Sequential.here_entry

namespace Writer

/-- A writer of one region with two pages of 4 bytes. -/
def twoPages : Writer := ⟨EfaExamples.conn, 4, 2, [⟨500, 8, 7⟩]⟩

variable {I : Type} (w : Writer)

/-- The message of the write of page `i` of a region. -/
def request (region : CUDARegion) (i : ℕ) : Request :=
  .write w.conn.writeBuffer w.pageSize w.conn.remote (w.addr region i) region.key (w.immData i)
    (w.immData i ≠ 0)

/-- The requests of all rounds: one for every page of every region. -/
def requests (times : ℕ) : List Request :=
  (List.range times).flatMap fun _ => w.peerRegions.flatMap fun region =>
    (List.range w.numPages).map (w.request region)

/-- The write of page `i` of region `g` in round `r`. -/
def write (r g i : ℕ) : Issued := ⟨r, g, i, w.handle r (g * w.numPages + i)⟩

/-- What a write posts. -/
def posting (e : Issued) : Posted :=
  ⟨e.ctx, w.request (w.peerRegions.getD e.region ⟨0, 0, 0⟩) e.page⟩

variable {w}

theorem request_op {k : ℕ} (hk : k < w.total) (r : ℕ) :
    (w.op k).request = some (w.posting (w.issue (r * w.total + k))).req := by
  rw [w.issue_add hk]
  rfl

theorem ctx_issue (q : ℕ) : (w.issue q).ctx = q + q / w.total + 2 := by
  have := Nat.div_add_mod' q w.total
  simp only [issue, handle, oneHandle]
  omega

theorem ctx_lt {q q' : ℕ} (hq : q < q') : (w.issue q).ctx < (w.issue q').ctx := by
  have := Nat.div_le_div_right (c := w.total) hq.le
  rw [ctx_issue, ctx_issue]
  omega

theorem ctx_inj {q q' : ℕ} (hq : (w.issue q).ctx = (w.issue q').ctx) : q = q' := by
  rcases Nat.lt_trichotomy q q' with hlt | heq | hlt
  · have := w.ctx_lt hlt
    omega
  · exact heq
  · have := w.ctx_lt hlt
    omega

/-- The `q`-th write of all rounds is one of its round. -/
theorem issue_eq_write {r g i : ℕ} (hg : g < w.peerRegions.length) (hi : i < w.numPages) :
    w.issue (r * w.total + (g * w.numPages + i)) = w.write r g i := by
  have hlt := w.position_lt (List.getElem?_eq_getElem hg) hi
  obtain ⟨hd, hm⟩ := w.div_mod_position (g := g) hi
  rw [w.issue_add hlt, hd, hm]
  rfl

/-- The immediate is on the last page. -/
theorem carriesImm_request {region : CUDARegion} {i : ℕ} :
    (w.request region i).carriesImm = true ↔ i = w.numPages - 1 := by
  by_cases hi : i = w.numPages - 1
  · simp [request, Request.carriesImm, immData, hi, kImmData]
  · simp [request, Request.carriesImm, immData, hi]

/-- The requests of all rounds are those of the writes in their order. -/
theorem requests_eq {times : ℕ} :
    w.requests times = (List.range (times * w.total)).map fun q => (w.posting (w.issue q)).req := by
  have hregions : w.peerRegions =
      (List.range w.peerRegions.length).map fun g => w.peerRegions.getD g ⟨0, 0, 0⟩ := by
    refine List.ext_getElem (by simp) fun g hg _ => ?_
    simp [List.getD_eq_getElem?_getD, hg]
  rw [requests, range_mul, List.map_flatMap]
  refine List.flatMap_congr fun r _ => ?_
  rw [total, range_mul, List.map_flatMap, List.map_flatMap]
  conv_lhs => rw [hregions, List.flatMap_map]
  refine List.flatMap_congr fun g hg => ?_
  rw [List.map_map, List.map_map]
  refine List.map_congr_left fun i hi => ?_
  rw [List.mem_range] at hg hi
  show _ = (w.posting (w.issue (r * w.total + (g * w.numPages + i)))).req
  rw [issue_eq_write hg hi]
  rfl

/-- Every write of the rounds is a page of a region. -/
theorem exists_write {q times : ℕ} (hq : q < times * w.total) :
    ∃ r g i, r < times ∧ g < w.peerRegions.length ∧ i < w.numPages ∧ w.issue q = w.write r g i ∧
      q = r * w.total + (g * w.numPages + i) := by
  have htotal : 0 < w.total := Nat.pos_of_ne_zero fun h => by simp [h] at hq
  have hpages : 0 < w.numPages := Nat.pos_of_ne_zero fun h => by simp [total, h] at htotal
  have hg : q % w.total / w.numPages < w.peerRegions.length :=
    Nat.div_lt_of_lt_mul (by rw [Nat.mul_comm]; exact Nat.mod_lt _ htotal)
  have hi := Nat.mod_lt (q % w.total) hpages
  have heq : q = q / w.total * w.total +
      (q % w.total / w.numPages * w.numPages + q % w.total % w.numPages) := by
    rw [Nat.div_add_mod', Nat.div_add_mod']
  exact ⟨_, _, _, Nat.div_lt_of_lt_mul (by rwa [Nat.mul_comm]), hg, hi,
    (congrArg w.issue heq).trans (w.issue_eq_write hg hi), heq⟩

/-! ## The rounds -/

namespace Phase

variable {entry : ℕ → I} {one : I → Op (Loc I) Counters ConnOp Val} {times : ℕ}
variable {Here : I → Window → Prop} {res : ℕ → Outcome Val → Prop} {ph ph' : Phase I}

/-- The number of writes scheduled in all rounds up to here. -/
def given (w : Writer) (ph : Phase I) : ℕ := (ph.window w).round * w.total + (ph.window w).made

/-- No round comes after the last one. -/
def Within (w : Writer) (times : ℕ) : Phase I → Prop
  | start => True
  | test r => r ≤ times
  | made r | entered r => r < times
  | running x _ | waiting x _ | finished x _ | back x _ | ended x (.error _) _ =>
    x.round < times ∧ x.made ≤ w.total
  | ended x (.ok _) _ => x = .enter w times

theorem Within.given_le (hw : ph.Within w times) : ph.given w ≤ times * w.total := by
  have hmul : ∀ {r m}, r < times → m ≤ w.total → r * w.total + m ≤ times * w.total := by
    intro r m hr hm
    have := Nat.mul_le_mul_right w.total (Nat.succ_le_of_lt hr)
    rw [Nat.succ_mul] at this
    omega
  cases ph with
  | start => simp [given, window, Window.enter]
  | test r => exact Nat.mul_le_mul_right _ hw
  | made r | entered r => exact hmul hw (Nat.zero_le _)
  | running x l | waiting x k | finished x o | back x o => exact hmul hw.1 hw.2
  | ended x o seq =>
    cases o with
    | ok v =>
      rw [given, window, show x = _ from hw]
      exact le_rfl
    | error e => exact hmul hw.1 hw.2

/-- **A move stays within the rounds.** -/
theorem Move.within (hm : Move w entry one times res ph ph') (hok : ph.Ok w Here)
    (hok' : ph'.Ok w Here) (hw : ph.Within w times) : ph'.Within w times := by
  cases hm with
  | still => exact hw
  | start => exact Nat.zero_le _
  | call hr => exact hr
  | stop hr => exact congrArg _ (le_antisymm hw hr)
  | await => exact hw
  | enter => exact ⟨hw, Nat.zero_le _⟩
  | step hs => exact ⟨hs.round ▸ hw.1, hs.made ▸ hw.2⟩
  | make => exact hw
  | launch _ | got _ _ _ | suspend | launchSuspend _ | wake _ _ _ | pop _ | finish _ | back =>
    exact ⟨hw.1, hok'.1.made⟩
  | next => exact hw.1
  | rethrow => exact ⟨hw.1, hok.1.made⟩

/-- **A move schedules at most one more write.** -/
theorem Move.given (hm : Move w entry one times res ph ph') (hok : ph.Ok w Here) :
    ph'.given w = ph.given w ∨ ph'.given w = ph.given w + 1 := by
  cases hm with
  | launch _ | launchSuspend _ => exact Or.inr rfl
  | step hs =>
    left
    simp only [Phase.given, window, hs.round, hs.made]
  | next =>
    obtain ⟨hx, -, -, -, -, hall, -⟩ := hok
    left
    have := hx.made
    have := hx.awaited
    simp only [Phase.given, window, Window.enter, Nat.succ_mul]
    omega
  | still | start | call _ | stop _ | await | enter | make | got _ _ _ | suspend | wake _ _ _
  | pop _ | finish _ | back | rethrow => exact Or.inl rfl

/-- **Whoever begins is a write that has been scheduled.** -/
theorem of_begins {h : ℕ} {a : ConnOp} (hok : ph.Ok w Here)
    (hstack : (ph.outline w entry).stack = [])
    (hr : (ph.outline w entry).role h = some (.fresh a) ∨
      (ph.outline w entry).role h = some (.leaf a)) :
    ph.Inside ∧
      ∃ q < ph.given w, h = (w.issue q).ctx ∧ a.request = some (w.posting (w.issue q)).req := by
  have hleaf : (ph.outline w entry).role h = some (.leaf a) := by
    refine hr.resolve_left fun hf => ?_
    cases ph with
    | waiting x k =>
      obtain ⟨-, hb⟩ | ⟨-, hb⟩ | ⟨k, -, -, ⟨-, hb⟩ | ⟨-, -, hb⟩ | ⟨hfr, -, -⟩⟩ := Window.role_cases hf
      · cases hb
      · cases hb
      · cases hb
      · cases hb
      · rw [hok.2.1] at hfr
        cases hfr
    | test r | made r | running x l | back x o => cases hstack
    | start | entered r | finished x o | ended x o seq =>
      simp only [outline] at hf
      grind
  obtain ⟨hin, k, rfl, rfl, -, hk⟩ := leaf_cases hleaf
  have htotal : k < w.total := hk.trans_le (made_le hok hin)
  refine ⟨hin, (ph.window w).round * w.total + k, Nat.add_lt_add_left hk _, ?_, request_op htotal _⟩
  rw [w.issue_add htotal]

end Phase

/-! ## Runs -/

/-- **Along a run**: the state is in a phase within the rounds, and what has been
posted are writes scheduled by now. -/
structure Along (v : Version w I) (times : ℕ) (ph : Phase I)
    (s : Loop (Loc I) Counters ConnOp Fabric Val) : Prop where
  states : States v ph s
  within : ph.Within w times
  recorded : Recorded s.world
  posted : ∀ p ∈ s.world.history.posted, ∃ q < ph.given w, p = w.posting (w.issue q)

variable {v : Version w I} {ph : Phase I} {times : ℕ}
variable {s s' : Loop (Loc I) Counters ConnOp Fabric Val}

/-- What is posted by a step is a write that has been scheduled. -/
theorem States.of_posts (ss : States v ph s) {h : ℕ} {a : ConnOp} {req : Request}
    (hp : Posts s s' h a req) :
    ph.Inside ∧ ∃ q < ph.given w, (⟨h, req⟩ : Posted) = w.posting (w.issue q) := by
  obtain ⟨c, hc, hpt⟩ := hp.point
  obtain ⟨r, hr, hfit⟩ := ss.outlined.fits hc
  have hempty : (ph.outline w v.entry).stack = [] := by rw [← ss.outlined.stack, hp.stack]
  obtain ⟨hin, q, hq, hctx, hreq⟩ := Phase.of_begins ss.ok hempty
    ((hfit.of_initialIo hpt).imp (fun h => h ▸ hr) fun h => h ▸ hr)
  rw [hp.request, Option.some.injEq] at hreq
  exact ⟨hin, q, hq, by rw [hctx, hreq]; rfl⟩

theorem States.posts (ss : States v ph s) (hs : Step efaWorld (v.code times) s s')
    {p : Posted} (hp : p ∈ s'.world.history.posted) (hn : p ∉ s.world.history.posted) :
    ∃ q < ph.given w, p = w.posting (w.issue q) := by
  rcases hs.posted_cases with heq | ⟨h, a, req, hposts⟩
  · exact absurd (heq ▸ hp) hn
  · rw [hposts.posted] at hp
    rw [List.mem_singleton.mp ((List.mem_append.mp hp).resolve_left hn)]
    exact (ss.of_posts hposts).2

/-- **One step.** -/
theorem Along.step (al : Along v times ph s) (hs : Step efaWorld (v.code times) s s') :
    ∃ ph', Phase.Move w v.entry v.one times s.DoneWith ph ph' ∧ Along v times ph' s' ∧
      (ph.outline w v.entry).Leaves (ph'.outline w v.entry) ∧
      (Sound (ph.outline w v.entry) s → (∀ x l e, ph = .running x l → v.one l = .ret (.error e) →
        ph' = .finished x (.error e) → x.awaited = x.made) → Sound (ph'.outline w v.entry) s') := by
  obtain ⟨ph', hm, ss', hleaves, hsound⟩ := al.states.step hs
  have hgiven : ph.given w ≤ ph'.given w := by
    have := hm.given al.states.ok
    omega
  refine ⟨ph', hm, ⟨ss', hm.within al.states.ok ss'.ok al.within, al.recorded.step hs, ?_⟩,
    hleaves, hsound⟩
  intro p hp
  by_cases hn : p ∈ s.world.history.posted
  · obtain ⟨q, hq, he⟩ := al.posted p hn
    exact ⟨q, hq.trans_le hgiven, he⟩
  · obtain ⟨q, hq, he⟩ := al.states.posts hs hp hn
    exact ⟨q, hq.trans_le hgiven, he⟩

/-- What has been posted is the write of a page of a region. -/
theorem Along.posted_write (al : Along v times ph s) {p : Posted}
    (hp : p ∈ s.world.history.posted) : ∃ r g i, r < times ∧ g < w.peerRegions.length ∧
      i < w.numPages ∧ p = w.posting (w.write r g i) := by
  obtain ⟨q, hq, rfl⟩ := al.posted p hp
  obtain ⟨r, g, i, hr, hg, hi, heq, -⟩ := exists_write (hq.trans_le al.within.given_le)
  exact ⟨r, g, i, hr, hg, hi, by rw [heq]⟩

/-- What has been copied with an immediate is the write of a last page. -/
theorem Along.placed_last (al : Along v times ph s) {p : Posted × List UInt8}
    (hp : p ∈ s.world.history.placed) (himm : p.1.req.carriesImm = true) :
    ∃ r g, r < times ∧ g < w.peerRegions.length ∧ 0 < w.numPages ∧
      p.1 = w.posting (w.write r g (w.numPages - 1)) := by
  obtain ⟨r, g, i, hr, hg, hi, heq⟩ := al.posted_write (al.recorded.placed p hp)
  obtain rfl : i = w.numPages - 1 := carriesImm_request.mp (heq ▸ himm)
  exact ⟨r, g, hr, hg, by omega, heq⟩

/-- Before `Write` begins. -/
theorem Along.start {f : Fabric} (hf : f.Idle) (hh : f.history = {}) :
    Along v times .start (boot true (.write 0) {} f) ∧
      Sound ((Phase.start : Phase I).outline w v.entry) (boot true (.write 0) {} f) := by
  have ho := Outlined.boot (A := ConnOp) (V := Val) true (Loc.write 0 : Loc I) ({} : Counters) f
  have hsound : Sound ((Phase.start : Phase I).outline w v.entry)
      (boot true (Loc.write 0 : Loc I) ({} : Counters) f) := by
    refine ⟨Table.boot true _ _ f, Contexts.boot true _ _ hf, fun h a hr => ?_⟩
    simp only [Phase.outline] at hr
    split at hr <;> cases hr
  refine ⟨⟨⟨ho, trivial, fun q hq => ?_, Or.inl hsound⟩, trivial, ?_, fun p hp => ?_⟩, hsound⟩
  · simp [Phase.window, Window.done, Window.enter] at hq
  · rw [boot_world]
    refine ⟨fun p hp => ?_, fun i hi => ?_, fun p hp => ?_⟩
    · rw [hf.inflight] at hp
      cases hp
    · rw [hf.outstanding] at hi
      cases hi
    · rw [hh] at hp
      cases hp
  · rw [boot_world, hh] at hp
    cases hp

variable {σ : ℕ → Loop (Loc I) Counters ConnOp Fabric Val} {n : ℕ}

/-- **The invariant rule for runs of the writer**: what holds before `Write` begins,
and is kept by every step between two phases, holds along the run. -/
theorem along_invariant (Inv : Phase I → Loop (Loc I) Counters ConnOp Fabric Val → Prop)
    (hrun : IsRun (Starts true (.write 0) {}) (Step efaWorld (v.code times)) σ n)
    (h₀ : ∀ f : Fabric, f.Idle → f.history = {} → Inv .start (boot true (.write 0) {} f))
    (hstep : ∀ ph ph' s s', Inv ph s → Along v times ph s → Step efaWorld (v.code times) s s' →
      Phase.Move w v.entry v.one times s.DoneWith ph ph' → Along v times ph' s' → Inv ph' s') :
    ∀ t ≤ n, ∃ ph, Along v times ph (σ t) ∧ Inv ph (σ t) := by
  refine hrun.invariant (fun s => ∃ ph, Along v times ph s ∧ Inv ph s) ?_ ?_
  · rintro s ⟨f, hf, hh, rfl⟩
    exact ⟨.start, (Along.start hf hh).1, h₀ f hf hh⟩
  · rintro s s' ⟨ph, al, hi⟩ hs
    obtain ⟨ph', hm, al', -⟩ := al.step hs
    exact ⟨ph', al', hstep ph ph' s s' hi al hs hm al'⟩

/-- **Every state of a run is in a phase.** -/
theorem along_of_run
    (hrun : IsRun (Starts true (.write 0) {}) (Step efaWorld (v.code times)) σ n) :
    ∀ t ≤ n, ∃ ph, Along v times ph (σ t) := by
  intro t ht
  obtain ⟨ph, al, -⟩ := along_invariant (fun _ _ => True) hrun (fun _ _ _ => trivial)
    (fun _ _ _ _ _ _ _ _ _ => trivial) t ht
  exact ⟨ph, al⟩

end Writer

end EfaExamples
