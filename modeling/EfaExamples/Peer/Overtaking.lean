import EfaExamples.Coro.Forward
import EfaExamples.Peer.Order
/-!
# A notification overtakes its region

The pipelined `WriteOne` makes the write with the immediate while earlier pages
of its region are in flight, and the fabric copies what is in flight in any
order. So unless a region has one page, or none is ever posted, there is a run
in which the notification comes before the data: `WriteOne` goes on page by
page until the last page of the first region is in flight together with the
page before, and then the last one is copied first.
-/

namespace EfaExamples

open Loop Writer

namespace Fabric

variable {f : Fabric} {ctx : ℕ} {e : Entry}

/-- `Select` on a queue that is empty. -/
theorem select_of_empty (hf : f.fault 0 = none) (hc : f.completions = []) :
    (f.select [0] : Except (Exn Val) (List ℕ) × Fabric) = (.ok [], f) := by
  obtain ⟨cqs, imm, entry, mem, remote, inflight, completions, fault, rc, strerror, history⟩ := f
  obtain rfl : completions = [] := hc
  simp only [select, show fault 0 = none from hf, cqRead, handleCompletion, List.append_nil]

/-- `Select` on a queue with one completion. -/
theorem select_of_one (hf : f.fault 0 = none) (hc : f.completions = [(0, e)])
    (he : f.context e = some ctx) :
    (f.select [0] : Except (Exn Val) (List ℕ) × Fabric) =
      (.ok [ctx], { f with
        completions := []
        history := { f.history with taken := f.history.taken ++ [e] } }.store ctx e) := by
  have hctx : Fabric.context { f with
      completions := []
      history := { f.history with taken := f.history.taken ++ [e] } } e = some ctx := he
  simp only [select, hf, hc, kMaxCQEntries, cqRead, if_true, handleCompletion, hctx, List.append_nil]

end Fabric

namespace Batch

variable {w : Writer} {c b m g i : ℕ} {f : Fabric}

/-! ## The fabric -/

/-- The fabric works on the writes from the `c`-th up to the `b`-th, and has copied
only such as come before. -/
structure Flying (w : Writer) (c b : ℕ) (f : Fabric) : Prop where
  cqs : f.cqs = [0]
  fault : f.fault 0 = none
  rc : f.rc = 0
  completions : f.completions = []
  inflight : f.inflight = (List.range' c (b - c)).map fun k => w.posting (w.issue k)
  placed : ∀ p ∈ f.history.placed, p.1.ctx < c + 2

theorem issue_ctx {k : ℕ} (hk : k < w.total) : (w.issue k).ctx = k + 2 := by
  rw [ctx_issue, Nat.div_eq_of_lt hk, Nat.add_zero]

theorem enter_op (hsize : w.pageSize ≠ 0) (k : ℕ) : (w.op k).enter f = .ok f := by
  exact if_neg hsize

theorem post_op {k : ℕ} (hk : k < w.total) (hrc : f.rc = 0) : (w.op k).post (k + 2) f =
    (none, { f with
      inflight := f.inflight ++ [w.posting (w.issue k)]
      history := { f.history with posted := f.history.posted ++ [w.posting (w.issue k)] } }) := by
  have hreq := w.request_op hk 0
  rw [Nat.zero_mul, Nat.zero_add] at hreq
  have hp : (⟨k + 2, (w.posting (w.issue k)).req⟩ : Posted) = w.posting (w.issue k) := by
    rw [← issue_ctx hk]
    rfl
  simp only [ConnOp.post, hreq, Fabric.submit, hrc, if_true, hp]

/-- The completion of the `c`-th write. -/
def completion (c : ℕ) : Entry := { opContext := some (c + 2), flags := { write := true } }

/-- **The first of them is completed**, and `Select` finds it. -/
theorem Flying.complete (hf : Flying w c b f) (hcb : c < b) (hb : b ≤ w.total) :
    ∃ f₁ f₂ f₃, f.move (.place (c + 2) []) = some f₁ ∧ f₁.move (.complete 0 (c + 2) 0) = some f₂ ∧
      f₂.cqs = [0] ∧ (f₂.select [0] : Except (Exn Val) (List ℕ) × Fabric) = (.ok [c + 2], f₃) ∧
      Flying w (c + 1) b f₃ ∧ f₃.entry (c + 2) = completion c := by
  have hctx : (w.posting (w.issue c)).ctx = c + 2 := issue_ctx (by omega)
  have hinflight : f.inflight = w.posting (w.issue c) ::
      (List.range' (c + 1) (b - (c + 1))).map fun k => w.posting (w.issue k) := by
    rw [hf.inflight, show b - c = (b - (c + 1)) + 1 by omega, List.range'_succ]
    rfl
  have hfind : f.inflight.find? (·.ctx = c + 2) = some (w.posting (w.issue c)) := by
    rw [hinflight, List.find?_cons_of_pos (by simpa using hctx)]
  have hnot : ¬ f.Placed (c + 2) := by
    rintro ⟨p, hp, hpc⟩
    have := hf.placed p hp
    omega
  have hplaced : (f.copy (w.posting (w.issue c)) []).Placed (c + 2) :=
    ⟨_, List.mem_append_right _ (List.mem_singleton_self _), hctx⟩
  have hmove : (f.copy (w.posting (w.issue c)) []).move (.complete 0 (c + 2) 0) =
      some { f.copy (w.posting (w.issue c)) [] with
        inflight := f.inflight.erase (w.posting (w.issue c))
        completions := f.completions ++ [(0, completion c)] } := by
    have hfind' : (f.copy (w.posting (w.issue c)) []).inflight.find? (·.ctx = c + 2) =
        some (w.posting (w.issue c)) := hfind
    simp only [Fabric.move, hfind', if_pos hplaced]
    rfl
  refine ⟨_, _, _, by simp only [Fabric.move, hfind, if_neg hnot], hmove, hf.cqs,
    Fabric.select_of_one (e := completion c) hf.fault ?_ rfl, ?_, if_pos rfl⟩
  · show f.completions ++ [(0, completion c)] = _
    rw [hf.completions, List.nil_append]
  · refine ⟨hf.cqs, hf.fault, hf.rc, rfl, ?_, fun p hp => ?_⟩
    · show f.inflight.erase _ = _
      rw [hinflight, List.erase_cons_head]
    · rcases List.mem_append.mp hp with hp | hp
      · have := hf.placed p hp
        omega
      · rw [List.mem_singleton.mp hp]
        show (w.posting (w.issue c)).ctx < _
        omega

/-! ## `WriteOne` -/

/-- The states of a run of `Writer::Write`. -/
abbrev State := Loop (Writer.Loc Loc) Counters ConnOp Fabric Val

/-- One state leads to the other. -/
def Leads (w : Writer) (times : ℕ) : State → State → Prop :=
  Relation.ReflTransGen (Step efaWorld (code w times))

/-- The coroutine of a write at a point, in a state, with what awaits it. -/
def writing (p : Point (Writer.Loc Loc) ConnOp Val) (st : HandleState) (n : Option ℕ) :
    Coro (Writer.Loc Loc) ConnOp Val :=
  { Coro.new p false (some 1) with state := st, next := n }

/-- **In the first round**: of the writes from the `c`-th up to the `m`-th, those
before the `b`-th wait for the fabric, and the others are in `ready_`. -/
structure Ahead (w : Writer) (c b m : ℕ) (s : State) : Prop where
  seq : s.seq = m + 2
  schedule : s.schedule = []
  ready : s.ready = List.range' (b + 2) (m - b)
  body : ∃ c₁, s.coros 1 = some c₁ ∧ ∀ k, c ≤ k → k < m → k + 2 ∈ c₁.locals
  flying : ∀ k, c ≤ k → k < b → ∃ n, s.coros (k + 2) = some (writing (.io (w.op k)) .kSuspend n)
  queued : ∀ k, b ≤ k → k < m →
    ∃ n, s.coros (k + 2) = some (writing (.initialIo (w.op k)) .kScheduled n)
  lower : c ≤ b
  upper : b ≤ m

/-- `WriteOne` awaits the `c`-th write. Where it has more pages of the first region
to make, it goes on with the next of them. -/
structure Paused (w : Writer) (c b m : ℕ) (s : State) : Prop extends Ahead w c b m s where
  stack : s.stack = []
  front : ∃ c₁ k, s.coros 1 = some c₁ ∧ c₁.point = .await (c + 2) k ∧
    (c + batchSize < w.numPages → ∀ o,
      k o = .one (.front 0 0 (c + batchSize) (List.range' (c + 2) batchSize) o))
  next : ∃ ch, s.coros (c + 2) = some ch ∧ ch.next = some 1
  nonempty : c < m

variable {s : State} {l : Loc} {futs : List ℕ} (times : ℕ)

/-- A local step of `WriteOne` leaves the writes as they are. -/
theorem Ahead.step {f : Counters → Counters × Writer.Loc Loc} {l' : Loc} (ha : Ahead w c b m s)
    (hstack : s.stack = [(1, .one l)]) (hop : writeOne w l = .step f)
    (hl : (f s.mem).2 = .one l') : ∃ s', Leads w times s s' ∧ Ahead w c b m s' ∧
      s'.stack = [(1, .one l')] ∧ s'.left = s.left ∧ s'.world = s.world := by
  have hop' : code w times (.one l) = .step f := hop
  have h := exec_step 0 hstack hop'
  rw [hl] at h
  exact ⟨_, .single (.exec 0 h), ⟨ha.seq, ha.schedule, ha.ready, ha.body, ha.flying, ha.queued,
    ha.lower, ha.upper⟩, rfl, rfl, rfl⟩

/-- **One more write is made**, and put into `futs`. -/
theorem Ahead.make {region : CUDARegion} (ha : Ahead w c b m s)
    (hstack : s.stack = [(1, .one (.page 0 g i futs))]) (hg : w.peerRegions[g]? = some region)
    (hi : i < w.numPages) (hf : futs.length < batchSize) (hm : m = g * w.numPages + i) :
    ∃ s', Leads w times s s' ∧ Ahead w c b (m + 1) s' ∧
      s'.stack = [(1, .one (.page 0 g (i + 1) (futs ++ [m + 2])))] ∧ s'.left = s.left ∧
      s'.world = s.world := by
  obtain ⟨c₁, hc₁, hlocals⟩ := ha.body
  have hop : code w times (.one (.page 0 g i futs)) =
      .io (w.page region i) fun d => .one (.made 0 g i futs d) := by
    simp only [code, Writer.code, writeOne, hg, hi, if_true, Nat.not_le.mpr hf, if_false]
  have h₁ := exec_io 0 hstack hop
  rw [ha.seq, ← w.op_position hg hi, ← hm] at h₁
  generalize hs₁ : { (s.spawn (.new (.initialIo (w.op m)) false (some 1))).addLocal 1 (m + 2) with
    stack := [(1, .one (.made 0 g i futs (m + 2)))] } = s₁ at h₁
  have hone : s₁.coros 1 = some { c₁ with locals := (m + 2) :: c₁.locals } := by
    rw [← hs₁]
    simp [addLocal, spawn_coros, ha.seq, hc₁]
  have hnew : s₁.coros (m + 2) = some (.new (.initialIo (w.op m)) false (some 1)) := by
    rw [← hs₁]
    simp [addLocal, modify_coros, spawn_coros, ha.seq]
  have hold : ∀ k < m, s₁.coros (k + 2) = s.coros (k + 2) := by
    intro k hk
    rw [← hs₁]
    simp [addLocal, modify_coros, spawn_coros, ha.seq, hk.ne]
  have h₂ : s₁.exec (code w times) 0 = some { s₁.call (m + 2) with
      stack := [(1, .one (.queued 0 g i futs (m + 2)))] } := by
    rw [← schedule_eq_call hnew rfl]
    refine exec_future 0 (by rw [← hs₁]) rfl hnew rfl ?_
    simp [holds, hone]
  refine ⟨_, ((Relation.ReflTransGen.single (.exec 0 h₁)).tail (.exec 0 h₂)).tail
    (.exec 0 (exec_step 0 rfl rfl)), ?_, rfl, by rw [← hs₁]; rfl, by rw [← hs₁]; rfl⟩
  have hcoros : ∀ j, (s₁.call (m + 2)).coros j =
      if j = m + 2 then some (writing (.initialIo (w.op m)) .kScheduled none) else s₁.coros j := by
    intro j
    rw [call_coros, setState, modify_coros]
    split
    · rename_i hj
      rw [hj, hnew]
      rfl
    · rfl
  have hup := ha.upper
  refine ⟨?_, ?_, ?_, ⟨_, (hcoros 1).trans ((if_neg (by omega)).trans hone), ?_⟩, ?_, ?_, ha.lower, by omega⟩
  · rw [← hs₁]
    show s.seq + 1 = _
    rw [ha.seq]
  · rw [← hs₁]
    exact ha.schedule
  · rw [← hs₁]
    show s.ready ++ [m + 2] = _
    rw [ha.ready, show m + 1 - b = (m - b) + 1 by omega, List.range'_concat]
    congr 2
    omega
  · intro k hck hkm
    rcases Nat.lt_succ_iff_lt_or_eq.mp hkm with hlt | rfl
    · exact List.mem_cons_of_mem _ (hlocals k hck hlt)
    · exact List.mem_cons_self
  · intro k hck hkb
    obtain ⟨n, hn⟩ := ha.flying k hck hkb
    exact ⟨n, (hcoros _).trans ((if_neg (by omega)).trans ((hold k (by omega)).trans hn))⟩
  · intro k hbk hkm
    rcases Nat.lt_succ_iff_lt_or_eq.mp hkm with hlt | rfl
    · obtain ⟨n, hn⟩ := ha.queued k hbk hlt
      exact ⟨n, (hcoros _).trans ((if_neg (by omega)).trans ((hold k hlt).trans hn))⟩
    · exact ⟨none, (hcoros _).trans (if_pos rfl)⟩

/-- A write that is not over is at a point of its own. -/
theorem Ahead.pending (ha : Ahead w c b m s) {k : ℕ} (hck : c ≤ k) (hkm : k < m) :
    ∃ p st n, s.coros (k + 2) = some (writing p st n) ∧ p.isFinal = false ∧ st ≠ .kUnschedule := by
  rcases Nat.lt_or_ge k b with hlt | hge
  · obtain ⟨n, hn⟩ := ha.flying k hck hlt
    exact ⟨_, _, n, hn, rfl, by simp⟩
  · obtain ⟨n, hn⟩ := ha.queued k hge hkm
    exact ⟨_, _, n, hn, rfl, by simp⟩

/-- **`WriteOne` suspends** at the front of its window. -/
theorem Ahead.suspend {k : Outcome Val → Writer.Loc Loc} (ha : Ahead w c b m s) (hcm : c < m)
    (hstack : s.stack = [(1, .one l)]) (hop : writeOne w l = .await (c + 2) k)
    (hk : c + batchSize < w.numPages → ∀ o,
      k o = .one (.front 0 0 (c + batchSize) (List.range' (c + 2) batchSize) o)) :
    ∃ s', Leads w times s s' ∧ Paused w c b m s' ∧ s'.left = s.left ∧ s'.world = s.world := by
  obtain ⟨c₁, hc₁, hlocals⟩ := ha.body
  obtain ⟨p, st, n, hc, hp, hst⟩ := ha.pending le_rfl hcm
  have hop' : code w times (.one l) = .await (c + 2) k := hop
  have h := exec_await 0 hstack hop' hc hp
  generalize hs₁ : ((({ s with stack := [] } : State).setState .kSuspend 1).setPoint
    (.await (c + 2) k) 1).modify (c + 2) (fun ch => { ch with next := some 1 }) = s₁
  have hself : s₁.coros (c + 2) = some (writing p st (some 1)) := by
    rw [← hs₁]
    simp [setPoint, setState, modify_coros, hc, writing]
  have hone : s₁.coros 1 = some { c₁ with state := .kSuspend, point := .await (c + 2) k } := by
    rw [← hs₁]
    simp [setPoint, setState, modify_coros, hc₁]
  have hold : ∀ j, j ≠ c → s₁.coros (j + 2) = s.coros (j + 2) := by
    intro j hj
    rw [← hs₁]
    simp [setPoint, setState, modify_coros, hj]
  have heq : ({ s with stack := [] } : State).awaitSuspend 1 (c + 2) k = s₁ := by
    rw [awaitSuspend, hs₁, schedule_eq_self hself hst]
  rw [heq] at h
  -- a write keeps its point and its state
  have hkept : ∀ j p st n, s.coros (j + 2) = some (writing p st n) →
      ∃ n, s₁.coros (j + 2) = some (writing p st n) := by
    intro j p' st' n' hj
    rcases eq_or_ne j c with rfl | hne
    · rw [hc, Option.some.injEq] at hj
      obtain ⟨rfl, rfl⟩ : p = p' ∧ st = st' :=
        ⟨congrArg Coro.point hj, congrArg Coro.state hj⟩
      exact ⟨_, hself⟩
    · exact ⟨n', (hold j hne).trans hj⟩
  refine ⟨s₁, .single (.exec 0 h), ⟨⟨by rw [← hs₁]; exact ha.seq, by rw [← hs₁]; exact ha.schedule,
    by rw [← hs₁]; exact ha.ready, ⟨_, hone, hlocals⟩, ?_, ?_, ha.lower, ha.upper⟩,
    by rw [← hs₁]; rfl, ⟨_, k, hone, rfl, hk⟩, ⟨_, hself, rfl⟩, hcm⟩, by rw [← hs₁]; rfl,
    by rw [← hs₁]; rfl⟩
  · intro j hcj hjb
    obtain ⟨n', hn⟩ := ha.flying j hcj hjb
    exact hkept j _ _ n' hn
  · intro j hbj hjm
    obtain ⟨n', hn⟩ := ha.queued j hbj hjm
    exact hkept j _ _ n' hn

/-- **`WriteOne` fills its window**, and suspends at the front of it. -/
theorem Ahead.fill (n : ℕ) : ∀ {m g i : ℕ} {s : State}, Ahead w c b m s →
    s.stack = [(1, .one (.page 0 g i (List.range' (c + 2) (m - c))))] →
    m = g * w.numPages + i → (g < w.peerRegions.length ∧ i ≤ w.numPages ∨
      g = w.peerRegions.length ∧ i = 0) → m ≤ c + batchSize → c ≤ m → c < w.total →
    (w.peerRegions.length - g) * (w.numPages + 1) - i = n →
    ∃ s', Leads w times s s' ∧ Paused w c b (min (c + batchSize) w.total) s' ∧
      s'.left = s.left ∧ s'.world = s.world := by
  induction n using Nat.strong_induction_on with
  | _ n ih =>
    intro m g i s ha hstack hm hpos hsize hcm htotal hn
    have hhead : c < m → (List.range' (c + 2) (m - c)).headD 0 = c + 2 := by
      intro hlt
      rw [show m - c = (m - (c + 1)) + 1 by omega, List.range'_succ]
      rfl
    rcases hpos with ⟨hg, hi⟩ | ⟨rfl, rfl⟩
    · have hregion := List.getElem?_eq_getElem hg
      have hmul : (w.peerRegions.length - g) * (w.numPages + 1) =
          (w.peerRegions.length - (g + 1)) * (w.numPages + 1) + (w.numPages + 1) := by
        rw [← Nat.succ_mul]
        congr 1
        omega
      rcases hi.lt_or_eq with hi | rfl
      · have hlt : m < w.total := hm ▸ w.position_lt hregion hi
        rcases Nat.lt_or_ge (m - c) batchSize with hfree | hfull
        · -- there is room for one more
          have hconcat : List.range' (c + 2) (m + 1 - c) = List.range' (c + 2) (m - c) ++ [m + 2] := by
            rw [show m + 1 - c = (m - c) + 1 by omega, List.range'_concat,
              show c + 2 + 1 * (m - c) = m + 2 by omega]
          obtain ⟨s₁, h₁, ha₁, hstack₁, hleft₁, hworld₁⟩ :=
            ha.make times hstack hregion hi (by simpa using hfree) hm
          obtain ⟨s₂, h₂, hrest⟩ := ih _ (by omega) ha₁
            (by rw [hstack₁, hconcat]) (by omega) (Or.inl ⟨hg, hi⟩) (by omega) (by omega) htotal rfl
          rw [hleft₁, hworld₁] at hrest
          exact ⟨s₂, h₁.trans h₂, hrest⟩
        · -- the window is full
          have hmc : m = c + batchSize := by omega
          have hop : writeOne w (.page 0 g i (List.range' (c + 2) (m - c))) = .await (c + 2)
              fun o => .one (.front 0 g i (List.range' (c + 2) (m - c)) o) := by
            rw [writeOne, hregion]
            simp only [if_pos hi, List.length_range', if_pos hfull, hhead (by simp only [hmc, batchSize]; omega)]
          rw [min_eq_left (by omega), ← hmc]
          refine ha.suspend times (by simp only [hmc, batchSize]; omega) hstack hop fun hP o => ?_
          have hg0 : g = 0 := by
            by_contra hne
            have := Nat.mul_le_mul_right w.numPages (Nat.one_le_iff_ne_zero.mpr hne)
            omega
          subst hg0
          have hi : i = c + batchSize := by omega
          rw [hi, hmc, Nat.add_sub_cancel_left]
      · -- the region is done
        have hop : writeOne w (.page 0 g w.numPages (List.range' (c + 2) (m - c))) =
            .step fun m' => (m', .one (.page 0 (g + 1) 0 (List.range' (c + 2) (m - c)))) := by
          rw [writeOne, hregion]
          simp only [lt_irrefl, if_false]
        obtain ⟨s₁, h₁, ha₁, hstack₁, hleft₁, hworld₁⟩ := ha.step times hstack hop rfl
        obtain ⟨s₂, h₂, hrest⟩ := ih _ (by omega) ha₁ hstack₁ (by rw [hm, Nat.succ_mul]; omega)
          (by omega) hsize hcm htotal rfl
        rw [hleft₁, hworld₁] at hrest
        exact ⟨s₂, h₁.trans h₂, hrest⟩
    · -- every region has been gone through
      have hmt : m = w.total := hm
      have hop : writeOne w (.page 0 w.peerRegions.length 0 (List.range' (c + 2) (m - c))) =
          .step fun m' => (m', .one (.drain 0 (List.range' (c + 2) (m - c)))) := by
        rw [writeOne, List.getElem?_eq_none le_rfl]
      obtain ⟨s₁, h₁, ha₁, hstack₁, hleft₁, hworld₁⟩ := ha.step times hstack hop rfl
      have hop₁ : writeOne w (.drain 0 (List.range' (c + 2) (m - c))) = .await (c + 2)
          fun o => .one (.drained 0 (List.range' (c + 3) (m - (c + 1))) o) := by
        rw [show m - c = (m - (c + 1)) + 1 by omega, List.range'_succ]
        rfl
      obtain ⟨s₂, h₂, hrest⟩ := ha₁.suspend times (by omega) hstack₁ hop₁ fun hP => by
        have hpos : 0 < w.peerRegions.length := by
          refine Nat.pos_of_ne_zero fun h0 => ?_
          rw [total, h0, Nat.zero_mul] at htotal
          omega
        have := Nat.mul_le_mul_right w.numPages hpos
        omega
      rw [hleft₁, hworld₁, hmt] at hrest
      rw [min_eq_right (by omega)]
      exact ⟨s₂, h₁.trans h₂, hrest⟩

/-! ## The loop -/

/-- **The next write is posted.** -/
theorem Paused.post (hs : Paused w c b m s) (hf : Flying w c b s.world)
    (hsize : w.pageSize ≠ 0) (hbm : b < m) (hm : m ≤ w.total) {n : ℕ} (hleft : s.left = n + 1) :
    ∃ s', Leads w times s s' ∧ Paused w c (b + 1) m s' ∧ Flying w c (b + 1) s'.world ∧
      s'.left = n := by
  obtain ⟨nx, hc⟩ := hs.queued b le_rfl hbm
  have hlower := hs.lower
  have hready : s.ready = (b + 2) :: List.range' (b + 3) (m - (b + 1)) := by
    rw [hs.ready, show m - b = (m - (b + 1)) + 1 by omega, List.range'_succ]
  have h := resume_initialIo (w := efaWorld) hleft hready hc rfl (enter_op hsize b)
    (post_op (by omega) hf.rc)
  generalize hs₁ : ({ setState .kUnschedule (b + 2) { s with
      left := n, ready := List.range' (b + 3) (m - (b + 1)) } with
    world := { s.world with
      inflight := s.world.inflight ++ [w.posting (w.issue b)]
      history := { s.world.history with
        posted := s.world.history.posted ++ [w.posting (w.issue b)] } } }.setState .kSuspend
      (b + 2)).setPoint (.io (w.op b)) (b + 2) = s₁ at h
  have hcoros : ∀ j, s₁.coros j =
      if j = b + 2 then some (writing (.io (w.op b)) .kSuspend nx) else s.coros j := by
    intro j
    rw [← hs₁]
    simp only [setPoint, setState, modify_coros]
    split
    · rename_i hj
      rw [hj, hc]
      rfl
    · rfl
  have hold : ∀ {j}, j ≠ b → s₁.coros (j + 2) = s.coros (j + 2) :=
    fun hj => (hcoros _).trans (if_neg (by omega))
  have hone : s₁.coros 1 = s.coros 1 := (hcoros 1).trans (if_neg (by omega))
  refine ⟨s₁, .single (.resume hs.stack h), ⟨⟨?_, ?_, ?_, ?_, ?_, ?_, by omega, hbm⟩, ?_, ?_, ?_,
    hs.nonempty⟩, ?_, ?_⟩
  · rw [← hs₁]
    exact hs.seq
  · rw [← hs₁]
    exact hs.schedule
  · rw [← hs₁]
    rfl
  · rw [hone]
    exact hs.body
  · intro k hck hkb
    rcases eq_or_ne k b with rfl | hne
    · exact ⟨nx, (hcoros _).trans (if_pos rfl)⟩
    · rw [hold hne]
      exact hs.flying k hck (by omega)
  · intro k hbk hkm
    rw [hold (by omega)]
    exact hs.queued k (by omega) hkm
  · rw [← hs₁]
    exact hs.stack
  · rw [hone]
    exact hs.front
  · obtain ⟨ch, hch, hnext⟩ := hs.next
    rcases eq_or_ne c b with rfl | hne
    · rw [hc, Option.some.injEq] at hch
      exact ⟨_, (hcoros _).trans (if_pos rfl), (congrArg Coro.next hch).trans hnext⟩
    · exact ⟨ch, (hold hne).trans hch, hnext⟩
  · rw [← hs₁]
    refine ⟨hf.cqs, hf.fault, hf.rc, hf.completions, ?_, hf.placed⟩
    show s.world.inflight ++ _ = _
    rw [hf.inflight, show b + 1 - c = (b - c) + 1 by omega, List.range'_concat, List.map_append,
      show c + 1 * (b - c) = b by omega]
    rfl
  · rw [← hs₁]
    rfl

/-- **All that is in `ready_` is posted.** -/
theorem Paused.posts (hsize : w.pageSize ≠ 0) (hm : m ≤ w.total) (n : ℕ) :
    ∀ {b : ℕ} {s : State}, Paused w c b m s → Flying w c b s.world → m - b = n → s.left = n →
      ∃ s', Leads w times s s' ∧ Paused w c m m s' ∧ Flying w c m s'.world ∧ s'.left = 0 := by
  induction n with
  | zero =>
    intro b s hs hf hn hleft
    obtain rfl : b = m := by
      have := hs.upper
      omega
    exact ⟨s, .refl, hs, hf, hleft⟩
  | succ n ih =>
    intro b s hs hf hn hleft
    obtain ⟨s₁, h₁, hs₁, hf₁, hleft₁⟩ := hs.post times hf hsize (by omega) hm hleft
    obtain ⟨s₂, h₂, hrest⟩ := ih hs₁ hf₁ (by omega) hleft₁
    exact ⟨s₂, h₁.trans h₂, hrest⟩

/-- `Run` goes round, and `Select` finds nothing. -/
theorem Flying.round (hf : Flying w c b s.world) (hstack : s.stack = []) (hleft : s.left = 0)
    (hschedule : s.schedule = []) :
    RoundStep efaWorld s { s with left := s.ready.length } := by
  have hpoll : efaWorld.poll s.world = (.ok [], s.world) := by
    show s.world.select s.world.cqs = _
    rw [hf.cqs]
    exact Fabric.select_of_empty hf.fault hf.completions
  have hround : RoundStep efaWorld s (s.runone 0) :=
    .mk ⟨hstack, hleft⟩ (by simp [Loop.stopped, efaWorld, hf.cqs]) hpoll rfl
  rwa [runone_of_schedule_nil hschedule] at hround

/-- The coroutine of the `c`-th write has ended, and `WriteOne` is to go on. -/
structure Ended (c : ℕ) (s s' : State) : Prop where
  seq : s'.seq = s.seq
  schedule : s'.schedule = s.schedule
  ready : s'.ready = [1]
  left : s'.left = 0
  stack : s'.stack = []
  write : ∃ cd v, s'.coros (c + 2) = some cd ∧ cd.locals = [] ∧ cd.get = .ok v
  body : ∀ c₁, s.coros 1 = some c₁ → ∃ st, s'.coros 1 = some { c₁ with state := st }
  others : ∀ j, j ≠ c → s'.coros (j + 2) = s.coros (j + 2)

/-- **The front of the window is completed**, and its coroutine ends. -/
theorem Paused.ended (hs : Paused w c m m s) (hf : Flying w c m s.world) (hleft : s.left = 0)
    (hm : m ≤ w.total) :
    ∃ s', Leads w times s s' ∧ Ended c s s' ∧ Flying w (c + 1) m s'.world := by
  obtain ⟨f₁, f₂, f₃, hplace, hcomplete, hcqs, hselect, hf₃, hentry⟩ := hf.complete hs.nonempty hm
  obtain ⟨nx, hc⟩ := hs.flying c le_rfl hs.nonempty
  have hnx : nx = some 1 := by
    obtain ⟨ch, hch, hnext⟩ := hs.next
    rw [hc, Option.some.injEq] at hch
    exact (congrArg Coro.next hch).trans hnext
  subst hnx
  obtain ⟨c₁, hc₁, -⟩ := hs.body
  have hempty : s.ready = [] := by rw [hs.ready, Nat.sub_self, List.range'_zero]
  -- `Select` calls the handle of the completion
  have hcall : ({ s with world := f₃ } : State).callAll [c + 2] =
      some (({ s with world := f₃ } : State).call (c + 2)) := by
    simp only [callAll, hc, Option.isSome_some, if_true]
  have hround : RoundStep efaWorld ({ s with world := f₂ } : State)
      ((({ s with world := f₃ } : State).call (c + 2)).runone 0) :=
    .mk ⟨hs.stack, hleft⟩ (by simp [Loop.stopped, efaWorld, hcqs])
      (by show f₂.select f₂.cqs = _; rw [hcqs]; exact hselect) hcall
  generalize hs₁ : (({ s with world := f₃ } : State).call (c + 2)).runone 0 = s₁ at hround
  rw [runone_of_schedule_nil (show (({ s with world := f₃ } : State).call (c + 2)).schedule = [] from
    hs.schedule)] at hs₁
  have hleft₁ : s₁.left = 0 + 1 := by
    rw [← hs₁]
    show (s.ready ++ [c + 2]).length = _
    rw [hempty]
    rfl
  have hready₁ : s₁.ready = [c + 2] := by
    rw [← hs₁]
    show s.ready ++ [c + 2] = _
    rw [hempty]
    rfl
  have hself₁ : s₁.coros (c + 2) = some (writing (.io (w.op c)) .kScheduled (some 1)) := by
    rw [← hs₁]
    show (({ s with world := f₃ } : State).setState .kScheduled (c + 2)).coros (c + 2) = _
    rw [setState, modify_coros_self, hc]
    rfl
  have hold₁ : ∀ j, j ≠ c + 2 → s₁.coros j = s.coros j := by
    intro j hj
    rw [← hs₁]
    exact modify_coros_of_ne hj
  have hworld₁ : s₁.world = f₃ := by
    rw [← hs₁]
    rfl
  have hvalue : efaWorld.resume (w.op c) (c + 2) s₁.world = (.ok (some (.size 0)), { f₃ with
      history := { f₃.history with resumed := f₃.history.resumed ++ [c + 2] } }) := by
    rw [hworld₁]
    simp only [efaWorld, Writer.op, page, ConnOp.resume, ConnOp.value, hentry]
    rfl
  -- its coroutine ends
  have h := resume_io (w := efaWorld) hleft₁ hready₁ hself₁ rfl
  rw [hvalue] at h
  generalize hs₂ : ({ setState .kUnschedule (c + 2) { s₁ with left := 0, ready := [] } with
    world := { f₃ with
      history := { f₃.history with resumed := f₃.history.resumed ++ [c + 2] } } } : State) = s₂ at h
  have hself₂ : s₂.coros (c + 2) = some (writing (.io (w.op c)) .kUnschedule (some 1)) := by
    rw [← hs₂]
    show (setState .kUnschedule (c + 2) s₁).coros (c + 2) = _
    rw [setState, modify_coros_self, hself₁]
    rfl
  have hold₂ : ∀ j, j ≠ c + 2 → s₂.coros j = s.coros j := by
    intro j hj
    rw [← hold₁ j hj, ← hs₂]
    exact modify_coros_of_ne hj
  have hone₂ : s₂.coros 1 = some c₁ := (hold₂ 1 (by omega)).trans hc₁
  rw [finish_eq_call hself₂ rfl rfl (by rw [hone₂]; rfl)] at h
  refine ⟨_, (((Relation.ReflTransGen.single (.env ⟨_, hplace⟩)).tail (.env ⟨_, hcomplete⟩)).tail
    (.round hround)).tail (.resume (by rw [← hs₁]; exact hs.stack) h), ⟨?_, ?_, ?_, ?_, ?_, ?_, ?_, ?_⟩, ?_⟩
  · rw [← hs₂, ← hs₁]
    rfl
  · rw [← hs₂, ← hs₁]
    rfl
  · rw [← hs₂]
    rfl
  · rw [← hs₂]
    rfl
  · rw [← hs₂, ← hs₁]
    exact hs.stack
  · refine ⟨{ writing (.io (w.op c)) .kUnschedule (some 1) with
      point := .final, result := some (.ok (some (.size 0))) }, some (.size 0), ?_, rfl, rfl⟩
    rw [call_coros, setState, modify_coros_of_ne (by omega), modify_coros_self, hself₂]
    rfl
  · intro c' hc'
    rw [hc₁, Option.some.injEq] at hc'
    refine ⟨.kScheduled, ?_⟩
    rw [call_coros, setState, modify_coros_self, modify_coros_of_ne (by omega), hone₂, hc']
    rfl
  · intro j hj
    rw [call_coros, setState, modify_coros_of_ne (by omega), modify_coros_of_ne (by omega),
      hold₂ _ (by omega)]
  · rw [← hs₂]
    exact ⟨hf₃.cqs, hf₃.fault, hf₃.rc, hf₃.completions, hf₃.inflight, hf₃.placed⟩

/-- **`WriteOne` goes on**: it gives up the front of its window. -/
theorem Paused.shift {s' : State} (hs : Paused w c m m s) (he : Ended c s s')
    (hf : Flying w (c + 1) m s'.world) (hP : c + batchSize < w.numPages) :
    ∃ s'', Leads w times s' s'' ∧ Ahead w (c + 1) m m s'' ∧ Flying w (c + 1) m s''.world ∧
      s''.stack = [(1, .one (.page 0 0 (c + batchSize)
        (List.range' (c + 1 + 2) (c + batchSize - (c + 1)))))] ∧ s''.left = 0 := by
  obtain ⟨c₁, k, hc₁, hpoint, hk⟩ := hs.front
  obtain ⟨st, hone⟩ := he.body c₁ hc₁
  obtain ⟨cd, v, hcd, hcdl, hget⟩ := he.write
  have hround := hf.round he.stack he.left (he.schedule.trans hs.schedule)
  rw [he.ready] at hround
  have h₁ := resume_await (w := efaWorld) (s := { s' with left := [1].length, ready := [1] }) (q := [])
    rfl rfl hone hpoint hcd (by omega)
  rw [hget, hk hP] at h₁
  generalize hs₁ : ({ (setState .kUnschedule 1 { s' with left := 0, ready := [] }).setPoint
    .running 1 with stack := [(1, .one (.front 0 0 (c + batchSize)
      (List.range' (c + 2) batchSize) (.ok v)))] } : State) = s₁ at h₁
  have hone₁ : s₁.coros 1 = some { c₁ with state := .kUnschedule, point := .running } := by
    rw [← hs₁]
    show ((setState .kUnschedule 1 s').setPoint .running 1).coros 1 = _
    rw [setPoint, setState, modify_coros_self, modify_coros_self, hone]
    rfl
  have hold₁ : ∀ j, s₁.coros (j + 2) = s'.coros (j + 2) := by
    intro j
    rw [← hs₁]
    show ((setState .kUnschedule 1 s').setPoint .running 1).coros (j + 2) = _
    rw [setPoint, setState, modify_coros_of_ne (by omega), modify_coros_of_ne (by omega)]
  have hlocals : ∀ j, c ≤ j → j < m → j + 2 ∈ c₁.locals := by
    obtain ⟨c₁', hc₁', hl⟩ := hs.body
    rw [hc₁, Option.some.injEq] at hc₁'
    rwa [hc₁']
  -- the front of the window is counted, and given up
  have hstack₁ : s₁.stack = [(1, .one (.front 0 0 (c + batchSize) (List.range' (c + 2) batchSize)
      (.ok v)))] := by
    rw [← hs₁]
  have hop₁ : code w times (.one (.front 0 0 (c + batchSize) (List.range' (c + 2) batchSize)
      (.ok v))) = .step fun m => (m.countOp, .one (.pop 0 0 (c + batchSize)
        (List.range' (c + 2) batchSize))) := rfl
  have h₂ := exec_step 0 hstack₁ hop₁
  generalize hs₂ : ({ s₁ with
    mem := s₁.mem.countOp
    stack := [(1, .one (.pop 0 0 (c + batchSize) (List.range' (c + 2) batchSize)))] } : State) =
      s₂ at h₂
  have hcoros₂ : s₂.coros = s₁.coros := by rw [← hs₂]
  have hstack₂ : s₂.stack =
      [(1, .one (.pop 0 0 (c + batchSize) (List.range' (c + 2) batchSize)))] := by
    rw [← hs₂]
  have hop₂ : code w times (.one (.pop 0 0 (c + batchSize) (List.range' (c + 2) batchSize))) =
      .destroy (c + 2) (.one (.page 0 0 (c + batchSize) (List.range' (c + 3) 7))) := rfl
  have hholds₂ : s₂.holds 1 (c + 2) = true := by
    simp only [holds, hcoros₂, hone₁]
    exact decide_eq_true (hlocals c le_rfl hs.nonempty)
  have h₃ := exec_destroy 0 hstack₂ hop₂ hholds₂
  generalize hs₃ : (({ s₂ with stack := [(1, .one (.page 0 0 (c + batchSize)
    (List.range' (c + 3) 7)))] } : State).dropLocal 1 (c + 2)) = s₃ at h₃
  have hself₃ : s₃.coros (c + 2) = some cd := by
    rw [← hs₃, dropLocal, modify_coros_of_ne (by omega)]
    show s₂.coros (c + 2) = _
    rw [hcoros₂, hold₁, hcd]
  rw [destroy_of_locals_nil hself₃ hcdl] at h₃
  have hold : ∀ j, j ≠ c → (s₃.erase (c + 2)).coros (j + 2) = s.coros (j + 2) := by
    intro j hj
    show (if j + 2 = c + 2 then none else s₃.coros (j + 2)) = _
    rw [if_neg (by omega), ← he.others j hj, ← hold₁, ← hs₃, dropLocal,
      modify_coros_of_ne (by omega)]
    exact congrFun hcoros₂ _
  refine ⟨s₃.erase (c + 2), (((Relation.ReflTransGen.single (.round hround)).tail
    (.resume he.stack h₁)).tail (.exec 0 h₂)).tail (.exec 0 h₃), ⟨?_, ?_, ?_, ?_, ?_, ?_, ?_, ?_⟩,
    ?_, ?_, ?_⟩
  · rw [← hs₃, ← hs₂, ← hs₁]
    exact he.seq.trans hs.seq
  · rw [← hs₃, ← hs₂, ← hs₁]
    exact he.schedule.trans hs.schedule
  · rw [← hs₃, ← hs₂, ← hs₁, Nat.sub_self]
    rfl
  · refine ⟨{ c₁ with
      state := .kUnschedule, point := .running, locals := c₁.locals.filter (· ≠ c + 2) }, ?_, ?_⟩
    · show (if 1 = c + 2 then none else s₃.coros 1) = _
      rw [if_neg (by omega), ← hs₃, dropLocal, modify_coros_self]
      show (s₂.coros 1).map _ = _
      rw [hcoros₂, hone₁]
      rfl
    · intro j hcj hjm
      refine List.mem_filter.mpr ⟨hlocals j (by omega) hjm, ?_⟩
      exact decide_eq_true (by omega)
  · intro j hcj hjm
    rw [hold j (by omega)]
    exact hs.flying j (by omega) hjm
  · intro j hmj hjm
    omega
  · exact hs.nonempty
  · exact le_rfl
  · rw [← hs₃, ← hs₂, ← hs₁]
    exact hf
  · rw [← hs₃, show c + batchSize - (c + 1) = 7 by simp only [batchSize]; omega]
    rfl
  · rw [← hs₃, ← hs₂, ← hs₁]
    rfl

/-! ## The run -/

/-- The first round begins. -/
theorem entered (htimes : 0 < times) : ∃ s, Leads w times (boot true (.write 0) {} quiet) s ∧
    Ahead w 0 0 0 s ∧ Flying w 0 0 s.world ∧ s.stack = [(1, .one (.page 0 0 0 []))] ∧
    s.left = 0 := by
  obtain ⟨t, rfl⟩ := Nat.exists_eq_add_of_lt htimes
  have h : ∃ s, (boot true (.write 0) {} quiet : State).trace efaWorld (code w (0 + t + 1))
      Fabric.move [.round 0, .resume, .exec 0, .exec 0, .round 0, .resume] = some s ∧
      Ahead w 0 0 0 s ∧ Flying w 0 0 s.world ∧ s.stack = [(1, .one (.page 0 0 0 []))] ∧
      s.left = 0 :=
    ⟨_, rfl, ⟨rfl, rfl, rfl, ⟨_, rfl, fun k _ hk => absurd hk k.not_lt_zero⟩,
      fun k _ hk => absurd hk k.not_lt_zero, fun k _ hk => absurd hk k.not_lt_zero, le_rfl, le_rfl⟩,
      ⟨rfl, rfl, rfl, rfl, rfl, fun p hp => absurd hp List.not_mem_nil⟩, rfl, rfl⟩
  obtain ⟨s, htrace, hs⟩ := h
  exact ⟨s, reflTransGen_of_trace efaWorld_move htrace, hs⟩

/-- `Run` goes round once, and all that is in `ready_` is posted. -/
theorem Paused.settle (hs : Paused w c b m s) (hf : Flying w c b s.world)
    (hsize : w.pageSize ≠ 0) (hm : m ≤ w.total) (hleft : s.left = 0) :
    ∃ s', Leads w times s s' ∧ Paused w c m m s' ∧ Flying w c m s'.world ∧ s'.left = 0 := by
  have hround := hf.round hs.stack hleft hs.schedule
  have hs₁ : Paused w c b m { s with left := s.ready.length } :=
    ⟨⟨hs.seq, hs.schedule, hs.ready, hs.body, hs.flying, hs.queued, hs.lower, hs.upper⟩,
      hs.stack, hs.front, hs.next, hs.nonempty⟩
  obtain ⟨s₂, h₂, hrest⟩ := hs₁.posts times hsize hm (m - b) hf rfl
    (by show s.ready.length = _; rw [hs.ready, List.length_range'])
  exact ⟨s₂, (Relation.ReflTransGen.single (.round hround)).trans h₂, hrest⟩

/-- **Every window of the first region is reached**, with all its writes in flight. -/
theorem reaches (htimes : 0 < times) (hregions : w.peerRegions ≠ []) (hsize : w.pageSize ≠ 0)
    (hpages : 0 < w.numPages) (c : ℕ) (hc : c = 0 ∨ c + batchSize ≤ w.numPages) :
    ∃ s, Leads w times (boot true (.write 0) {} quiet) s ∧
      Paused w c (min (c + batchSize) w.total) (min (c + batchSize) w.total) s ∧
      Flying w c (min (c + batchSize) w.total) s.world ∧ s.left = 0 := by
  have hpos : 0 < w.peerRegions.length := List.length_pos_iff.mpr hregions
  have htotal : w.numPages ≤ w.total := Nat.le_mul_of_pos_left _ hpos
  induction c with
  | zero =>
    obtain ⟨s₁, h₁, ha, hf, hstack, hleft⟩ := entered (w := w) times htimes
    obtain ⟨s₂, h₂, hs, hleft₂, hworld⟩ := ha.fill times _ hstack (by simp) (Or.inl ⟨hpos, Nat.zero_le _⟩)
      (Nat.zero_le _) le_rfl (by omega) rfl
    obtain ⟨s₃, h₃, hrest⟩ := hs.settle times (hworld ▸ hf) hsize (min_le_right _ _)
      (hleft₂.trans hleft)
    exact ⟨s₃, (h₁.trans h₂).trans h₃, hrest⟩
  | succ c ih =>
    have hc : c + 1 + batchSize ≤ w.numPages := hc.resolve_left (by omega)
    have hbatch : batchSize = 8 := rfl
    obtain ⟨s, h, hs, hf, hleft⟩ := ih (Or.inr (by omega))
    rw [min_eq_left (by omega)] at hs hf
    obtain ⟨s₁, h₁, he, hf₁⟩ := hs.ended times hf hleft (by omega)
    obtain ⟨s₂, h₂, ha, hf₂, hstack, hleft₂⟩ := hs.shift times he hf₁ (by omega)
    obtain ⟨s₃, h₃, hs₃, hleft₃, hworld₃⟩ := ha.fill times _ hstack (by omega)
      (Or.inl ⟨hpos, by omega⟩) (by omega) (by omega) (by omega) rfl
    obtain ⟨s₄, h₄, hrest⟩ := hs₃.settle times (hworld₃ ▸ hf₂) hsize (min_le_right _ _)
      (hleft₃.trans hleft₂)
    exact ⟨s₄, (((h.trans h₁).trans h₂).trans h₃).trans h₄, hrest⟩

/-! ## The notification -/

/-- **A notification covers its region**: where the write with the immediate of a
region has been copied to the target, so has every page of the region in that
round. -/
def Covers (w : Writer) (times : ℕ) (f : Fabric) : Prop :=
  ∀ p ∈ f.history.placed, p.1.req.carriesImm = true →
    ∃ r g, r < times ∧ g < w.peerRegions.length ∧
      p.1 = w.posting (w.write r g (w.numPages - 1)) ∧
      ∀ i < w.numPages, ∃ p' ∈ f.history.placed, p'.1 = w.posting (w.write r g i)

/-- **It can come before the page before it.** -/
theorem overtaken (htimes : 0 < times) (hregions : w.peerRegions ≠ []) (hsize : w.pageSize ≠ 0)
    (hpages : 1 < w.numPages) :
    ∃ s, Leads w times (boot true (.write 0) {} quiet) s ∧ ¬ Covers w times s.world := by
  have hbatch : batchSize = 8 := rfl
  have hpos : 0 < w.peerRegions.length := List.length_pos_iff.mpr hregions
  have htotal : w.numPages ≤ w.total := Nat.le_mul_of_pos_left _ hpos
  obtain ⟨s, h, -, hf, -⟩ := reaches times htimes hregions hsize (by omega)
    (w.numPages - batchSize) (by omega)
  -- the last page of the first region is in flight, and not copied yet
  have hlast : w.issue (w.numPages - 1) = w.write 0 0 (w.numPages - 1) := by
    have := w.issue_eq_write (r := 0) hpos (by omega : w.numPages - 1 < w.numPages)
    simpa using this
  have hctx : (w.posting (w.issue (w.numPages - 1))).ctx = w.numPages + 1 := by
    have := issue_ctx (by omega : w.numPages - 1 < w.total)
    show (w.issue (w.numPages - 1)).ctx = _
    omega
  have hmem : w.posting (w.issue (w.numPages - 1)) ∈ s.world.inflight := by
    rw [hf.inflight]
    exact List.mem_map_of_mem (List.mem_range'_1.mpr ⟨by omega, by omega⟩)
  obtain ⟨p, hfind⟩ : ∃ p, s.world.inflight.find? (·.ctx = w.numPages + 1) = some p :=
    Option.isSome_iff_exists.mp (List.find?_isSome.mpr ⟨_, hmem, by simpa using hctx⟩)
  have hp : p = w.posting (w.write 0 0 (w.numPages - 1)) := by
    have hpctx : p.ctx = w.numPages + 1 := by simpa using List.find?_some hfind
    have hpmem := List.mem_of_find?_eq_some hfind
    rw [hf.inflight] at hpmem
    obtain ⟨k, -, rfl⟩ := List.mem_map.mp hpmem
    rw [← hlast, ctx_inj (hpctx.trans hctx.symm)]
  have hnot : ¬ s.world.Placed (w.numPages + 1) := by
    rintro ⟨p', hp', hpc⟩
    have := hf.placed p' hp'
    omega
  have hmove : s.world.move (.place (w.numPages + 1) []) = some (s.world.copy p []) := by
    simp only [Fabric.move, hfind, if_neg hnot]
  refine ⟨_, h.tail (.env ⟨_, hmove⟩), fun hcovers => ?_⟩
  -- nothing but the last page and pages before the window has been copied
  have hplaced : ∀ p' ∈ (s.world.copy p []).history.placed,
      p'.1.ctx < w.numPages ∨ p'.1.ctx = w.numPages + 1 := by
    intro p' hp'
    rw [hp] at hp'
    rcases List.mem_append.mp hp' with hp' | hp'
    · have := hf.placed p' hp'
      omega
    · rw [List.mem_singleton.mp hp', ← hlast]
      exact Or.inr hctx
  have hcopied : ∃ bs, (p, bs) ∈ (s.world.copy p []).history.placed := by
    rw [hp]
    exact ⟨_, List.mem_append_right _ (List.mem_singleton_self _)⟩
  obtain ⟨bs, hcopied⟩ := hcopied
  obtain ⟨r, g, -, -, heq, hall⟩ := hcovers _ hcopied (hp ▸ carriesImm_request.mpr rfl)
  obtain ⟨p', hp', hpe⟩ := hall (w.numPages - 2) (by omega)
  have h₁ : w.handle r (g * w.numPages + (w.numPages - 1)) = w.numPages + 1 := by
    rw [← hctx, hlast, ← hp]
    exact congrArg Posted.ctx heq.symm
  have h₂ : p'.1.ctx = w.handle r (g * w.numPages + (w.numPages - 2)) := congrArg Posted.ctx hpe
  have := hplaced p' hp'
  simp only [handle] at h₁ h₂
  omega

/-- **When the notification covers its region.** In every run of the pipelined
writer the notification of a region comes after all its pages, exactly if no
region has two pages, or nothing is posted at all: there is no round or no
region, or pages have no bytes. -/
theorem notification_covers_iff (w : Writer) (times : ℕ) :
    (∀ σ n, IsRun (Starts true (.write 0) {}) (Step efaWorld (code w times)) σ n →
      ∀ t ≤ n, Covers w times (σ t).world) ↔
    times = 0 ∨ w.peerRegions = [] ∨ w.pageSize = 0 ∨ w.numPages ≤ 1 := by
  constructor
  · intro hall
    by_contra hnot
    simp only [not_or] at hnot
    obtain ⟨htimes, hregions, hsize, hpages⟩ := hnot
    obtain ⟨s, h, hs⟩ := overtaken times (by omega) hregions hsize (by omega)
    obtain ⟨σ, n, hrun, rfl⟩ := exists_isRun_of_reflTransGen (starts_quiet _ _ _) h
    exact hs (hall σ n hrun n le_rfl)
  · intro h σ n hrun t ht p hp himm
    obtain ⟨ph, al⟩ := along_of_run (v := version w) hrun t ht
    obtain ⟨r, g, hr, hg, -, hpq⟩ := al.placed_last hp himm
    refine ⟨r, g, hr, hg, hpq, fun j hj => ?_⟩
    rcases h with rfl | hnil | hsize | hpages
    · omega
    · rw [hnil] at hg
      exact absurd hg (Nat.not_lt_zero _)
    · have hnone := requests_nil_of_run (v := version w) hrun hsize t ht
      have hposted := al.recorded.placed p hp
      rw [List.map_eq_nil_iff.mp hnone] at hposted
      cases hposted
    · exact ⟨p, hp, by rw [hpq, show j = w.numPages - 1 by omega]⟩

/-- Two pages are in flight together, and the second one is copied first. -/
def overtaking : ℕ → State :=
  states efaWorld (code twoPages 1) Fabric.move (boot true (.write 0) {} quiet)
    [.round 0, .resume, .exec 0, .exec 0, .round 0, .resume, .exec 0, .exec 0, .exec 0, .exec 0,
      .exec 0, .exec 0, .exec 0, .exec 0, .exec 0, .round 0, .resume, .resume, .env (.place 3 [])]

/-- The second page carries the immediate, and the first page is not there yet. -/
theorem second_page_first :
    IsRun (Starts true (.write 0) {}) (Step efaWorld (code twoPages 1)) overtaking 19 ∧
      (overtaking 19).world.history.placed =
        [(twoPages.posting (twoPages.write 0 0 1), [0, 0, 0, 0])] ∧
      ¬ Covers twoPages 1 (overtaking 19).world := by
  have hplaced : (overtaking 19).world.history.placed =
      [(twoPages.posting (twoPages.write 0 0 1), [0, 0, 0, 0])] := by decide +kernel
  refine ⟨isRun_states efaWorld_move (starts_quiet _ _ _) (by decide +kernel), hplaced, fun h => ?_⟩
  rw [Covers, hplaced] at h
  obtain ⟨r, g, hr, hg, -, hall⟩ := h _ List.mem_cons_self rfl
  obtain rfl : r = 0 := by omega
  obtain rfl : g = 0 := Nat.lt_one_iff.mp hg
  obtain ⟨p', hp', hpe⟩ := hall 0 (by decide)
  rw [List.mem_singleton.mp hp'] at hpe
  exact absurd hpe (by decide)

end Batch

end EfaExamples
