import EfaExamples.Peer.Running
/-!
# The window and the counters

What `ops` and `sent` say about the pipelined `WriteOne`: their difference is
the number of its `Future`s whose `co_await` has not returned, `ops` counts
only completed writes, and the fabric never owes more than the window holds.
-/

namespace EfaExamples

open Loop Writer

namespace Batch

variable {w : Writer} {times : ℕ} {ph ph' : Phase Loc}
variable {s s' : Loop (Writer.Loc Loc) Counters ConnOp Fabric Val}

/-- The `Future`s whose `co_await` has not returned, at a location. -/
def Loc.pending : Loc → List ℕ
  | page _ _ _ futs | made _ _ _ futs _ => futs
  | front _ _ _ futs _ | pop _ _ _ futs => futs.tail
  | queued _ _ _ futs d => futs ++ [d]
  | drain _ futs | drained _ futs _ => futs

/-- `WriteOne` is suspended in the `co_await` of `d`, and goes on at `l`. -/
def Suspended (s : Loop (Writer.Loc Loc) Counters ConnOp Fabric Val) (d : ℕ)
    (l : Outcome Val → Loc) : Prop :=
  ∃ h c, s.coros h = some c ∧ c.point = .await d fun o => .one (l o)

/-! ## What holds at every location -/

section Here

variable {l : Loc} {x : Window}

theorem Here.size (hh : Here w l x) : x.made ≤ x.popped + batchSize := by
  cases l with
  | page r g i futs => exact hh.2.1.size
  | front r g i futs o => exact hh.2.1.size
  | pop r g i futs => exact hh.2.2.2.2.1
  | made r g i futs d => exact hh.2.1.size
  | queued r g i futs d => exact hh.2.2.2.2.2.1
  | drain r futs => exact hh.2.2.2.2.2.1
  | drained r futs o => exact hh.2.2.2.2.2.1

/-- The pending ones are those made and not awaited. -/
theorem Here.pending (hh : Here w l x) : l.pending.length = x.made - x.awaited := by
  have hlen : (x.futs w).length = x.made + x.fresh.toNat - x.popped := by simp [Window.futs]
  cases l with
  | page r g i futs =>
    obtain ⟨-, -, hfresh, ha, -, rfl⟩ := hh
    simp [Loc.pending, hlen, hfresh, ha]
  | front r g i futs o =>
    obtain ⟨-, -, hfresh, ha, -, rfl⟩ := hh
    simp only [Loc.pending, List.length_tail, hlen, hfresh, Bool.toNat_false]
    omega
  | pop r g i futs =>
    obtain ⟨-, -, -, -, -, hfresh, ha, -, rfl⟩ := hh
    simp only [Loc.pending, List.length_tail, hlen, hfresh, Bool.toNat_false]
    omega
  | made r g i futs d =>
    obtain ⟨-, -, -, -, -, hfresh, ha, -, -, hfuts⟩ := hh
    rw [← hfuts, hfresh] at hlen
    simp only [List.length_append, List.length_singleton, Bool.toNat_true] at hlen
    simp only [Loc.pending]
    omega
  | queued r g i futs d =>
    obtain ⟨-, -, -, -, -, -, hfresh, ha, -, -, hfuts⟩ := hh
    simp [Loc.pending, hfuts, hlen, hfresh, ha]
  | drain r futs | drained r futs o =>
    obtain ⟨-, -, -, -, -, -, -, -, rfl⟩ := hh
    simp [Loc.pending]

/-- `ops` counts no more than has returned. -/
theorem Here.ops_le (hx : x.Ok w) (hh : Here w l x) : x.ops ≤ x.done w := by
  have hp := hx.popped
  cases l with
  | page r g i futs =>
    obtain ⟨-, hc, -, ha, hfail, -⟩ := hh
    simp only [Window.done, hfail, hc.ops, Option.isSome_none, Bool.toNat_false]
    omega
  | front r g i futs o =>
    obtain ⟨-, hc, -, ha, -, -⟩ := hh
    simp only [Window.done, hc.ops]
    cases x.failed <;> simp <;> omega
  | pop r g i futs =>
    obtain ⟨-, hops, -, -, -, -, ha, hfail, -⟩ := hh
    simp only [Window.done, hfail, hops, Option.isSome_none, Bool.toNat_false]
    omega
  | made r g i futs d =>
    obtain ⟨-, hc, -, -, -, -, ha, hfail, -⟩ := hh
    simp only [Window.done, hfail, hc.ops, Option.isSome_none, Bool.toNat_false]
    omega
  | queued r g i futs d =>
    obtain ⟨-, hops, -, -, -, -, -, ha, hfail, -⟩ := hh
    simp only [Window.done, hfail, hops, Option.isSome_none, Bool.toNat_false]
    omega
  | drain r futs =>
    obtain ⟨-, -, hops, -, -, -, -, hfail, -⟩ := hh
    simp [Window.done, hfail, hops]
  | drained r futs o =>
    obtain ⟨-, -, hops, -, -, -, -, -, -⟩ := hh
    simp only [Window.done]
    cases x.failed <;> simp <;> omega

/-- Nor more than is noted. -/
theorem Here.ops_le_noted (hx : x.Ok w) (hh : Here w l x) : x.ops ≤ x.noted := by
  have hp := hx.popped
  have ha := hx.awaited
  cases l with
  | page r g i futs | front r g i futs o | made r g i futs d =>
    have hops := hh.2.1.ops
    have hnoted := hh.2.1.noted
    omega
  | pop r g i futs =>
    obtain ⟨-, hops, -, hnoted, -, -, hap, -⟩ := hh
    omega
  | queued r g i futs d =>
    obtain ⟨-, hops, -, hnoted, -, -, hfresh, -, -, -, hfuts⟩ := hh
    have hlen : (futs ++ [d]).length = x.made - x.popped := by simp [hfuts, Window.futs, hfresh]
    rw [List.length_append, List.length_singleton] at hlen
    omega
  | drain r futs | drained r futs o =>
    obtain ⟨-, -, hops, -, hnoted, -⟩ := hh
    omega

/-- After an exception the counters are those of before the `co_await`. -/
theorem Here.of_failed (hh : Here w l x) (hf : x.failed ≠ none) :
    x.ops + 1 = x.round * w.total + x.awaited ∧ x.sent = x.round * w.total + x.made ∧
      x.noted = x.round * w.total + x.made := by
  cases l with
  | front r g i futs o =>
    obtain ⟨-, hc, -, ha, -, -⟩ := hh
    exact ⟨by rw [hc.ops, ha, Nat.add_assoc], hc.sent, hc.noted⟩
  | drained r futs o => exact ⟨hh.2.2.1, hh.2.2.2.1, hh.2.2.2.2.1⟩
  | page r g i futs => exact absurd hh.2.2.2.2.1 hf
  | pop r g i futs => exact absurd hh.2.2.2.2.2.2.2.1 hf
  | made r g i futs d => exact absurd hh.2.2.2.2.2.2.2.1 hf
  | queued r g i futs d => exact absurd hh.2.2.2.2.2.2.2.2.1 hf
  | drain r futs => exact absurd hh.2.2.2.2.2.2.2.1 hf

end Here

/-! ## What holds in every phase -/

/-- In its `co_await`, the pending `Future`s are the difference of the counters. -/
theorem waiting_counts {x : Window} {k : Outcome Val → Loc} (hok : (Phase.waiting x k).Ok w (Here w))
    (o : Outcome Val) : x.sent = x.ops + ((k o).pending.length + 1) ∧
      (k o).pending.length + 1 ≤ batchSize := by
  obtain ⟨hx, -, -, hlt, hh⟩ := hok
  have hp := hx.popped
  obtain ⟨hops, hsent, -⟩ := (hh (.error (.runtimeError ""))).of_failed
    (by simp [Window.got, Window.failure])
  have hsize := (hh o).size
  have hpend := (hh o).pending
  simp only [Window.got] at hops hsent hsize hpend
  omega

theorem inside_made_le (hok : ph.Ok w (Here w)) (hin : ph.Inside) :
    (ph.window w).made ≤ (ph.window w).awaited + batchSize := by
  cases ph with
  | running x l =>
    have := hok.2.size
    have := hok.1.popped
    simp only [Phase.window]
    omega
  | waiting x k =>
    have hsize := (hok.2.2.2.2 (.ok none)).size
    have := hok.1.popped
    simp only [Window.got] at hsize
    simp only [Phase.window]
    omega
  | start | test r | made r | entered r | finished x o | back x o | ended x o seq => exact hin.elim

/-- `ops` counts no more than has returned, and no more than is noted. -/
structure Counted (w : Writer) (ph : Phase Loc) : Prop where
  done : (ph.window w).ops ≤ (ph.window w).done w
  noted : (ph.window w).ops ≤ (ph.window w).noted

/-- **A move keeps it.** -/
theorem Counted.step {res : ℕ → Outcome Val → Prop} (hc : Counted w ph)
    (hm : Phase.Move w (version w).entry (version w).one times res ph ph')
    (hok' : ph'.Ok w (Here w)) : Counted w ph' := by
  have henter : ∀ {r : ℕ} {ph : Phase Loc}, ph.window w = .enter w r → Counted w ph := by
    intro r ph hw
    constructor <;> simp [hw, Window.enter, Window.done]
  cases hm with
  | still => exact hc
  | start | call _ | stop _ | await | next => exact henter rfl
  | enter | step _ | make | launch _ | got _ _ _ | wake _ _ _ | pop _ =>
    exact ⟨hok'.2.ops_le hok'.1, hok'.2.ops_le_noted hok'.1⟩
  | suspend | launchSuspend _ =>
    obtain ⟨hx, -, hfail, hlt, hh⟩ := hok'
    obtain ⟨hops, -, hnoted⟩ := (hh (.error (.runtimeError ""))).of_failed
      (by simp [Window.got, Window.failure])
    simp only [Window.got] at hops hnoted
    constructor
    · simp only [Phase.window, Window.done, hfail, Option.isSome_none, Bool.toNat_false]
      omega
    · simp only [Phase.window]
      omega
  | finish _ | back | rethrow => exact ⟨hc.done, hc.noted⟩

/-- A step after an exception posts nothing. -/
theorem posted_of_failing (al : Along (version w) times ph s)
    (hs : Step efaWorld (code w times) s s')
    (hm : Phase.Move w (version w).entry (version w).one times s.DoneWith ph ph')
    (hf : ph'.Failing) : s'.world.history.posted = s.world.history.posted := by
  refine hs.posted_cases.resolve_right fun ⟨h, a, req, hp⟩ => ?_
  have hin := (al.states.of_posts hp).1
  have hempty : (ph.outline w (version w).entry).stack = [] :=
    al.states.outlined.stack.symm.trans hp.stack
  cases ph with
  | running x l => cases hempty
  | waiting x k => cases hm <;> exact hf.elim
  | start | test r | made r | entered r | finished x o | back x o | ended x o seq => exact hin.elim

/-- **What holds along a run of the pipeline.** -/
theorem counted_of_run {σ : ℕ → Loop (Writer.Loc Loc) Counters ConnOp Fabric Val} {n : ℕ}
    (hrun : IsRun (Starts true (.write 0) {}) (Step efaWorld (code w times)) σ n) :
    ∀ t ≤ n, ∃ ph, Along (version w) times ph (σ t) ∧ Counted w ph ∧
      (σ t).world.outstanding.length ≤ batchSize := by
  refine along_invariant (v := version w)
    (fun ph s => Counted w ph ∧ s.world.outstanding.length ≤ batchSize) hrun (fun f hf hh => ?_)
    fun ph ph' s s' ⟨hc, hlen⟩ al hs hm al' => ⟨hc.step hm al'.states.ok, ?_⟩
  · obtain ⟨al, so⟩ : Along (version w) times .start _ ∧ Sound _ _ := Along.start hf hh
    exact ⟨⟨by simp [Phase.window, Window.enter], by simp [Phase.window, Window.enter]⟩,
      al.states.outstanding_le so (inside_made_le al.states.ok)⟩
  · rcases al'.states.sound with so | hf
    · exact al'.states.outstanding_le so (inside_made_le al'.states.ok)
    · exact (hs.fabricStep.outstanding_length (posted_of_failing al hs hm hf)).trans hlen

/-! ## The states of a run -/

/-- The counters of a state are those of its phase's window. -/
theorem mem_eq (al : Along (version w) times ph s) :
    s.mem = w.counters (ph.window w).ops (ph.window w).sent (ph.window w).noted :=
  al.states.outlined.mem.trans Phase.outline_mem

/-- **At a suspension of `WriteOne`.** -/
theorem suspended_counts (al : Along (version w) times ph s) (htotal : times * w.total < 2 ^ 64)
    {d : ℕ} {l : Outcome Val → Loc} (hsus : Suspended s d l) (o : Outcome Val) :
    s.mem.sent = s.mem.ops + (d :: (l o).pending).length ∧
      (d :: (l o).pending).length ≤ batchSize := by
  obtain ⟨h, c, hc, hp⟩ := hsus
  obtain ⟨r, hr, hfit⟩ := al.states.outlined.fits hc
  obtain ⟨ls, rfl⟩ := hfit.eq_body hp rfl rfl
  -- the root's `co_await` goes on outside of `WriteOne`
  have hroot : ∀ {r' d' : ℕ}, (Point.await d fun o => Writer.Loc.one (l o) : Point _ ConnOp Val) =
      .await d' (.resumed r' d') → False := by
    intro r' d' he
    have := congrFun (Point.await.inj he).2 (.ok none)
    cases this
  cases ph with
  | waiting x k =>
    have hpt : (Point.await d fun o => Writer.Loc.one (l o) : Point _ ConnOp Val) =
        .await (w.handle x.round x.awaited) fun o => .one (k o) := by
      obtain ⟨-, hb⟩ | ⟨-, hb⟩ | ⟨j, -, -, ⟨-, hb⟩ | ⟨-, -, hb⟩ | ⟨-, -, hb⟩⟩ :=
        Window.role_cases hr
      · exact (hroot (Role.body.inj hb).1).elim
      · exact (Role.body.inj hb).1
      all_goals cases hb
    have hl : l o = k o := Writer.Loc.one.inj (congrFun (Point.await.inj hpt).2 o)
    obtain ⟨hsent, hsize⟩ := waiting_counts al.states.ok o
    have hgiven : x.sent ≤ times * w.total := by
      obtain ⟨-, hs, -⟩ := (al.states.ok.2.2.2.2 (.error (.runtimeError ""))).of_failed
        (by simp [Window.got, Window.failure])
      exact hs.le.trans al.within.given_le
    rw [mem_eq al, hl, List.length_cons]
    simp only [counters, Phase.window]
    rw [Nat.mod_eq_of_lt (by omega), Nat.mod_eq_of_lt (by omega)]
    exact ⟨hsent, hsize⟩
  | running x l' =>
    obtain ⟨-, hb⟩ | ⟨-, hb⟩ | ⟨j, -, -, ⟨-, hb⟩ | ⟨-, -, hb⟩ | ⟨-, -, hb⟩⟩ := Window.role_cases hr
    · exact (hroot (Role.body.inj hb).1).elim
    all_goals cases hb
  | entered r | finished x o' =>
    simp only [Phase.outline] at hr
    split at hr
    · exact (hroot (Role.body.inj (Option.some.inj hr)).1.symm).elim
    · split at hr <;> cases hr
  | start | test r | ended x o' seq =>
    simp only [Phase.outline] at hr
    split at hr <;> cases hr
  | made r | back x o' =>
    simp only [Phase.outline] at hr
    split at hr
    · cases hr
    · split at hr <;> cases hr

/-- **At any other suspension**, unless something has ended by an exception. -/
theorem idle_counts (al : Along (version w) times ph s) (hstack : s.stack = [])
    (hsus : ∀ d l, ¬ Suspended s d l)
    (hclean : ∀ h c, s.coros h = some c → c.point.isFinal = true → ∃ v, c.get = .ok v) :
    s.mem.sent = s.mem.ops := by
  have hempty := al.states.outlined.stack.symm.trans hstack
  have hfine : ∀ {h : ℕ} {e : Exn Val},
      (ph.outline w (version w).entry).role h = some (.done (.error e)) → False := by
    intro h e hr
    obtain ⟨c, hc, hp, hget, -⟩ := al.states.outlined.role h _ hr
    obtain ⟨v, hv⟩ := hclean h c hc (by rw [hp]; rfl)
    rw [hv] at hget
    cases hget
  have hsame : (ph.window w).sent = (ph.window w).ops → s.mem.sent = s.mem.ops := by
    intro he
    rw [mem_eq al]
    simp only [counters, he]
  have hpos := w.oneHandle_pos
  cases ph with
  | test r | made r | running x l | back x o => cases hempty
  | start | entered r => exact hsame rfl
  | waiting x k =>
    obtain ⟨c, hc, hp, -⟩ := al.states.outlined.role _ _ Window.role_one
    exact (hsus _ _ ⟨_, c, hc, hp⟩).elim
  | finished x o =>
    cases o with
    | ok v =>
      obtain ⟨-, -, -, -, -, -, hops, hsent⟩ := al.states.ok
      exact hsame (hsent.trans hops.symm)
    | error e => exact (hfine (h := w.oneHandle x.round) (e := e) (by simp [Phase.outline, (hpos _).ne'])).elim
  | ended x o seq =>
    cases o with
    | ok v =>
      refine hsame ?_
      rw [Phase.window, show x = _ from al.within]
      rfl
    | error e => exact (hfine (h := 0) (e := e) (by simp [Phase.outline])).elim

/-- **When `Write` has returned.** -/
theorem returned_counts (al : Along (version w) times ph s) (htotal : times * w.total < 2 ^ 64)
    {c : Coro (Writer.Loc Loc) ConnOp Val} {val : Option Val} (hc : s.coros 0 = some c)
    (hp : c.point.isFinal = true) (hget : c.get = .ok val) :
    s.mem.ops = times * w.total ∧ s.mem.sent = times * w.total ∧ s.world.outstanding = [] := by
  obtain ⟨r, hr, hfit⟩ := al.states.outlined.fits hc
  rcases Phase.role_zero hr with ⟨p, ls, rfl⟩ | ⟨x, o, seq, rfl, rfl⟩
  · rw [hfit.1, hfit.2.2.1] at hp
    cases hp
  · rw [hfit.2.1] at hget
    subst hget
    have hx : x = .enter w times := al.within
    have hso := al.states.sound.resolve_right id
    have hlen := al.states.outstanding_le (m := 0) hso False.elim
    rw [mem_eq al]
    simp only [Phase.window, hx, Window.enter, counters]
    rw [Nat.mod_eq_of_lt htotal]
    exact ⟨rfl, rfl, List.eq_nil_of_length_eq_zero (by omega)⟩

/-- `ops` counts writes that are completed. -/
theorem completed_of_mem_take (al : Along (version w) times ph s) (hc : Counted w ph)
    {e : Issued} (he : e ∈ s.mem.issued.take s.mem.ops) : s.world.Completed e.ctx := by
  rw [mem_eq al] at he
  obtain ⟨q, hq, rfl⟩ := List.mem_take_iff_getElem.mp he
  simp only [counters, List.length_map, List.length_range, List.getElem_map, List.getElem_range]
    at hq ⊢
  refine al.states.done q ?_
  have := Nat.mod_le (ph.window w).ops (2 ^ 64)
  have := hc.done
  omega

/-- **The window and the counters.** Along every run of the pipelined writer, with
fewer than 2^64 writes to be made: while `WriteOne` is suspended, `sent` is ahead
of `ops` by the number of its `Future`s whose `co_await` has not returned, which
is at most 8; between two `WriteOne`s they are equal, unless one has ended by an
exception; `ops` counts only writes that are completed; at most 8 writes are
posted and not completed; and when `Write` has returned, `ops` and `sent` are
the number of all writes, which is `total_ops`, and none is outstanding. -/
theorem window_invariant {σ : ℕ → Loop (Writer.Loc Loc) Counters ConnOp Fabric Val} {n : ℕ}
    (hrun : IsRun (Starts true (.write 0) {}) (Step efaWorld (code w times)) σ n)
    (htotal : times * (w.peerRegions.length * w.numPages) < 2 ^ 64) :
    ∀ t ≤ n,
      (∀ d l, Suspended (σ t) d l → ∀ o,
        (σ t).mem.sent = (σ t).mem.ops + (d :: (l o).pending).length ∧
          (d :: (l o).pending).length ≤ batchSize) ∧
      ((σ t).stack = [] → (∀ d l, ¬ Suspended (σ t) d l) →
        (∀ h c, (σ t).coros h = some c → c.point.isFinal = true → ∃ v, c.get = .ok v) →
        (σ t).mem.sent = (σ t).mem.ops) ∧
      (σ t).mem.ops ≤ (σ t).mem.issued.length ∧
      (∀ e ∈ (σ t).mem.issued.take (σ t).mem.ops, (σ t).world.Completed e.ctx) ∧
      (σ t).world.outstanding.length ≤ batchSize ∧
      ∀ c v, (σ t).coros 0 = some c → c.point.isFinal = true → c.get = .ok v →
        (σ t).mem.ops = w.totalOps times ∧ (σ t).mem.sent = w.totalOps times ∧
          w.totalOps times = times * (w.peerRegions.length * w.numPages) ∧
          (σ t).world.outstanding = [] := by
  intro t ht
  obtain ⟨ph, al, hc, hlen⟩ := counted_of_run hrun t ht
  have hops : w.totalOps times = times * w.total := by
    rw [totalOps, Nat.mod_mul_mod, Nat.mul_assoc]
    exact Nat.mod_eq_of_lt htotal
  refine ⟨fun d l hsus o => suspended_counts al htotal hsus o, idle_counts al, ?_,
    fun e he => completed_of_mem_take al hc he, hlen, fun c v hroot hp hget => ?_⟩
  · rw [mem_eq al]
    simp only [counters, List.length_map, List.length_range]
    exact (Nat.mod_le _ _).trans hc.noted
  · obtain ⟨h₁, h₂, h₃⟩ := returned_counts al htotal hroot hp hget
    exact ⟨h₁.trans hops.symm, h₂.trans hops.symm, hops, h₃⟩

/-- A round of two pages, on a fabric that completes them in the order they were
posted in. -/
def pages : ℕ → Loop (Writer.Loc Loc) Counters ConnOp Fabric Val :=
  states efaWorld (code twoPages 1) Fabric.move (boot true (.write 0) {} quiet)
    [.round 0, .resume, .exec 0, .exec 0, .round 0, .resume, .exec 0, .exec 0, .exec 0, .exec 0,
      .exec 0, .exec 0, .exec 0, .exec 0, .exec 0, .round 0, .resume, .resume, .env (.place 2 []),
      .env (.complete 0 2 4), .env (.place 3 []), .env (.complete 0 3 4), .round 0, .resume,
      .resume, .round 0, .resume, .exec 0, .exec 0, .exec 0, .exec 0, .round 0, .resume, .exec 0,
      .exec 0]

theorem pages_isRun :
    IsRun (Starts true (.write 0) {}) (Step efaWorld (code twoPages 1)) pages 35 :=
  isRun_states efaWorld_move (starts_quiet _ _ _) (by decide +kernel)

/-- While the first page is awaited there are two pending, and at the end both
are counted. -/
theorem window_invariant_pages :
    (pages 15).mem.sent = (pages 15).mem.ops + 2 ∧ (pages 35).mem.ops = 2 ∧
      (pages 35).world.outstanding = [] := by
  have hinv := window_invariant pages_isRun (by decide)
  have hsus : Suspended (pages 15) 2 fun o => .drained 0 [3] o :=
    ⟨1, ((pages 15).coros 1).get (by decide +kernel), by simp, rfl⟩
  have hend := (hinv 35 (by decide)).2.2.2.2.2 (((pages 35).coros 0).get (by decide +kernel)) none
    (by simp) (by decide +kernel) (by decide +kernel)
  exact ⟨((hinv 15 (by decide)).1 2 _ hsus (.ok none)).1, hend.1.trans (by decide), hend.2.2.2⟩

end Batch

end EfaExamples
