import Mathlib.Data.Finset.Option
import EfaExamples.Coro.Outline
import EfaExamples.Efa.Ledger
import EfaExamples.Efa.Resumption
import EfaExamples.Peer.Model.Reader
/-!
# The notifications of the reader

`Reader::Read` makes one `Read` after another, and only while the current one
is suspended is anything registered for `kImmData`. `HandleCompletion` drops
a notification that finds nothing registered, and gives two of one batch to
the same `Read`. `Phase` is where the body is, `Phase.step` follows it, and
`round_pending` says what a `Select` makes of its notifications; from these
comes `notifications_kept_iff`, the condition under which none is lost.
-/

namespace EfaExamples

open Loop

namespace Reader

variable {conn : Conn} {times : ℕ}

/-- Where `Reader::Read` is. The `i`-th `Read` it makes has handle `i + 1`. -/
inductive Phase
  /-- not begun -/
  | start
  /-- at the test of the loop -/
  | test (i : ℕ)
  /-- with the `i`-th `Read` made -/
  | made (i : ℕ)
  /-- in its `co_await` -/
  | waiting (i : ℕ)
  /-- after it -/
  | back (i : ℕ) (o : Outcome Val)
  /-- ended with outcome `o`, with `n` handles given out -/
  | ended (n : ℕ) (o : Outcome Val)

variable (conn) in
/-- The outline of a phase. -/
def Phase.outline : Phase → Outline Loc Unit ConnOp Val
  | start =>
    { role := fun h => if h = 0 then some (.body (.initial (.read 0)) []) else none
      stack := [], seq := 1, mem := () }
  | test i =>
    { role := fun h => if h = 0 then some (.body .running []) else none
      stack := [(0, .read i)], seq := i + 1, mem := () }
  | made i =>
    { role := fun h =>
        if h = 0 then some (.body .running [i + 1])
        else if h = i + 1 then some (.fresh (.read conn kImmData)) else none
      stack := [(0, .called i (i + 1))], seq := i + 2, mem := () }
  | waiting i =>
    { role := fun h =>
        if h = 0 then some (.body (.await (i + 1) (.resumed i (i + 1))) [i + 1])
        else if h = i + 1 then some (.leaf (.read conn kImmData)) else none
      stack := [], seq := i + 2, mem := () }
  | back i o =>
    { role := fun h =>
        if h = 0 then some (.body .running [i + 1])
        else if h = i + 1 then some .ended else none
      stack := [(0, .resumed i (i + 1) o)], seq := i + 2, mem := () }
  | ended n o =>
    { role := fun h => if h = 0 then some (.done o) else none
      stack := [], seq := n, mem := () }

/-- **Every step of the program leads from phase to phase**, and drops only a
`Read` that is done. -/
theorem Phase.step {ph : Phase} {res : ℕ → Outcome Val → Prop} {O' : Outline Loc Unit ConnOp Val}
    (hs : Outline.Step (code conn times) res (ph.outline conn) O') :
    (∃ ph' : Phase, O' = ph'.outline conn) ∧
      ∀ h r, (ph.outline conn).role h = some r → O'.role h = none → r = .ended := by
  have hsame : ∀ O' : Outline Loc Unit ConnOp Val, O' = ph.outline conn →
      (∃ ph' : Phase, O' = ph'.outline conn) ∧
        ∀ h r, (ph.outline conn).role h = some r → O'.role h = none → r = .ended := by
    rintro _ rfl
    exact ⟨⟨ph, rfl⟩, fun h r hr hn => by rw [hr] at hn; cases hn⟩
  cases ph with
  | start =>
    cases hs with
    | still he => exact hsame _ he
    | exec me l rest hstack _ => cases hstack
    | begin h a _ hr _ | wake h d k ls o r _ hr _ _ _ he =>
      simp only [outline] at hr
      split at hr <;> cases hr
    | start h l ls _ hr he =>
      simp only [outline] at hr
      split at hr <;> cases hr
      rename_i hh
      subst hh
      have hO : O' = (test 0).outline conn := by
        refine he.trans (Outline.ext (funext fun h => ?_) rfl rfl rfl)
        simp only [outline, Outline.map]
        grind
      exact ⟨⟨test 0, hO⟩, fun h r hr hn => by simp only [hO, outline] at hr hn; grind⟩
  | test i =>
    rcases hs.of_stack rfl with he | he
    · exact hsame _ he
    · simp only [code] at he
      split at he
      · have hO : O' = (made i).outline conn := by
          refine he.trans (Outline.ext (funext fun h => ?_) rfl rfl rfl)
          simp only [outline, Outline.spawn]
          grind
        exact ⟨⟨made i, hO⟩, fun h r hr hn => by simp only [hO, outline] at hr hn; grind⟩
      · have hO : O' = (ended (i + 1) (.ok none)).outline conn := by
          refine he.trans (Outline.ext (funext fun h => ?_) rfl rfl rfl)
          simp only [outline, Outline.drop, Outline.map, Outline.locals]
          grind
        exact ⟨⟨ended (i + 1) (.ok none), hO⟩, fun h r hr hn => by simp only [hO, outline] at hr hn; grind⟩
  | made i =>
    rcases hs.of_stack rfl with he | he
    · exact hsame _ he
    · simp only [code] at he
      rcases he with ⟨o, r, -, hr, hend, -⟩ | he
      · simp [outline] at hr
        subst hr
        cases hend
      · have hO : O' = (waiting i).outline conn := by
          refine he.trans (Outline.ext (funext fun h => ?_) rfl rfl rfl)
          simp only [outline, Outline.map]
          grind
        exact ⟨⟨waiting i, hO⟩, fun h r hr hn => by simp only [hO, outline] at hr hn; grind⟩
  | waiting i =>
    cases hs with
    | still he => exact hsame _ he
    | exec me l rest hstack _ => cases hstack
    | begin h a _ hr _ | start h l ls _ hr _ =>
      simp only [outline] at hr
      split at hr
      · cases hr
      · split at hr <;> cases hr
    | wake h d k ls o r _ hr _ _ _ he =>
      simp only [outline] at hr
      split at hr
      · rename_i hh
        subst hh
        cases hr
        have hO : O' = (back i o).outline conn := by
          refine he.trans (Outline.ext (funext fun h => ?_) rfl rfl rfl)
          simp only [outline, Outline.map]
          grind
        exact ⟨⟨back i o, hO⟩, fun h r hr hn => by simp only [hO, outline] at hr hn; grind⟩
      · split at hr <;> cases hr
  | back i o =>
    rcases hs.of_stack rfl with he | he
    · exact hsame _ he
    · cases o with
      | ok v =>
        simp only [code] at he
        have hO : O' = (test (i + 1)).outline conn := by
          refine he.trans (Outline.ext (funext fun h => ?_) rfl rfl rfl)
          simp only [outline, Outline.map, Outline.drop]
          grind
        exact ⟨⟨test (i + 1), hO⟩, fun h r hr hn => by simp only [hO, outline] at hr hn; grind⟩
      | error e =>
        simp only [code] at he
        have hO : O' = (ended (i + 2) (.error e)).outline conn := by
          refine he.trans (Outline.ext (funext fun h => ?_) rfl rfl rfl)
          simp only [outline, Outline.map, Outline.drop, Outline.locals]
          grind
        exact ⟨⟨ended (i + 2) (.error e), hO⟩, fun h r hr hn => by simp only [hO, outline] at hr hn; grind⟩
  | ended n o =>
    cases hs with
    | still he => exact hsame _ he
    | exec me l rest hstack _ => cases hstack
    | begin h a _ hr _ | start h l ls _ hr _ | wake h d k ls o' r _ hr _ _ _ he =>
      simp only [outline] at hr
      split at hr <;> cases hr

/-! ## The reader's states -/

/-- Whoever executes in a phase is a body that owns nothing but its `Read`. -/
theorem Phase.flat (ph : Phase) : (ph.outline conn).Flat := by
  intro h hh
  cases ph with
  | test i | made i | back i o =>
    simp only [outline, List.map_cons, List.map_nil, List.mem_singleton] at hh
    subst hh
    simp only [outline]
    grind
  | start | waiting i | ended n o => simp [outline] at hh

/-- The state is one of `Reader::Read`'s. -/
structure States (conn : Conn) (s : Loop Loc Unit ConnOp Fabric Val) : Prop where
  table : Table none s
  contexts : Contexts s
  outlined : ∃ ph : Phase, Outlined (ph.outline conn) s

namespace States

variable {s s' : Loop Loc Unit ConnOp Fabric Val} {h : ℕ} {a : ConnOp} {st : HandleState}

/-- The only operation is a `Read`, of the last handle given out. -/
theorem op_eq (ss : States conn s) (ha : s.op h = some (a, st)) :
    a = .read conn kImmData ∧ h + 1 = s.seq := by
  obtain ⟨ph, ho⟩ := ss.outlined
  obtain ⟨c, hc, hp, -⟩ := op_eq_some.mp ha
  obtain ⟨r, hr, hfit⟩ := ho.fits hc
  rw [ho.seq]
  cases ph <;> simp only [Phase.outline] at hr ⊢ <;> grind [Role.Fits, Point.isLeaf]

/-- The loop as `Run` starts it. -/
theorem boot {f : Fabric} (hf : f.Idle) :
    States conn (Loop.boot true (.read 0) () f : Loop Loc Unit ConnOp Fabric Val) where
  table := Table.boot true _ () f
  contexts := Contexts.boot true _ () hf
  outlined := ⟨.start, Outlined.boot true _ () f⟩

/-- The coroutine about to be awaited is not executing. -/
theorem awaiting_not_running (ss : States conn s) :
    ∀ p ∈ s.awaiting (code conn times), p.2 ∉ s.running := by
  rintro ⟨me, d⟩ hp
  obtain ⟨l, rest, k, hstack, hop⟩ := exists_of_awaiting hp
  simp only at hstack hop
  obtain ⟨ph, ho⟩ := ss.outlined
  have hph := ho.stack
  rw [hstack] at hph
  cases ph with
  | made i =>
    cases hph
    cases hop
    simp [running, hstack]
  | test i =>
    cases hph
    simp only [code] at hop
    split at hop <;> cases hop
  | back i o =>
    cases hph
    cases o <;> cases hop
  | start | waiting i | ended n o => cases hph

/-- One step leads from state to state, if its `Select` may go with the contexts. -/
theorem step (ss : States conn s) (hs : Step efaWorld (code conn times) s s')
    (hbatch : RoundStep efaWorld s s' → Distinct s.world) :
    States conn s' ∧ EfaStepOk (code conn times) s s' := by
  obtain ⟨ph, ho⟩ := ss.outlined
  obtain ⟨O', ho', hstep⟩ := ho.step_of_table ph.flat ss.table hs
  obtain ⟨⟨ph', rfl⟩, hdrop⟩ := Phase.step hstep
  have hgone : ∀ h c, s.coros h = some c → s'.coros h = none → c.point.isFinal = true := by
    intro h c hc hg
    obtain ⟨r, hr, hfit⟩ := ho.fits hc
    have hn : (ph'.outline conn).role h = none := by
      cases hr' : (ph'.outline conn).role h with
      | none => rfl
      | some r' =>
        obtain ⟨c', hc', -⟩ := ho'.role h r' hr'
        rw [hg] at hc'
        cases hc'
    rw [hdrop h r hr hn] at hfit
    rw [hfit.1]
    rfl
  have hok : EfaStepOk (code conn times) s s' :=
    ⟨ss.contexts.owned_of_final ss.table hgone ss.awaiting_not_running, hbatch⟩
  obtain ⟨t', k'⟩ := ss.contexts.step ss.table hs hok
  exact ⟨⟨t', k', ph', ho'⟩, hok⟩

end States

/-! ## What a `Select` does with the notifications -/

section Round

variable {s s' : Loop Loc Unit ConnOp Fabric Val} {h : ℕ}

/-- In a batch, the notifications find the `Read` that is registered, and nothing
else has a context. -/
theorem context_of_batch (ss : States conn s) {e : Entry} (he : e ∈ s.world.batch) :
    s.world.context e = some h ↔
      e.isNotification = true ∧ s.world.immDataContexts kImmData = some h := by
  constructor
  · intro hc
    rcases Fabric.operation_or_registered hc with ho | ⟨hrw, -, hreg⟩
    · -- no operation of the reader's is posted
      obtain ⟨cq, hq⟩ := Contexts.mem_completions_of_batch he
      obtain ⟨a, req, ha, hreq, -⟩ := ss.contexts.completed _ hq h ho
      rw [(ss.op_eq ha).1] at hreq
      cases hreq
    · obtain ⟨a, st, ha, -, hid⟩ := ss.contexts.registered _ h hreg
      rw [(ss.op_eq ha).1] at hid
      have himm : e.immData = kImmData := hid.symm
      exact ⟨by simp [Entry.isNotification, hrw, himm], himm ▸ hreg⟩
  · rintro ⟨hn, hreg⟩
    simp only [Entry.isNotification, Bool.and_eq_true, beq_iff_eq] at hn
    rw [Fabric.context, if_pos hn.1, hn.2, if_neg (by decide)]
    exact hreg

/-- **What a `Select` makes of its notifications**: nothing was pending before, and
after it the registered `Read` is, if one has come. -/
theorem round_pending (ss : States conn s) (hr : RoundStep efaWorld s s') :
    s.pending = ∅ ∧ s'.world.history.resumed = s.world.history.resumed ∧
      s'.world.notified = s.world.notified + s.world.batch.countP Entry.isNotification ∧
      s'.pending = if 0 < s.world.batch.countP Entry.isNotification then
        (s.world.immDataContexts kImmData).toFinset else ∅ := by
  obtain ⟨events, due, hhead, hpoll, hready, hdue, -, -, hop⟩ := hr.world
  have tk := Fabric.taken_of_select hpoll
  have hnone := ss.contexts.pending_of_head ss.table hhead
  refine ⟨hnone, by rw [tk.eq], ?_, ?_⟩
  · rw [Fabric.notified, Fabric.notified, tk.eq, List.countP_append]
  · have hsome : ∀ i, (s'.op i).isSome = (s.op i).isSome := by
      intro i
      rw [hop]
      split <;> simp
    ext i
    rw [Loop.pending, Finset.mem_filter, List.mem_toFinset, hready, hsome]
    constructor
    · rintro ⟨hi, hop⟩
      have hi : i ∈ events := by
        rcases List.mem_append.mp hi with hi | hi
        · refine (List.mem_append.mp hi).resolve_left fun hi => ?_
          have : i ∈ s.pending := by
            rw [Loop.pending, Finset.mem_filter, List.mem_toFinset]
            exact ⟨hi, hop⟩
          rw [hnone] at this
          exact absurd this (Finset.notMem_empty i)
        · -- a timer's coroutine sleeps, and waits for no operation
          obtain ⟨tk, htk, rfl⟩ := List.mem_map.mp (hdue i hi)
          obtain ⟨c, hc, hsl⟩ := ss.table.timer tk htk
          rw [op_of_coros hc, Coro.op] at hop
          cases hp : c.point <;> rw [hp] at hsl hop <;> simp [Point.isSleep, Point.op] at hsl hop
      rw [tk.events_eq] at hi
      obtain ⟨e, he, hc⟩ := List.mem_filterMap.mp hi
      obtain ⟨hn, hreg⟩ := (context_of_batch ss he).mp hc
      rw [if_pos (List.countP_pos_iff.mpr ⟨e, he, hn⟩), Option.mem_toFinset]
      exact hreg
    · intro hi
      split at hi
      · rename_i hpos
        obtain ⟨e, he, hn⟩ := List.countP_pos_iff.mp hpos
        have hreg := Option.mem_toFinset.mp hi
        obtain ⟨a, st, ha, -⟩ := ss.contexts.registered _ i hreg
        refine ⟨List.mem_append_left _ (List.mem_append_right _ ?_), by rw [ha]; rfl⟩
        rw [tk.events_eq]
        exact List.mem_filterMap.mpr ⟨e, he, (context_of_batch ss he).mpr ⟨hn, hreg⟩⟩
      · exact absurd hi (Finset.notMem_empty i)

/-- At most one notification goes with the contexts. -/
theorem distinct_of_countP (ss : States conn s)
    (hle : s.world.batch.countP Entry.isNotification ≤ 1) : Distinct s.world := by
  have hlen : ((s.world.batch.filter (·.flags.remoteWrite)).filterMap s.world.context).length ≤ 1 := by
    rw [List.filterMap_filter, List.length_filterMap_eq_countP]
    refine le_trans (List.countP_mono_left fun e he hsome => ?_) hle
    split at hsome
    · obtain ⟨h, hc⟩ := Option.isSome_iff_exists.mp hsome
      exact ((context_of_batch ss he).mp hc).1
    · cases hsome
  rw [Distinct]
  generalize (s.world.batch.filter (·.flags.remoteWrite)).filterMap s.world.context = l at hlen ⊢
  match l, hlen with
  | [], _ => exact List.nodup_nil
  | [h], _ => exact List.nodup_singleton h

end Round

/-! ## No notification is lost -/

/-- **The `Select` takes no notification that finds no `Read` of its own**: at most one,
and none unless a `Read` is registered. -/
def Received (f : Fabric) : Prop :=
  f.batch.countP Entry.isNotification ≤
    if (f.immDataContexts kImmData).isSome then 1 else 0

instance (f : Fabric) : Decidable (Received f) := inferInstanceAs (Decidable (_ ≤ _))

/-- The registered `Read` stands for as many notifications as were taken, if they
were received. -/
theorem card_eq_iff {m : ℕ} {reg : Option ℕ} :
    (if 0 < m then reg.toFinset else ∅).card = m ↔ m ≤ if reg.isSome then 1 else 0 := by
  cases reg with
  | none =>
    simp only [Option.toFinset_none, ite_self, Finset.card_empty, Option.isSome_none,
      Bool.false_eq_true, if_false]
    omega
  | some h =>
    simp only [Option.toFinset_some, Option.isSome_some, if_true]
    split
    · rw [Finset.card_singleton]
      omega
    · rw [Finset.card_empty]
      omega

/-- The loop as `Run` starts `Reader::Read`, with nothing done yet. -/
def Begins (s : Loop Loc Unit ConnOp Fabric Val) : Prop :=
  Started true (.read 0) () s ∧ s.world.history = {}

/-- **No notification is lost, exactly if each one is taken while a `Read` is
registered that has none yet.** Along a run of `Reader::Read`, the `Read`s that
have completed and those queued for resumption are together as many as the
notifications taken, in every state, if and only if every `Select` takes at
most one notification, and none where no `Read` is registered. -/
theorem notifications_kept_iff {σ : ℕ → Loop Loc Unit ConnOp Fabric Val} {n : ℕ}
    (hrun : IsRun Begins (Step efaWorld (code conn times)) σ n) :
    (∀ i ≤ n, (σ i).world.history.resumed.length + (σ i).pending.card = (σ i).world.notified) ↔
      ∀ i < n, RoundStep efaWorld (σ i) (σ (i + 1)) → Received (σ i).world := by
  refine hrun.forall_iff_forall_guard
    (fun s => States conn s ∧
      s.world.history.resumed.length + s.pending.card = s.world.notified)
    (fun s => s.world.history.resumed.length + s.pending.card = s.world.notified)
    (fun s s' => RoundStep efaWorld s s' → Received s.world) ?_ ?_ ?_ ?_
  · rintro s ⟨⟨f, hf, rfl⟩, hh⟩
    refine ⟨.boot hf, ?_⟩
    have hnone : (Loop.boot true (.read 0) () f : Loop Loc Unit ConnOp Fabric Val).pending = ∅ :=
      (Contexts.boot true _ () hf).pending_of_head (Table.boot true _ () f) ⟨rfl, rfl⟩
    rw [Fabric.notified, hh, hnone]
    rfl
  · rintro s s' ⟨ss, hlaw⟩ hs hg
    have hle : RoundStep efaWorld s s' → s.world.batch.countP Entry.isNotification ≤ 1 := by
      intro hr
      refine le_trans (hg hr) ?_
      split <;> omega
    obtain ⟨ss', hok⟩ := ss.step hs fun hr => distinct_of_countP ss (hle hr)
    refine ⟨ss', ?_⟩
    by_cases hr : RoundStep efaWorld s s'
    · obtain ⟨hnone, hres, hnot, hpend⟩ := round_pending ss hr
      have hrec : _ ≤ _ := hg hr
      rw [hnone, Finset.card_empty] at hlaw
      rw [hres, hnot, ← hlaw, hpend, card_eq_iff.mpr hrec]
      omega
    · obtain ⟨htaken, hsum⟩ := ledger_step ss.table ss.contexts hs hok hr
      rw [hsum, hlaw, Fabric.notified, Fabric.notified, htaken]
  · exact fun s hs => hs.2
  · rintro s s' ⟨ss, hlaw⟩ hs hlaw' hr
    obtain ⟨hnone, hres, hnot, hpend⟩ := round_pending ss hr
    rw [hnone, Finset.card_empty] at hlaw
    rw [hres, hnot, ← hlaw, hpend] at hlaw'
    exact card_eq_iff.mp (by omega)

/-! ## A writer that is fast -/

/-- The first `Read` gets its notification. -/
def kept : ℕ → Loop Loc Unit ConnOp Fabric Val :=
  states efaWorld (code EfaExamples.conn 2) Fabric.move (Loop.boot true (.read 0) () quiet)
    [.round 0, .resume, .exec 0, .exec 0, .round 0, .resume, .env arrival, .round 0, .resume]

/-- The second notification arrives before the second `Read` is registered. -/
def lost : ℕ → Loop Loc Unit ConnOp Fabric Val :=
  states efaWorld (code EfaExamples.conn 2) Fabric.move (Loop.boot true (.read 0) () quiet)
    [.round 0, .resume, .exec 0, .exec 0, .round 0, .resume, .env arrival, .round 0, .resume,
      .env arrival, .round 0]

theorem kept_isRun : IsRun Begins (Step efaWorld (code EfaExamples.conn 2)) kept 9 :=
  isRun_states efaWorld_move ⟨⟨quiet, quiet_idle, rfl⟩, rfl⟩ (by decide +kernel)

theorem lost_isRun : IsRun Begins (Step efaWorld (code EfaExamples.conn 2)) lost 11 :=
  isRun_states efaWorld_move ⟨⟨quiet, quiet_idle, rfl⟩, rfl⟩ (by decide +kernel)

/-- The one notification is received, and the `Read` completes. -/
theorem notifications_kept_iff_kept :
    (∀ i ≤ 9, (kept i).world.history.resumed.length + (kept i).pending.card =
      (kept i).world.notified) ∧ (kept 9).world.history.resumed = [1] :=
  ⟨(notifications_kept_iff kept_isRun).mpr fun i hi _ =>
    (by decide +kernel : ∀ i < 9, Received (kept i).world) i hi, by decide +kernel⟩

/-- **A notification is lost**: two were taken, one `Read` has completed, none is
queued, and nothing keeps the other. -/
theorem lost_notification :
    IsRun Begins (Step efaWorld (code EfaExamples.conn 2)) lost 11 ∧
      (lost 11).world.notified = 2 ∧
      (lost 11).world.history.resumed.length + (lost 11).pending.card ≠ (lost 11).world.notified :=
  ⟨lost_isRun, by decide +kernel, by decide +kernel⟩

end Reader

end EfaExamples
