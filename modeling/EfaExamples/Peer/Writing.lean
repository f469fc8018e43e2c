import EfaExamples.Efa.History
import EfaExamples.Efa.Ledger
import EfaExamples.Peer.Batch
import EfaExamples.Peer.Sequential
/-!
# The writer under the loop

A `Version` is a `WriteOne` with what holds at its locations. Along a run of
`Writer::Write` the state is in some phase of it (`States`); as long as no
`WriteOne` has left writes behind it has the scheduler's table and the
contexts too (`Sound`), and what the phase counts as awaited is completed.
-/

namespace EfaExamples

open Loop

namespace Writer

variable {I : Type} {w : Writer}

/-- **A version of `WriteOne`**, with what holds at its locations. -/
structure Version (w : Writer) (I : Type) where
  entry : ℕ → I
  one : I → Op (Loc I) Counters ConnOp Val
  Here : I → Window → Prop
  allowed : ∀ l x, x.Ok w → Here l x → Allowed w Here x (one l)
  entered : ∀ r, Here (entry r) (.enter w r)

/-- `Writer::Write(repeat)` around it. -/
def Version.code (v : Version w I) (times : ℕ) : Loc I → Op (Loc I) Counters ConnOp Val :=
  Writer.code v.entry v.one times

/-- The number of writes known to have returned without an exception. -/
def Window.done (w : Writer) (x : Window) : ℕ :=
  x.round * w.total + (x.awaited - x.failed.isSome.toNat)

namespace Phase

/-- The window of a phase. -/
def window (w : Writer) : Phase I → Window
  | start => .enter w 0
  | test r | made r | entered r => .enter w r
  | running x _ | waiting x _ | finished x _ | back x _ | ended x _ _ => x

variable {entry : ℕ → I} {one : I → Op (Loc I) Counters ConnOp Val} {times : ℕ}
variable {Here : I → Window → Prop} {res : ℕ → Outcome Val → Prop} {ph ph' : Phase I}

/-- The shared memory of a phase is its window's counters. -/
theorem outline_mem : (ph.outline w entry).mem =
    w.counters (ph.window w).ops (ph.window w).sent (ph.window w).noted := by
  cases ph <;> simp [outline, window, Window.outline, Window.enter, roundCounters, counters]

/-- Whoever executes is a body, and owns only coroutines that own none. -/
theorem flat (hok : ph.Ok w Here) : (ph.outline w entry).Flat := by
  have hpos := fun r => w.oneHandle_pos r
  intro h hh
  cases ph with
  | test r | made r =>
    simp only [outline, List.map_cons, List.map_nil, List.mem_singleton] at hh
    subst hh
    simp only [outline]
    have := hpos r
    grind [Role.locals]
  | back x o =>
    simp only [outline, List.map_cons, List.map_nil, List.mem_singleton] at hh
    subst hh
    have := hpos x.round
    have := hok.1.made
    simp only [outline, handle]
    grind [Role.locals]
  | running x l =>
    simp only [outline, Window.outline, List.map_cons, List.map_nil, List.mem_singleton] at hh
    subst hh
    have hx := hok.1
    have hle : x.popped ≤ x.made := hx.popped.trans hx.awaited
    refine ⟨?_, _, _, Window.role_one, fun d hd => ?_⟩
    · simp only [outline, Window.outline, handle]
      omega
    · have hd' := Window.mem_futs.mp hd
      refine ⟨by simp only [handle] at hd'; omega, fun r hr => ?_⟩
      obtain ⟨rfl, -⟩ | ⟨rfl, -⟩ | ⟨k, -, -, ⟨-, rfl⟩ | ⟨-, -, rfl⟩ | ⟨-, -, rfl⟩⟩ :=
        Window.role_cases hr
      · simp [handle] at hd'
      · simp only [handle] at hd'
        omega
      · rfl
      · rfl
      · rfl
  | start | entered r | waiting x k | finished x o | ended x o seq =>
    simp [outline, Window.outline] at hh

/-- `WriteOne` is executing or in a `co_await`. -/
def Inside : Phase I → Prop
  | running _ _ | waiting _ _ => True
  | _ => False

theorem made_le (hok : ph.Ok w Here) (hin : ph.Inside) : (ph.window w).made ≤ w.total := by
  cases ph with
  | running x l | waiting x k => exact hok.1.made
  | start | test r | made r | entered r | finished x o | back x o | ended x o seq => exact hin.elim

/-- Only writes are among the connection's coroutines, and while `WriteOne` runs. -/
theorem leaf_cases {h : ℕ} {a : ConnOp} (hr : (ph.outline w entry).role h = some (.leaf a)) :
    ph.Inside ∧ ∃ k, a = w.op k ∧ h = w.handle (ph.window w).round k ∧
      (ph.window w).awaited ≤ k ∧ k < (ph.window w).made := by
  cases ph with
  | running x l | waiting x k =>
    obtain ⟨-, hb⟩ | ⟨-, hb⟩ | ⟨k, hk, -, ⟨-, hb⟩ | ⟨hle, hlt, hb⟩ | ⟨-, -, hb⟩⟩ :=
      Window.role_cases hr
    · cases hb
    · cases hb
    · cases hb
    · cases hb
      exact ⟨trivial, k, rfl, hk, hle, hlt⟩
    · cases hb
  | start | test r | made r | entered r | finished x o | back x o | ended x o seq =>
    simp only [outline] at hr
    grind

/-- The root is a body until it has ended. -/
theorem role_zero {r : Role (Loc I) ConnOp Val} (hr : (ph.outline w entry).role 0 = some r) :
    (∃ p ls, r = .body p ls) ∨ ∃ x o seq, ph = ended x o seq ∧ r = .done o := by
  cases ph with
  | running x l | waiting x k =>
    simp only [outline, Window.outline, Window.role_zero, Option.some.injEq] at hr
    exact Or.inl ⟨_, _, hr.symm⟩
  | start | test r | made r | entered r | finished x o | back x o =>
    exact Or.inl ⟨_, _, (Option.some.inj hr).symm⟩
  | ended x o seq => exact Or.inr ⟨x, o, seq, rfl, (Option.some.inj hr).symm⟩

/-- A write has a request. -/
theorem op_request (k : ℕ) : (w.op k).request ≠ none := by
  simp [op, page, ConnOp.request]

/-- **What a move does to the window's count**: at most one more write has
returned, and that one is done. -/
theorem Move.done (hm : Move w entry one times res ph ph') (hok : ph.Ok w Here) :
    (ph'.window w).done w ≤ (ph.window w).done w ∨
      (ph'.window w).done w = (ph.window w).done w + 1 ∧
        ∃ k v, res (w.issue ((ph.window w).done w)).ctx (.ok v) ∧
          (ph.outline w entry).role (w.issue ((ph.window w).done w)).ctx = some (.leaf (w.op k)) := by
  have hgot : ∀ {x : Window} {o : Outcome Val} {p : Point (Loc I) ConnOp Val}, x.Ok w →
      x.failed = none → x.awaited < x.made → res (w.handle x.round x.awaited) o →
      (x.got o).done w ≤ x.done w ∨ (x.got o).done w = x.done w + 1 ∧
        ∃ k v, res (w.issue (x.done w)).ctx (.ok v) ∧
          x.role w p (w.issue (x.done w)).ctx = some (.leaf (w.op k)) := by
    intro x o p hx hfail hlt hres
    have hdone : x.done w = x.round * w.total + x.awaited := by
      simp [Window.done, hfail]
    cases o with
    | error e =>
      refine Or.inl (le_of_eq ?_)
      rw [hdone]
      rfl
    | ok v =>
      have hctx : (w.issue (x.done w)).ctx = w.handle x.round x.awaited := by
        rw [hdone, w.issue_add (hlt.trans_le hx.made)]
      refine Or.inr ⟨?_, x.awaited, v, ?_, ?_⟩
      · rw [hdone]
        rfl
      · rw [hctx]
        exact hres
      · have hp := hx.popped
        rw [hctx, Window.role_handle, if_neg (by omega), if_neg (by omega), if_pos hlt]
  cases hm with
  | got hfail hlt hres => exact hgot hok.1 hfail hlt hres
  | wake hfail hlt hres => exact hgot hok.1 hfail hlt hres
  | step hs =>
    refine Or.inl (le_of_eq ?_)
    simp only [window, Window.done, hs.round, hs.awaited, hs.failed]
  | next =>
    obtain ⟨-, -, -, -, hfail, hall, -⟩ := hok
    refine Or.inl (le_of_eq ?_)
    simp [window, Window.done, Window.enter, hfail, hall, Nat.succ_mul]
  | still | start | call | stop | await | enter | make | launch | suspend | launchSuspend | pop
  | finish | back | rethrow => exact Or.inl le_rfl

/-- **What a move drops is done**, unless it is the end of a `WriteOne` by an
exception. -/
theorem Move.dropped (hm : Move w entry one times res ph ph') (hok : ph.Ok w Here)
    (hok' : ph'.Ok w Here) :
    (∃ x l e, ph = running x l ∧ one l = .ret (.error e) ∧ ph' = finished x (.error e)) ∨
      ∀ h r, (ph.outline w entry).role h = some r → (ph'.outline w entry).role h = none →
        r = .ended ∨ ∃ o, r = .done o := by
  -- a window whose coroutines are still there
  have hkeep : ∀ {x y : Window} {p q : Point (Loc I) ConnOp Val}, y.round = x.round →
      x.made ≤ y.made → (x.fresh = true → y.fresh = true ∨ x.made < y.made) →
      x.Ok w → (y.popped = x.popped ∨ y.popped = x.popped + 1 ∧ x.popped < x.awaited) →
      ∀ h r, x.role w p h = some r → y.role w q h = none → r = .ended ∨ ∃ o, r = .done o := by
    intro x y p q hround hmade hfresh hx hpopped h r hr hn
    have hp := hx.popped
    have ha := hx.awaited
    obtain ⟨rfl, -⟩ | ⟨rfl, -⟩ | ⟨k, rfl, hk, hr⟩ := Window.role_cases hr
    · rw [Window.role_zero] at hn
      cases hn
    · rw [← hround, Window.role_one] at hn
      cases hn
    · rw [← hround, Window.role_handle] at hn
      rcases hr with ⟨-, rfl⟩ | ⟨hka, hlt, -⟩ | ⟨hf, rfl, -⟩
      · exact Or.inl rfl
      · rw [if_neg (by omega)] at hn
        split at hn
        · cases hn
        · rw [if_pos (by omega)] at hn
          cases hn
      · rw [if_neg (by omega)] at hn
        split at hn
        · cases hn
        · split at hn
          · cases hn
          · rw [if_pos ⟨(hfresh hf).resolve_right (by omega), by omega⟩] at hn
            cases hn
  have hpos := fun r => w.oneHandle_pos r
  cases hm with
  | still => exact Or.inr fun h r hr hn => by rw [hr] at hn; cases hn
  | start | call | stop | await | back | next | rethrow =>
    refine Or.inr fun h r hr hn => ?_
    simp only [outline] at hr hn
    grind
  | enter =>
    refine Or.inr fun h r hr hn => ?_
    simp only [outline, Window.outline, Window.role, Window.enter] at hr hn
    grind
  | step hs =>
    exact Or.inr (hkeep hs.round hs.made.ge (fun hf => Or.inl (hs.fresh.trans hf)) hok.1
      (Or.inl hs.popped))
  | make => exact Or.inr (hkeep rfl le_rfl (fun _ => Or.inl rfl) hok.1 (Or.inl rfl))
  | launch =>
    exact Or.inr (hkeep rfl (Nat.le_succ _) (fun _ => Or.inr (Nat.lt_succ_self _)) hok.1
      (Or.inl rfl))
  | got => exact Or.inr (hkeep rfl le_rfl Or.inl hok.1 (Or.inl rfl))
  | suspend => exact Or.inr (hkeep rfl le_rfl Or.inl hok.1 (Or.inl rfl))
  | launchSuspend =>
    exact Or.inr (hkeep rfl (Nat.le_succ _) (fun _ => Or.inr (Nat.lt_succ_self _)) hok.1
      (Or.inl rfl))
  | wake => exact Or.inr (hkeep rfl le_rfl Or.inl hok.1 (Or.inl rfl))
  | pop hlt => exact Or.inr (hkeep rfl le_rfl Or.inl hok.1 (Or.inr ⟨rfl, hlt⟩))
  | @finish x l o hret =>
    cases o with
    | error e => exact Or.inl ⟨x, l, e, rfl, hret, rfl⟩
    | ok v =>
      obtain ⟨hx, hfresh, -, -, -, hall, -⟩ := hok'
      refine Or.inr fun h r hr hn => ?_
      obtain ⟨rfl, -⟩ | ⟨rfl, -⟩ | ⟨k, -, -, ⟨-, rfl⟩ | ⟨hk, hlt, -⟩ | ⟨hf, -⟩⟩ :=
        Window.role_cases hr
      · simp [outline] at hn
      · simp [outline, (hpos x.round).ne'] at hn
      · exact Or.inl rfl
      · have := hx.made
        omega
      · rw [hfresh] at hf
        cases hf

end Phase

/-! ## The states of a run -/

/-- `WriteOne` has ended by an exception, and `Write` ends with it. -/
def Phase.Failing : Phase I → Prop
  | finished _ (.error _) | back _ (.error _) | ended _ (.error _) _ => True
  | _ => False

/-- **The scheduler and the contexts are in order**, and what has returned is
completed. -/
structure Sound (O : Outline (Loc I) Counters ConnOp Val)
    (s : Loop (Loc I) Counters ConnOp Fabric Val) : Prop where
  table : Table none s
  contexts : Contexts s
  returned : Returned O s

/-- **The state is in a phase of the writer.** What its window counts is completed,
and it is sound, unless an exception has left writes behind. -/
structure States (v : Version w I) (ph : Phase I) (s : Loop (Loc I) Counters ConnOp Fabric Val) :
    Prop where
  outlined : Outlined (ph.outline w v.entry) s
  ok : ph.Ok w v.Here
  done : ∀ q < (ph.window w).done w, s.world.Completed (w.issue q).ctx
  sound : Sound (ph.outline w v.entry) s ∨ ph.Failing

section Step

variable {v : Version w I} {ph ph' : Phase I} {times : ℕ}
variable {s s' : Loop (Loc I) Counters ConnOp Fabric Val} {h : ℕ} {a : ConnOp} {st : HandleState}

/-- The only operations are writes. -/
theorem States.op_eq (ss : States v ph s) (ha : s.op h = some (a, st)) :
    ph.Inside ∧ ∃ k, a = w.op k ∧ h = w.handle (ph.window w).round k ∧
      (ph.window w).awaited ≤ k ∧ k < (ph.window w).made := by
  obtain ⟨c, hc, hp, -⟩ := op_eq_some.mp ha
  obtain ⟨r, hr, hfit⟩ := ss.outlined.fits hc
  cases r with
  | leaf b =>
    have hab : a = b := by
      rcases hfit.1 with ⟨hb, -⟩ | hb | hb <;> rw [hp] at hb <;> cases hb
      rfl
    exact hab ▸ Phase.leaf_cases hr
  | body p ls =>
    have hl := hfit.2.1
    rw [← hfit.1, hp] at hl
    cases hl
  | timer | fresh b | ended | done o => simp [Role.Fits, hp] at hfit

/-- Nobody sleeps. -/
theorem States.schedule_eq_nil (ss : States v ph s) (t : Table none s) : s.schedule = [] := by
  refine List.eq_nil_iff_forall_not_mem.mpr fun tk htk => ?_
  obtain ⟨c, hc, hsleep⟩ := t.timer tk htk
  obtain ⟨r, hr, hfit⟩ := ss.outlined.fits hc
  have hpoint : c.point = .sleep := by
    cases hp : c.point <;> simp [hp, Point.isSleep] at hsleep ⊢
  cases r with
  | timer =>
    -- no coroutine of the writer is one of `Sleep`
    cases ph with
    | running x l | waiting x k =>
      obtain ⟨-, hb⟩ | ⟨-, hb⟩ | ⟨k, -, -, ⟨-, hb⟩ | ⟨-, -, hb⟩ | ⟨-, -, hb⟩⟩ :=
        Window.role_cases hr <;> cases hb
    | start | test r | made r | entered r | finished x o | back x o | ended x o seq =>
      simp only [Phase.outline] at hr
      grind
  | body p ls =>
    have hl := hfit.2.1
    rw [← hfit.1, hpoint] at hl
    cases hl
  | fresh b | leaf b | ended | done o => simp [Role.Fits, hpoint] at hfit

theorem States.queued_eq (ss : States v ph s) (t : Table none s) : s.queued = s.ready := by
  rw [queued, ss.schedule_eq_nil t, List.map_nil, List.append_nil]

/-- What the fabric owes are writes that have not been awaited. -/
theorem States.outstanding_le {m : ℕ} (ss : States v ph s) (so : Sound (ph.outline w v.entry) s)
    (hm : ph.Inside → (ph.window w).made ≤ (ph.window w).awaited + m) :
    s.world.outstanding.length ≤ m := by
  by_cases hin : ph.Inside
  · have hsub : s.world.outstanding ⊆
        List.range' (w.handle (ph.window w).round (ph.window w).awaited)
          ((ph.window w).made - (ph.window w).awaited) := by
      intro h hh
      obtain ⟨a, req, ha, -⟩ := so.contexts.of_mem_outstanding hh
      obtain ⟨-, k, -, rfl, hle, hlt⟩ := ss.op_eq ha
      rw [List.mem_range'_1]
      simp only [handle]
      omega
    have hle := (so.contexts.once.subperm hsub).length_le
    have := hm hin
    rw [List.length_range'] at hle
    omega
  · have hnil : s.world.outstanding = [] := by
      refine List.eq_nil_iff_forall_not_mem.mpr fun h hh => hin ?_
      obtain ⟨a, req, ha, -⟩ := so.contexts.of_mem_outstanding hh
      exact (ss.op_eq ha).1
    rw [hnil]
    exact Nat.zero_le _

/-- Nothing is registered for an immediate. -/
theorem States.registered (ss : States v ph s) (so : Sound (ph.outline w v.entry) s) (id : ℕ) :
    s.world.immDataContexts id = none := by
  cases hreg : s.world.immDataContexts id with
  | none => rfl
  | some h =>
    obtain ⟨a, st, ha, hreq, -⟩ := so.contexts.registered id h hreg
    obtain ⟨-, k, rfl, -⟩ := ss.op_eq ha
    exact absurd hreq (Phase.op_request k)

/-- So no remote write of a batch has a context. -/
theorem States.distinct (ss : States v ph s) (so : Sound (ph.outline w v.entry) s) :
    Distinct s.world := by
  have hnil : (s.world.batch.filter (·.flags.remoteWrite)).filterMap s.world.context = [] := by
    refine List.filterMap_eq_nil_iff.mpr fun e he => ?_
    have hrw : e.flags.remoteWrite = true := by simpa using (List.mem_filter.mp he).2
    rw [Fabric.context, if_pos hrw, ss.registered so, ite_self]
  rw [Distinct, hnil]
  exact List.nodup_nil

/-- **Who is about to be awaited**: its `WriteOne` by the root, or a write by the `WriteOne`. -/
theorem States.awaiting_cases (ss : States v ph s) {p : ℕ × ℕ}
    (hp : p ∈ s.awaiting (v.code times)) :
    (∃ r, ph = .made r ∧ p = (0, w.oneHandle r)) ∨
      ∃ x l k, ph = .running x l ∧ p = (w.oneHandle x.round, w.handle x.round k) := by
  obtain ⟨me, d⟩ := p
  obtain ⟨l, rest, k, hstack, hop⟩ := exists_of_awaiting hp
  simp only at hstack hop
  have hph := ss.outlined.stack
  rw [hstack] at hph
  cases ph with
  | made r =>
    cases hph
    cases hop
    exact Or.inl ⟨r, rfl, rfl⟩
  | running x l' =>
    cases hph
    have hvc := v.allowed l' x ss.ok.1 ss.ok.2
    rw [show v.one l' = .await d k from hop] at hvc
    obtain ⟨-, y, k', hy, -, rfl, -⟩ := hvc
    have hround : y.round = x.round := by
      rcases hy with ⟨rfl, -⟩ | ⟨rfl, -⟩ <;> rfl
    exact Or.inr ⟨x, l', y.awaited, rfl, by rw [hround]⟩
  | test r =>
    cases hph
    simp only [Version.code, code] at hop
    split at hop <;> cases hop
  | back x o =>
    cases hph
    cases o <;> cases hop
  | start | entered r | waiting x k' | finished x o | ended x o seq => cases hph

/-- The coroutine about to be awaited is not executing. -/
theorem States.awaiting_not_running (ss : States v ph s) :
    ∀ p ∈ s.awaiting (v.code times), p.2 ∉ s.running := by
  intro p hp
  rw [running, ss.outlined.stack]
  rcases ss.awaiting_cases hp with ⟨r, rfl, rfl⟩ | ⟨x, l, k, rfl, rfl⟩
  · simp [Phase.outline, (w.oneHandle_pos r).ne']
  · simp only [Phase.outline, Window.outline, List.map_cons, List.map_nil, List.mem_singleton,
      handle]
    omega

/-- What the front of `ready_` awaits is done. -/
theorem States.done_of_front (ss : States v ph s) : ∀ h q c d k cd, s.stack = [] →
    s.ready = h :: q → s.coros h = some c → c.point = .await d k → s.coros d = some cd →
    cd.point.isFinal = true := by
  rcases ss.sound with so | hfail
  · exact Outlined.done_of_table so.table
  · intro h q c d k cd hstack _ hc hp hcd
    obtain ⟨r, hr, hfit⟩ := ss.outlined.fits hc
    obtain ⟨rd, hrd, hfitd⟩ := ss.outlined.fits hcd
    cases ph with
    | finished x o =>
      simp only [Phase.outline] at hr hrd
      have hone := w.oneHandle_pos x.round
      split at hr
      · cases hr
        have hpt := hfit.1
        rw [hp] at hpt
        cases hpt
        rw [if_neg hone.ne', if_pos rfl] at hrd
        cases hrd
        rw [hfitd.1]
        rfl
      · split at hr
        · cases hr
          have hpt := hfit.1
          rw [hp] at hpt
          cases hpt
        · cases hr
    | back x o =>
      rw [ss.outlined.stack] at hstack
      cases hstack
    | ended x o seq =>
      simp only [Phase.outline] at hr
      split at hr
      · cases hr
        have hpt := hfit.1
        rw [hp] at hpt
        cases hpt
      · cases hr
    | start | test r | made r | entered r | running x l | waiting x k => exact hfail.elim

/-- What has no role any more is gone, and it was done if the roles that are dropped say so. -/
theorem States.final_of_gone (ss : States v ph s) (ss' : Outlined (ph'.outline w v.entry) s')
    (hdrop : ∀ h r, (ph.outline w v.entry).role h = some r →
      (ph'.outline w v.entry).role h = none → r = .ended ∨ ∃ o, r = .done o) :
    ∀ h c, s.coros h = some c → s'.coros h = none → c.point.isFinal = true := by
  intro h c hc hg
  obtain ⟨r, hr, hfit⟩ := ss.outlined.fits hc
  have hn : (ph'.outline w v.entry).role h = none := by
    cases hr' : (ph'.outline w v.entry).role h with
    | none => rfl
    | some r' =>
      obtain ⟨c', hc', -⟩ := ss'.role h r' hr'
      rw [hg] at hc'
      cases hc'
  rcases hdrop h r hr hn with rfl | ⟨o, rfl⟩ <;> rw [hfit.1] <;> rfl

/-- **What the contexts ask of a step**, where only what is done is destroyed. -/
theorem States.efaStepOk (ss : States v ph s) (times : ℕ) (so : Sound (ph.outline w v.entry) s)
    (hgone : ∀ h c, s.coros h = some c → s'.coros h = none → c.point.isFinal = true) :
    EfaStepOk (v.code times) s s' :=
  ⟨so.contexts.owned_of_final so.table hgone ss.awaiting_not_running, fun _ => ss.distinct so⟩

/-- **One step leads from phase to phase**, by a move, and stays sound where it
destroys only what is done. -/
theorem States.step (ss : States v ph s) (hs : Step efaWorld (v.code times) s s') :
    ∃ ph', Phase.Move w v.entry v.one times s.DoneWith ph ph' ∧ States v ph' s' ∧
      (ph.outline w v.entry).Leaves (ph'.outline w v.entry) ∧
      (Sound (ph.outline w v.entry) s → (∀ x l e, ph = .running x l → v.one l = .ret (.error e) →
        ph' = .finished x (.error e) → x.awaited = x.made) → Sound (ph'.outline w v.entry) s') := by
  obtain ⟨O', ho', hstep⟩ := ss.outlined.step (Phase.flat ss.ok) ss.done_of_front hs
  obtain ⟨ph', hmove, hok', rfl⟩ := Phase.step v.allowed v.entered ss.ok hstep
  have hsound : Sound (ph.outline w v.entry) s → (∀ h r, (ph.outline w v.entry).role h = some r →
      (ph'.outline w v.entry).role h = none → r = .ended ∨ ∃ o, r = .done o) →
      Sound (ph'.outline w v.entry) s' := by
    intro so hdrop
    have hok := ss.efaStepOk times so (ss.final_of_gone ho' hdrop)
    obtain ⟨t', k'⟩ := so.contexts.step so.table hs hok
    exact ⟨t', k', so.returned.step ss.outlined so.table so.contexts hs hok fun h a =>
      hstep.leaves⟩
  refine ⟨ph', hmove, ⟨ho', hok', ?_, ?_⟩, fun h a => hstep.leaves, fun so hall => ?_⟩
  · -- what has returned by now
    have hg := hs.grows
    intro q hq
    rcases hmove.done ss.ok with hle | ⟨heq, k, val, ⟨c, hc, hf, hget⟩, hrole⟩
    · exact (ss.done q (hq.trans_le hle)).grows hg
    · rcases Nat.lt_or_ge q ((ph.window w).done w) with hlt | hge
      · exact (ss.done q hlt).grows hg
      · rw [show q = (ph.window w).done w by omega]
        have so : Sound (ph.outline w v.entry) s := by
          refine ss.sound.resolve_right fun hfail => ?_
          have hin := (Phase.leaf_cases hrole).1
          cases ph with
          | running x l | waiting x k => exact hfail
          | start | test r | made r | entered r | finished x o | back x o | ended x o seq => exact hin
        exact (so.returned _ _ hrole c hc hf val hget (Phase.op_request k)).grows hg
  · rcases hmove.dropped ss.ok hok' with ⟨x, l, e, -, -, rfl⟩ | hdrop
    · exact Or.inr trivial
    · rcases ss.sound with so | hfail
      · exact Or.inl (hsound so hdrop)
      · right
        cases hmove with
        | @back x o => cases o <;> exact hfail
        | still => exact hfail
        | rethrow => exact trivial
        | next => exact hfail.elim
        | start | call | stop | await | enter | step | make | launch | got | suspend | launchSuspend
        | wake | pop | finish => exact hfail.elim
  · rcases hmove.dropped ss.ok hok' with ⟨x, l, e, rfl, hret, rfl⟩ | hdrop
    · have hlast := hall x l e rfl hret rfl
      have hfresh : x.fresh = false := hok'.2.1
      refine hsound so fun h r hr hn => ?_
      obtain ⟨rfl, -⟩ | ⟨rfl, -⟩ | ⟨k, -, -, ⟨-, rfl⟩ | ⟨hk, hlt, -⟩ | ⟨hf, -⟩⟩ :=
        Window.role_cases hr
      · simp [Phase.outline] at hn
      · simp [Phase.outline, (w.oneHandle_pos x.round).ne'] at hn
      · exact Or.inl rfl
      · omega
      · rw [hfresh] at hf
        cases hf
    · exact hsound so hdrop

end Step

end Writer

end EfaExamples
