import EfaExamples.Coro.Forgotten
import EfaExamples.Efa.Dangling
import EfaExamples.Peer.Running
/-!
# What `WriteOne` leaves behind

An exception of one write ends the pipelined `WriteOne` while others of its
window may be queued or in flight, and the destruction of `futs` destroys
their frames. Whether anything is left behind is decided at that moment: it
is exactly if some `Future` of the window is not done.
-/

namespace EfaExamples

open Loop Writer

namespace Batch

variable {w : Writer} {times : ℕ}
variable {s s' : Loop (Writer.Loc Loc) Counters ConnOp Fabric Val} {d h : ℕ}

/-- The step ends the `WriteOne` of frame `d`, at `l` and with outcome `o`. -/
structure Finishes (w : Writer) (times d : ℕ) (l : Loc) (o : Outcome Val)
    (s s' : Loop (Writer.Loc Loc) Counters ConnOp Fabric Val) : Prop where
  stack : ∃ rest, s.stack = (d, .one l) :: rest
  ret : writeOne w l = .ret o
  exec : ∃ now, s.exec (code w times) now = some s'

/-- Every `Future` in the frame of `d` is done. -/
def AllDone (s : Loop (Writer.Loc Loc) Counters ConnOp Fabric Val) (d : ℕ) : Prop :=
  ∀ c, s.coros d = some c → ∀ h ∈ c.locals, ∀ ch, s.coros h = some ch → ch.point.isFinal = true

/-- A `WriteOne` that finishes suspends for the last time. -/
theorem Finishes.after {l : Loc} {o : Outcome Val} (hf : Finishes w times d l o s s')
    (hstack : s.stack = [(d, .one l)]) : s'.stack = [] ∧ s'.world = s.world ∧
      (∃ r, s'.ready = s.ready ++ r) ∧ ∃ c, s'.coros d = some c ∧ c.point = .final := by
  obtain ⟨-, hret, now, hexec⟩ := hf
  obtain ⟨hw, -, hr⟩ := exec_appends hexec
  have hcode : code w times (.one l) = .ret o := hret
  simp only [Loop.exec, hstack, hcode] at hexec
  obtain ⟨c, -, s₁, he, hc, ⟨-, rfl⟩ | ⟨p, cp, -, -, rfl⟩⟩ := finish_cases hexec
  · refine ⟨he.stack, hw, hr, { c with point := .final, result := some o, locals := [] }, ?_, rfl⟩
    rw [modify_coros_self, hc]
    rfl
  · refine ⟨he.stack, hw, hr, ?_⟩
    rw [call_coros, setState, modify_coros, modify_coros_self, hc]
    split
    · exact ⟨_, rfl, rfl⟩
    · exact ⟨_, rfl, rfl⟩

/-- **The phases around the end of a `WriteOne`.** -/
theorem Finishes.phases {ph : Phase Loc} {l : Loc} {o : Outcome Val}
    (hf : Finishes w times d l o s s') (hs : Step efaWorld (code w times) s s')
    (al : Along (version w) times ph s) : ∃ x, ph = .running x l ∧ d = w.oneHandle x.round ∧
      x.Returns w o ∧ ∃ o', Along (version w) times (.finished x o') s' := by
  obtain ⟨⟨rest, hstack⟩, hret, hexec⟩ := id hf
  have hph := al.states.outlined.stack
  rw [hstack] at hph
  cases ph with
  | test r | made r | back x o => cases hph
  | start | entered r | waiting x k | finished x o | ended x o seq => cases hph
  | running x l' =>
    cases hph
    obtain ⟨hempty, -, -, c, hc, hfin⟩ := hf.after hstack
    have hallow := allowed al.states.ok.1 al.states.ok.2
    rw [hret] at hallow
    obtain ⟨ph', hm, al', -⟩ := al.step hs
    have hph' := al'.states.outlined.stack
    rw [hempty] at hph'
    cases hm with
    | still | step _ | make | launch _ | got _ _ _ | pop _ => cases hph'
    | suspend | launchSuspend _ =>
      obtain ⟨c', hc', hfit, -⟩ := al'.states.outlined.role _ _ Window.role_one
      have hcc : c = c' := Option.some.inj (hc.symm.trans hc')
      rw [← hcc, hfin] at hfit
      cases hfit
    | @finish _ _ o' _ => exact ⟨x, rfl, rfl, hallow, o', al'⟩

/-! ## The two directions -/

section Window

variable {x : Window} {l : Loc} {o : Outcome Val}

/-- The writes of a round that have been noted are those of its window. -/
theorem exists_of_mem_issued (al : Along (version w) times (.running x l) s)
    (hnoted : x.noted = x.round * w.total + x.made) {e : Issued} (he : e ∈ s.mem.issued)
    (hr : e.round = l.round) : ∃ k < x.made, e = w.issue (x.round * w.total + k) := by
  have hround : l.round = x.round := by
    have hh := al.states.ok.2
    cases l <;> first | exact hh.1.round.symm | exact hh.1.symm
  have hmem : s.mem = w.counters x.ops x.sent x.noted :=
    al.states.outlined.mem.trans Phase.outline_mem
  rw [hmem] at he
  obtain ⟨q, hq, rfl⟩ := List.mem_map.mp he
  rw [List.mem_range, hnoted] at hq
  have hdiv : q / w.total = x.round := hr.trans hround
  have hle : x.round * w.total ≤ q := by
    rw [← hdiv]
    exact Nat.div_mul_le_self q w.total
  obtain ⟨k, rfl⟩ := Nat.exists_eq_add_of_le hle
  exact ⟨k, by omega, rfl⟩

/-- **What is done is not left behind.** -/
theorem not_left_of_done (al : Along (version w) times (.running x l) s)
    (so : Sound ((Phase.running x l).outline w (version w).entry) s)
    (hdone : AllDone s (w.oneHandle x.round)) {k : ℕ} (hk : k < x.made) :
    w.handle x.round k ∉ s.queued ∧ w.handle x.round k ∉ s.world.outstanding ∧
      w.handle x.round k < s.seq := by
  have hfinal : ∀ c, s.coros (w.handle x.round k) = some c → c.point.isFinal = true := by
    intro c hc
    rcases Nat.lt_or_ge k x.popped with hpop | hpop
    · rw [al.states.outlined.gone _ (Window.role_handle.trans (if_pos hpop))] at hc
      cases hc
    · obtain ⟨c₁, hc₁, -, -, -, hlocals⟩ := al.states.outlined.role _ _ Window.role_one
      refine hdone c₁ hc₁ _ ((hlocals _).mpr (Window.mem_futs.mpr ?_)) c hc
      simp only [handle]
      omega
  refine ⟨fun hq => ?_, fun hout => ?_, ?_⟩
  · obtain ⟨c, hc⟩ := so.table.exists_of_mem_queued hq
    have := (so.table.of_mem_queued hc hq).2.2.1
    rw [hfinal c hc] at this
    cases this
  · obtain ⟨a, req, ha, -⟩ := so.contexts.of_mem_outstanding hout
    obtain ⟨c, hc, hp, -⟩ := op_eq_some.mp ha
    have := hfinal c hc
    rw [hp] at this
    cases this
  · rw [al.states.outlined.seq]
    simp only [Phase.outline, Window.outline, handle]
    omega

/-- **What is not done is left behind**: it is queued, or its operation is
outstanding. -/
theorem left_of_not_done (al : Along (version w) times (.running x l) s)
    (so : Sound ((Phase.running x l).outline w (version w).entry) s) (hfresh : x.fresh = false)
    {c : Coro (Writer.Loc Loc) ConnOp Val} (hc : s.coros (w.oneHandle x.round) = some c)
    (hh : h ∈ c.locals) {ch : Coro (Writer.Loc Loc) ConnOp Val} (hch : s.coros h = some ch)
    (hf : ch.point.isFinal = false) : ∃ k < x.made, x.awaited ≤ k ∧ h = w.handle x.round k ∧
      (h ∈ s.world.outstanding ∨ h ∈ s.ready) := by
  have t := so.table
  obtain ⟨c₁, hc₁, -, -, -, hlocals⟩ := al.states.outlined.role _ _ Window.role_one
  rw [hc, Option.some.injEq] at hc₁
  subst hc₁
  have hmem := Window.mem_futs.mp ((hlocals h).mp hh)
  obtain ⟨r, hr, hfit⟩ := al.states.outlined.fits hch
  have hqueue : ch.state = .kScheduled → h ∈ s.ready := fun hst =>
    al.states.queued_eq t ▸ (t.scheduler.scheduled_iff h ch hch).mp hst
  obtain ⟨rfl, -⟩ | ⟨rfl, -⟩ | ⟨k, rfl, -, ⟨-, rfl⟩ | ⟨ha, hk, rfl⟩ | ⟨hfr, -⟩⟩ :=
    Window.role_cases hr
  · simp [handle] at hmem
  · simp only [handle] at hmem
    omega
  · rw [hfit.1] at hf
    cases hf
  · refine ⟨k, hk, ha, rfl, ?_⟩
    rcases hfit.1 with ⟨hp, hst⟩ | hp | hp
    · exact Or.inr (hqueue hst)
    · cases hst : ch.state with
      | kUnschedule => exact absurd hst (t.state_of_op hch hp).1
      | kSuspend =>
        exact Or.inl (so.contexts.waiting _ _ (op_eq_some.mpr ⟨ch, hch, hp, hst⟩)
          (Phase.op_request k))
      | kScheduled => exact Or.inr (hqueue hst)
    · rw [hp] at hf
      cases hf
  · rw [hfresh] at hfr
    cases hfr

end Window

/-- **`WriteOne` leaves nothing behind exactly if every `Future` of its window is
done when it finishes.** In every run of the pipelined writer, whatever its posts
return and in whatever order they complete: from the end of a `WriteOne` on, no
write of its round is outstanding and none is in `ready_`, if and only if each
`Future` in the frame that ends is done just before. One that returns by itself
has them all done. -/
theorem leftovers_iff {σ : ℕ → Loop (Writer.Loc Loc) Counters ConnOp Fabric Val} {n t : ℕ}
    (hrun : IsRun (Starts true (.write 0) {}) (Step efaWorld (code w times)) σ n) (ht : t < n)
    {l : Loc} {o : Outcome Val} (hf : Finishes w times d l o (σ t) (σ (t + 1))) :
    ((∀ t', t < t' → t' ≤ n → ∀ e ∈ (σ t).mem.issued, e.round = l.round →
        e.ctx ∉ (σ t').world.outstanding ∧ e.ctx ∉ (σ t').ready) ↔ AllDone (σ t) d) ∧
      ∀ v, o = .ok v → AllDone (σ t) d := by
  obtain ⟨ph, al⟩ := along_of_run (v := version w) hrun t ht.le
  obtain ⟨x, rfl, rfl, ⟨hfresh, hnoted, hret⟩, o', al'⟩ := hf.phases (hrun.next t ht) al
  have so := al.states.sound.resolve_right id
  have hstack : (σ t).stack = [(w.oneHandle x.round, .one l)] := al.states.outlined.stack
  obtain ⟨-, hworld, ⟨r, hready⟩, -⟩ := hf.after hstack
  have hx := al.states.ok.1
  have hissue : ∀ k < x.made, (w.issue (x.round * w.total + k)).ctx = w.handle x.round k := by
    intro k hk
    rw [w.issue_add (hk.trans_le hx.made)]
  refine ⟨⟨fun hclear => ?_, fun hdone => ?_⟩, ?_⟩
  · -- whatever is not done would be there right after the end
    intro c hc h hh ch hch
    by_contra hnf
    obtain ⟨k, hk, -, rfl, hleft⟩ := left_of_not_done al so hfresh hc hh hch (by simpa using hnf)
    have hmem : w.issue (x.round * w.total + k) ∈ (σ t).mem.issued := by
      rw [show (σ t).mem = _ from al.states.outlined.mem.trans Phase.outline_mem]
      refine List.mem_map_of_mem (List.mem_range.mpr ?_)
      show _ < x.noted
      omega
    have hround : l.round = x.round := by
      have hh := al.states.ok.2
      cases l <;> first | exact hh.1.round.symm | exact hh.1.symm
    obtain ⟨h₁, h₂⟩ := hclear (t + 1) (by omega) ht _ hmem (by
      rw [w.issue_add (hk.trans_le hx.made), hround])
    rw [hissue k hk] at h₁ h₂
    rcases hleft with hout | hr
    · exact h₁ (hworld ▸ hout)
    · exact h₂ (hready ▸ List.mem_append_left _ hr)
  · -- what is done is gone for good
    intro t' hlt hle e he hround
    obtain ⟨k, hk, rfl⟩ := exists_of_mem_issued al hnoted he hround
    rw [hissue k hk]
    obtain ⟨hq, hout, hseq⟩ := not_left_of_done al so hdone hk
    have hgone : (σ (t + 1)).coros (w.handle x.round k) = none := by
      refine al'.states.outlined.gone _ ?_
      have hne : w.oneHandle x.round + 1 + k ≠ w.oneHandle x.round := by omega
      simp [Phase.outline, handle, hne]
    have hstep := hrun.next t ht
    have hbase : Forgotten (σ (t + 1)) (w.handle x.round k) ∧
        w.handle x.round k ∉ (σ (t + 1)).world.outstanding := by
      refine ⟨⟨hseq.trans_le hstep.seq_le, hgone, fun hq' => ?_⟩, hworld ▸ hout⟩
      rcases hstep.calls _ hq' with hq' | hsome
      · exact hq hq'
      · rw [hgone] at hsome
        cases hsome
    have hrest : ∀ j, t + 1 + j ≤ n → Forgotten (σ (t + 1 + j)) (w.handle x.round k) ∧
        w.handle x.round k ∉ (σ (t + 1 + j)).world.outstanding := by
      intro j
      induction j with
      | zero => exact fun _ => hbase
      | succ j ih =>
        intro hj
        obtain ⟨hforgot, hno⟩ := ih (by omega)
        have hs := hrun.next (t + 1 + j) (by omega)
        refine ⟨hforgot.step hs, fun hh => ?_⟩
        rcases hs.outstanding hh with hh | hsome
        · exact hno hh
        · rw [hforgot.gone] at hsome
          cases hsome
    obtain ⟨hforgot, hno⟩ := hrest (t' - (t + 1)) (by omega)
    rw [show t + 1 + (t' - (t + 1)) = t' by omega] at hforgot hno
    exact ⟨hno, fun hr => hforgot.queued (List.mem_append_left _ hr)⟩
  · -- by itself it returns with every one awaited
    rintro v rfl
    obtain ⟨-, -, hall, -⟩ := hret
    intro c hc h hh ch hch
    by_contra hnf
    obtain ⟨k, hk, ha, -⟩ := left_of_not_done al so hfresh hc hh hch (by simpa using hnf)
    have := hx.made
    omega

/-! ## A failed post -/

/-- A round of two pages where the first post returns -11 and the second
succeeds. The exception of the first ends `WriteOne` while the second is in
flight, which then completes. -/
def failingActs : List (Act Fabric.Move) :=
  [.round 0, .resume, .exec 0, .exec 0, .round 0, .resume, .exec 0, .exec 0, .exec 0, .exec 0,
    .exec 0, .exec 0, .exec 0, .exec 0, .exec 0, .round 0, .env (.setRc (-11)), .resume,
    .env (.setRc 0), .resume, .round 0, .resume, .exec 0, .env (.place 3 []),
    .env (.complete 0 3 4)]

def failing : ℕ → Loop (Writer.Loc Loc) Counters ConnOp Fabric Val :=
  states efaWorld (code twoPages 1) Fabric.move (boot true (.write 0) {} quiet) failingActs

theorem failing_isRun :
    IsRun (Starts true (.write 0) {}) (Step efaWorld (code twoPages 1)) failing 25 :=
  isRun_states efaWorld_move (starts_quiet _ _ _) (by decide +kernel)

/-- The error that the first write ends with. -/
def failingError : Outcome Val :=
  .error (.runtimeError "fi_writemsg(conn->ep_, &msg, flags) fail. error(-11): ")

theorem failing_finishes :
    Finishes twoPages 1 1 (.drained 0 [3] failingError) failingError (failing 22) (failing 23) := by
  have hsome : ((boot true (.write 0) {} quiet).trace efaWorld (code twoPages 1) Fabric.move
      failingActs).isSome := by decide +kernel
  have hact : (failing 22).act efaWorld (code twoPages 1) Fabric.move (.exec 0) =
      some (failing 23) := act_states hsome (by decide : 22 < failingActs.length)
  exact ⟨⟨[], by decide +kernel⟩, rfl, 0, hact⟩

/-- **A write is left behind.** When the exception ends `WriteOne`, the second
write of the window is outstanding and its frame destroyed, and the `Select`
that takes its completion goes through the context in that frame. -/
theorem failing_leaves :
    IsRun (Starts true (.write 0) {}) (Step efaWorld (code twoPages 1)) failing 25 ∧
      Finishes twoPages 1 1 (.drained 0 [3] failingError) failingError (failing 22) (failing 23) ∧
      (∃ e ∈ (failing 22).mem.issued, e.round = 0 ∧ e.ctx ∈ (failing 23).world.outstanding) ∧
      Touched (failing 25) 3 ∧ ((failing 25).coros 3).isSome = false := by
  refine ⟨failing_isRun, failing_finishes, by decide +kernel, ?_, by decide +kernel⟩
  exact .handleCompletion { opContext := some 3, flags := { write := true }, len := 4 }
    ⟨by decide +kernel, by decide +kernel⟩ (by decide +kernel) (by decide +kernel)

/-- Its `Future` was not done. -/
theorem leftovers_iff_failing : ¬ AllDone (failing 22) 1 := by
  intro hdone
  have hclear := (leftovers_iff failing_isRun (by decide) failing_finishes).1.mpr hdone
  have hno := (hclear 23 (by decide) (by decide) ⟨0, 0, 1, 3⟩ (by decide +kernel) rfl).1
  exact hno (by decide +kernel)

end Batch

end EfaExamples
