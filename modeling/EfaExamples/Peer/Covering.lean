import EfaExamples.Peer.Running
/-!
# What a notification covers

The `WriteOne` of the `dmabuf` and `affinity` examples has every write
completed before it makes the next. So at most one is outstanding, and
whatever is copied to the target, all that comes before it in the order of
rounds, regions and pages has been copied.
-/

namespace EfaExamples

open Loop Writer

namespace Writer

variable {w : Writer}

/-- The order of the writes is that of rounds, regions and pages. -/
theorem position_le {r g i r' g' i' : ℕ} (hg : g' < w.peerRegions.length) (hi : i' < w.numPages)
    (hlt : r' < r ∨ r' = r ∧ (g' < g ∨ g' = g ∧ i' ≤ i)) :
    r' * w.total + (g' * w.numPages + i') ≤ r * w.total + (g * w.numPages + i) := by
  have hpos := w.position_lt (List.getElem?_eq_getElem hg) hi
  rcases hlt with hr | ⟨rfl, hg' | ⟨rfl, hi'⟩⟩
  · have := Nat.mul_le_mul_right w.total (Nat.succ_le_of_lt hr)
    rw [Nat.succ_mul] at this
    omega
  · have := Nat.mul_le_mul_right w.numPages (Nat.succ_le_of_lt hg')
    rw [Nat.succ_mul] at this
    omega
  · omega

end Writer

namespace Sequential

variable {w : Writer} {times : ℕ} {ph ph' : Phase Loc}
variable {s s' : Loop (Writer.Loc Loc) Counters ConnOp Fabric Val}

/-- Wherever `WriteOne` executes, it has awaited what it has made and scheduled. -/
theorem Here.awaited {l : Loc} {x : Window} (hh : Here w l x) : x.awaited = x.made := by
  cases l with
  | page r g i => exact hh.2.2.2.2.2.1
  | sent r g i region => exact hh.2.2.2.2.2.2.2.1
  | made r g i d | called r g i d => exact hh.2.2.2.2.2.2.2.2.1
  | resumed r g i d o => exact hh.2.2.2.2.2.2.1
  | counted r g i => exact hh.2.2.2.2.2.1

theorem inside_made_le (hok : ph.Ok w (Here w)) (hin : ph.Inside) :
    (ph.window w).made ≤ (ph.window w).awaited + 1 := by
  cases ph with
  | running x l => exact hok.2.awaited.ge.trans (Nat.le_succ _)
  | waiting x k => exact (hok.2.2.2.2 (.ok none)).awaited.ge
  | start | test r | made r | entered r | finished x o | back x o | ended x o seq => exact hin.elim

/-- All that has been scheduled, but for the last one, has returned. -/
def Tight (w : Writer) (ph : Phase Loc) : Prop := ph.given w ≤ (ph.window w).done w + 1

theorem Tight.of_running {x : Window} {l : Loc} (hh : Here w l x) : Tight w (.running x l) := by
  have ha := hh.awaited
  simp only [Tight, Phase.given, Phase.window, Window.done, ha]
  cases x.failed with
  | none =>
    simp only [Option.isSome_none, Bool.toNat_false]
    omega
  | some e =>
    simp only [Option.isSome_some, Bool.toNat_true]
    omega

/-- **A move keeps it.** -/
theorem Tight.step {res : ℕ → Outcome Val → Prop} (ht : Tight w ph)
    (hm : Phase.Move w (version w).entry (version w).one times res ph ph')
    (hok' : ph'.Ok w (Here w)) : Tight w ph' := by
  have henter : ∀ {r : ℕ} {ph : Phase Loc}, ph.window w = .enter w r → Tight w ph := by
    intro r ph hw
    simp [Tight, Phase.given, hw, Window.enter, Window.done]
  cases hm with
  | still => exact ht
  | start | call _ | stop _ | await | next => exact henter rfl
  | enter | step _ | make | launch _ | got _ _ _ | wake _ _ _ | pop _ => exact .of_running hok'.2
  | suspend | launchSuspend _ =>
    obtain ⟨-, -, hfail, -, hh⟩ := hok'
    have ha := (hh (.ok none)).awaited
    simp only [Window.got] at ha
    simp only [Tight, Phase.given, Phase.window, Window.done, hfail, Option.isSome_none,
      Bool.toNat_false]
    omega
  | finish _ | back | rethrow => exact ht

/-- **Along a run the loop is sound throughout.** -/
theorem sound_of_run {σ : ℕ → Loop (Writer.Loc Loc) Counters ConnOp Fabric Val} {n : ℕ}
    (hrun : IsRun (Starts true (.write 0) {}) (Step efaWorld (code w times)) σ n) :
    ∀ t ≤ n, ∃ ph, Along (version w) times ph (σ t) ∧
      Sound (ph.outline w (version w).entry) (σ t) ∧ Tight w ph := by
  refine hrun.invariant (fun s => ∃ ph, Along (version w) times ph s ∧
    Sound (ph.outline w (version w).entry) s ∧ Tight w ph) ?_ ?_
  · rintro s ⟨f, hf, hh, rfl⟩
    obtain ⟨al, so⟩ : Along (version w) times .start _ ∧ Sound _ _ := Along.start hf hh
    exact ⟨.start, al, so, by simp [Tight, Phase.given, Phase.window, Window.enter]⟩
  · rintro s s' ⟨ph, al, so, ht⟩ hs
    obtain ⟨ph', hm, al', -, hsound⟩ := al.step hs
    refine ⟨ph', al', hsound so fun x l e hx _ _ => ?_, ht.step hm al'.states.ok⟩
    have hok := al.states.ok
    rw [hx] at hok
    exact Here.awaited hok.2

/-- **A notification covers all earlier data.** In every run of the writer that
awaits each write, at most one write is outstanding, and when the write that
carries the immediate of a region is copied to the target, every page of every
earlier round, every page of the earlier regions of its round, and every other
page of its region has been copied. -/
theorem notification_covers {σ : ℕ → Loop (Writer.Loc Loc) Counters ConnOp Fabric Val} {n : ℕ}
    (hrun : IsRun (Starts true (.write 0) {}) (Step efaWorld (code w times)) σ n) :
    ∀ t ≤ n, (σ t).world.outstanding.length ≤ 1 ∧
      ∀ p ∈ (σ t).world.history.placed, p.1.req.carriesImm = true →
        ∃ r g, r < times ∧ g < w.peerRegions.length ∧
          p.1 = w.posting (w.write r g (w.numPages - 1)) ∧
          ∀ r' g' i', g' < w.peerRegions.length → i' < w.numPages →
            (r' < r ∨ r' = r ∧ g' ≤ g) →
            ∃ p' ∈ (σ t).world.history.placed, p'.1 = w.posting (w.write r' g' i') := by
  intro t ht
  obtain ⟨ph, al, so, htight⟩ := sound_of_run hrun t ht
  refine ⟨al.states.outstanding_le so (inside_made_le al.states.ok), fun p hp himm => ?_⟩
  obtain ⟨q, hq, hpq⟩ := al.posted p.1 (al.recorded.placed p hp)
  obtain ⟨r, g, i, hr, hg, hi, hwrite, hpos⟩ := exists_write (hq.trans_le al.within.given_le)
  rw [hwrite] at hpq
  have hlast : i = w.numPages - 1 := carriesImm_request.mp (hpq ▸ himm)
  refine ⟨r, g, hr, hg, hlast ▸ hpq, fun r' g' i' hg' hi' hlt => ?_⟩
  have hle : r' * w.total + (g' * w.numPages + i') ≤ q := by
    rw [hpos]
    refine position_le hg' hi' ?_
    omega
  rw [← issue_eq_write hg' hi']
  rcases hle.eq_or_lt with heq | hlt'
  · exact ⟨p, hp, by rw [heq, hwrite, hpq]⟩
  · -- an earlier write has returned, so it is copied
    have hdone : r' * w.total + (g' * w.numPages + i') < (ph.window w).done w := by
      have : ph.given w ≤ (ph.window w).done w + 1 := htight
      omega
    obtain ⟨⟨p', hp', hctx⟩, -⟩ := al.states.done _ hdone
    obtain ⟨q', -, hpq'⟩ := al.posted p'.1 (al.recorded.placed p' hp')
    rw [hpq'] at hctx
    rw [← ctx_inj hctx]
    exact ⟨p', hp', hpq'⟩

/-- A round of two pages, on a fabric that copies and completes each write before
it is asked for more. -/
def pages : ℕ → Loop (Writer.Loc Loc) Counters ConnOp Fabric Val :=
  states efaWorld (code twoPages 1) Fabric.move (boot true (.write 0) {} quiet)
    [.round 0, .resume, .exec 0, .exec 0, .round 0, .resume, .exec 0, .exec 0, .exec 0, .exec 0,
      .round 0, .resume, .env (.place 2 []), .env (.complete 0 2 4), .round 0, .resume, .round 0,
      .resume, .exec 0, .exec 0, .exec 0, .exec 0, .exec 0, .exec 0, .round 0, .resume,
      .env (.place 3 []), .env (.complete 0 3 4), .round 0, .resume, .round 0, .resume, .exec 0,
      .exec 0, .exec 0, .exec 0, .round 0, .resume, .exec 0, .exec 0]

theorem pages_isRun :
    IsRun (Starts true (.write 0) {}) (Step efaWorld (code twoPages 1)) pages 40 :=
  isRun_states efaWorld_move (starts_quiet _ _ _) (by decide +kernel)

/-- The second page's write carries the immediate, and the first page's is copied
before it. -/
theorem notification_covers_pages : (pages 27).world.outstanding.length ≤ 1 ∧
    ∃ p' ∈ (pages 27).world.history.placed, p'.1 = twoPages.posting (twoPages.write 0 0 0) := by
  have h := notification_covers pages_isRun 27 (by decide)
  have hp : ((⟨3, .write 4000 4 1 504 7 291 true⟩, [0, 0, 0, 0]) : Posted × List UInt8) ∈
      (pages 27).world.history.placed := by decide +kernel
  obtain ⟨r, g, hr, hg, -, hall⟩ := h.2 _ hp rfl
  exact ⟨h.1, hall 0 0 0 (by decide) (by decide) (by omega)⟩

end Sequential

end EfaExamples
