import EfaExamples.Common.Numbering
import EfaExamples.Coro.Starts
import EfaExamples.Peer.Counting
import EfaExamples.Peer.Covering
/-!
# The order of the posts

While every post succeeds, no `WriteOne` ends by an exception, and what has
been posted are the first writes of all rounds: those scheduled and not begun
stand in `ready_` in order, and behind everything posted.
-/

namespace EfaExamples

open Loop

/-- A write of some bytes does not throw while posts succeed. -/
theorem Writer.not_throws {w : Writer} {f : Fabric} (hsz : 0 < w.pageSize) (hrc : f.rc = 0)
    (k h : ℕ) : ¬ efaWorld.Throws (w.op k) h f := by
  have henter : (w.op k).enter f = .ok f := if_neg hsz.ne'
  rintro (⟨e, he⟩ | ⟨y, e, z, hy, hp⟩)
  · rw [show efaWorld.enter (w.op k) f = _ from henter] at he
    cases he
  · rw [show efaWorld.enter (w.op k) f = _ from henter, Except.ok.injEq] at hy
    subst hy
    have hpost : (w.op k).post h f = f.submit (w.op k).call ⟨h, _⟩ := rfl
    rw [show efaWorld.post (w.op k) h f = _ from hpost, Fabric.submit, if_pos hrc] at hp
    cases hp

/-- The completion of a write is not an error to it. -/
theorem Writer.value_op {w : Writer} {k : ℕ} {req : Request} {e : Entry}
    (hreq : (w.op k).request = some req) (he : e.flags = req.flags) :
    ∃ val, (w.op k).value e = .ok val := by
  have hreq : w.request _ _ = req := Option.some.inj hreq
  have hw : e.flags.write = true := by
    rw [he, ← hreq]
    rfl
  exact ⟨_, if_pos hw⟩

namespace Writer

variable {I : Type} {w : Writer} {v : Version w I} {ph ph' : Phase I} {times : ℕ}
variable {s s' : Loop (Loc I) Counters ConnOp Fabric Val} {h : ℕ}

/-- **As long as every post succeeds.** -/
structure InOrder (v : Version w I) (times : ℕ) (ph : Phase I)
    (s : Loop (Loc I) Counters ConnOp Fabric Val) : Prop where
  along : Along v times ph s
  sound : Sound (ph.outline w v.entry) s
  fine : ¬ ph.Failing
  failed : (ph.window w).failed = none
  clean : ∀ h a, (ph.outline w v.entry).role h = some (.leaf a) → ∀ c, s.coros h = some c →
    c.point.isFinal = true → ∃ val, c.get = .ok val
  order : (s.world.history.posted.map Posted.ctx ++ s.line).Pairwise (· < ·)
  begun : ∀ p ∈ s.world.history.posted, p.ctx < s.seq ∧ s.unstarted p.ctx = false

namespace Phase

/-- The writes that have been made and not awaited are the connection's coroutines. -/
theorem role_of_inside {entry : ℕ → I} {Here : I → Window → Prop} {k : ℕ} (hok : ph.Ok w Here)
    (hin : ph.Inside) (ha : (ph.window w).awaited ≤ k) (hk : k < (ph.window w).made) :
    (ph.outline w entry).role (w.handle (ph.window w).round k) = some (.leaf (w.op k)) := by
  cases ph with
  | running x l | waiting x k' =>
    have hp := hok.1.popped
    simp only [window] at ha hk
    simp only [outline, Window.outline, window]
    rw [Window.role_handle, if_neg (by omega), if_neg (by omega), if_pos hk]
  | start | test r | made r | entered r | finished x o | back x o | ended x o seq => exact hin.elim

/-- Outside of `WriteOne`, everything scheduled has returned. -/
theorem given_le_done {Here : I → Window → Prop} (hok : ph.Ok w Here) (hfine : ¬ ph.Failing)
    (hw : ph.Within w times) (hin : ¬ ph.Inside) : ph.given w ≤ (ph.window w).done w := by
  cases ph with
  | start | test r | made r | entered r => simp [given, window, Window.done, Window.enter]
  | running x l | waiting x k => exact absurd trivial hin
  | finished x o | back x o =>
    cases o with
    | ok val =>
      obtain ⟨hx, -, -, -, hfail, hall, -⟩ := hok
      have := hx.made
      simp only [given, window, Window.done, hfail, Option.isSome_none, Bool.toNat_false]
      omega
    | error e => exact absurd trivial hfine
  | ended x o seq =>
    cases o with
    | ok val =>
      rw [given, window, show x = _ from hw]
      simp [Window.done, Window.enter]
    | error e => exact absurd trivial hfine

end Phase

/-- **Who has not begun** is a write in `ready_`, or the one made last. -/
theorem unstarted_cases (al : Along v times ph s) (t : Table none s) (hu : s.unstarted h = true) :
    (h ∈ s.ready ∧ ∃ q < ph.given w, h = (w.issue q).ctx) ∨ h = (w.issue (ph.given w)).ctx := by
  obtain ⟨c, a, hc, hp⟩ := unstarted_iff.mp hu
  obtain ⟨r, hr, hfit⟩ := al.states.outlined.fits hc
  rcases hfit.of_initialIo hp with rfl | rfl
  · right
    cases ph with
    | running x l =>
      obtain ⟨-, hb⟩ | ⟨-, hb⟩ | ⟨k, rfl, -, ⟨-, hb⟩ | ⟨-, -, hb⟩ | ⟨hfresh, rfl, -⟩⟩ :=
        Window.role_cases hr
      · cases hb
      · cases hb
      · cases hb
      · cases hb
      · rw [Phase.given, Phase.window, w.issue_add (al.states.ok.1.fresh hfresh)]
    | waiting x k =>
      obtain ⟨-, hb⟩ | ⟨-, hb⟩ | ⟨k, rfl, -, ⟨-, hb⟩ | ⟨-, -, hb⟩ | ⟨hfresh, -, -⟩⟩ :=
        Window.role_cases hr
      · cases hb
      · cases hb
      · cases hb
      · cases hb
      · rw [al.states.ok.2.1] at hfresh
        cases hfresh
    | start | test r | made r | entered r | finished x o | back x o | ended x o seq =>
      simp only [Phase.outline] at hr
      grind
  · left
    obtain ⟨hin, k, -, rfl, -, hk⟩ := Phase.leaf_cases hr
    have htotal := hk.trans_le (Phase.made_le al.states.ok hin)
    have hst : c.state = .kScheduled := by
      rcases hfit.1 with ⟨-, hst⟩ | hio | hf
      · exact hst
      · rw [hp] at hio
        cases hio
      · rw [hp] at hf
        cases hf
    refine ⟨?_, (ph.window w).round * w.total + k, Nat.add_lt_add_left hk _, by
      rw [w.issue_add htotal]⟩
    have hmem : w.handle (ph.window w).round k ∈ s.queued :=
      ((t.scheduler).scheduled_iff _ c hc).mp hst
    rwa [al.states.queued_eq t] at hmem

/-- What has not begun is a write. -/
theorem op_of_unstarted (al : Along v times ph s) {c : Coro (Loc I) ConnOp Val} {a : ConnOp}
    (hc : s.coros h = some c) (hp : c.point = .initialIo a) : ∃ k, a = w.op k := by
  obtain ⟨r, hr, hfit⟩ := al.states.outlined.fits hc
  rcases hfit.of_initialIo hp with rfl | rfl
  · cases ph with
    | running x l | waiting x k =>
      obtain ⟨-, hb⟩ | ⟨-, hb⟩ | ⟨k, -, -, ⟨-, hb⟩ | ⟨-, -, hb⟩ | ⟨-, -, hb⟩⟩ := Window.role_cases hr
      · cases hb
      · cases hb
      · cases hb
      · cases hb
      · exact ⟨k, Role.fresh.inj hb⟩
    | start | test r | made r | entered r | finished x o | back x o | ended x o seq =>
      simp only [Phase.outline] at hr
      grind
  · obtain ⟨-, k, hk, -⟩ := Phase.leaf_cases hr
    exact ⟨k, hk⟩

namespace InOrder

/-! ## What is posted and what is not -/

/-- **What has been scheduled is posted, or has not begun.** -/
theorem posted_or_unstarted (io : InOrder v times ph s) {q : ℕ} (hq : q < ph.given w) :
    w.posting (w.issue q) ∈ s.world.history.posted ∨ s.unstarted (w.issue q).ctx = true := by
  -- the post of a context that is on record is the one of its write
  have hctx : (∃ p ∈ s.world.history.posted, p.ctx = (w.issue q).ctx) →
      w.posting (w.issue q) ∈ s.world.history.posted := by
    rintro ⟨p, hp, hpq⟩
    obtain ⟨q', -, hq'⟩ := io.along.posted p hp
    rw [hq'] at hpq
    rw [← ctx_inj hpq, ← hq']
    exact hp
  have hplaced : s.world.Placed (w.issue q).ctx → w.posting (w.issue q) ∈ s.world.history.posted := by
    rintro ⟨p, hp, hpq⟩
    exact hctx ⟨p.1, io.along.recorded.placed p hp, hpq⟩
  rcases Nat.lt_or_ge q ((ph.window w).done w) with hlt | hge
  · exact Or.inl (hplaced (io.along.states.done q hlt).1)
  · have hin : ph.Inside := by
      by_contra hin
      have := Phase.given_le_done io.along.states.ok io.fine io.along.within hin
      omega
    have hdone : (ph.window w).done w = (ph.window w).round * w.total + (ph.window w).awaited := by
      simp [Window.done, io.failed]
    rw [Phase.given] at hq
    obtain ⟨k, rfl⟩ : ∃ k, q = (ph.window w).round * w.total + k :=
      Nat.exists_eq_add_of_le (by omega)
    have hk : k < w.total := by
      have := Phase.made_le io.along.states.ok hin
      omega
    have hh : (w.issue ((ph.window w).round * w.total + k)).ctx = w.handle (ph.window w).round k := by
      rw [w.issue_add hk]
    have hrole : (ph.outline w v.entry).role (w.handle (ph.window w).round k) =
        some (.leaf (w.op k)) :=
      Phase.role_of_inside io.along.states.ok hin (by omega) (by omega)
    rw [← hh] at hrole
    obtain ⟨c, hc, hfit, -⟩ := io.along.states.outlined.role _ _ hrole
    rcases hfit with ⟨hp, -⟩ | hp | hp
    · exact Or.inr (unstarted_iff.mpr ⟨c, _, hc, hp⟩)
    · left
      have hop : s.op _ = some (w.op k, c.state) := op_eq_some.mpr ⟨c, hc, hp, rfl⟩
      have hreq := request_op hk (ph.window w).round
      cases hst : c.state with
      | kUnschedule => exact absurd hst (io.sound.table.state_of_op hc hp).1
      | kSuspend =>
        rw [hst] at hop
        exact hctx (io.along.recorded.outstanding _
          (io.sound.contexts.waiting _ _ hop (by simp [hreq])))
      | kScheduled =>
        rw [hst] at hop
        exact hplaced ((io.sound.contexts.delivered _ _ hop).2.2.2 _ hreq).2
    · left
      have hf : c.point.isFinal = true := by
        rw [hp]
        rfl
      obtain ⟨val, hval⟩ := io.clean _ _ hrole c hc hf
      exact hplaced (io.sound.returned _ _ hrole c hc hf val hval (Phase.op_request k)).1

/-- **What has been posted are the first writes.** -/
theorem posted_eq (io : InOrder v times ph s) : s.world.history.posted =
    (List.range s.world.history.posted.length).map fun q => w.posting (w.issue q) := by
  obtain ⟨qs, hqs⟩ := exists_map_of_forall_exists (f := fun q => w.posting (w.issue q))
    (l := s.world.history.posted) fun p hp =>
      let ⟨q, _, hq⟩ := io.along.posted p hp
      ⟨q, hq⟩
  have hgiven : ∀ q ∈ qs, q < ph.given w := by
    intro q hq
    obtain ⟨q', hlt, he⟩ := io.along.posted (w.posting (w.issue q))
      (hqs ▸ List.mem_map_of_mem (f := fun q => w.posting (w.issue q)) hq)
    rwa [ctx_inj (congrArg Posted.ctx he)]
  obtain ⟨hsorted, -, hline⟩ := List.pairwise_append.mp io.order
  have hlt : qs.Pairwise (· < ·) := by
    rw [hqs, List.map_map, List.pairwise_map] at hsorted
    refine hsorted.imp fun {a b} hab => lt_of_not_ge fun hba => ?_
    rcases hba.eq_or_lt with rfl | hba
    · exact lt_irrefl _ hab
    · exact lt_asymm hab (ctx_lt hba)
  have hdown : ∀ a ∈ qs, ∀ b < a, b ∈ qs := by
    intro a ha b hb
    have hmem := hqs ▸ List.mem_map_of_mem (f := fun q => w.posting (w.issue q)) ha
    rcases io.posted_or_unstarted (hb.trans (hgiven a ha)) with hp | hu
    · rw [hqs] at hp
      obtain ⟨b', hb', he⟩ := List.mem_map.mp hp
      rwa [← ctx_inj (congrArg Posted.ctx he)]
    · -- who has not begun comes after everything posted
      have hready : (w.issue b).ctx ∈ s.ready := by
        rcases unstarted_cases io.along io.sound.table hu with ⟨hr, -⟩ | he
        · exact hr
        · have := ctx_inj he
          have := hgiven a ha
          omega
      have hafter := hline _ (List.mem_map_of_mem (f := Posted.ctx) hmem) _
        (List.mem_filter.mpr ⟨hready, hu⟩)
      exact absurd hafter (lt_asymm (ctx_lt hb))
  have hrange := eq_range_of_pairwise_lt hlt hdown
  rw [hqs, List.length_map, ← hrange]

/-! ## One step -/

/-- **Whoever begins posts.** -/
theorem posts_of_front (io : InOrder v times ph s) (hsz : 0 < w.pageSize) (hrc : s.world.rc = 0)
    {c : Coro (Loc I) ConnOp Val} (hc : s.coros h = some c) (hf : FrontStep efaWorld s s' h c)
    (hi : c.point.isInitialIo = true) : s'.unstarted h = false ∧
      ∃ req, s'.world.history.posted = s.world.history.posted ++ [⟨h, req⟩] := by
  have hthrow : ∀ a, c.point = .initialIo a → ¬ efaWorld.Throws a h s.world := by
    intro a hp
    obtain ⟨k, rfl⟩ := op_of_unstarted io.along hc hp
    exact not_throws hsz hrc k h
  cases hf with
  | idle _ hn _ _ =>
    cases hp : c.point with
    | initialIo a => exact absurd hp (hn a)
    | _ => rw [hp] at hi; cases hi
  | refused a e hp henter _ _ => exact absurd (Or.inl ⟨e, henter⟩) (hthrow a hp)
  | failed a e x hp henter hpost _ => exact absurd (Or.inr ⟨x, e, _, henter, hpost⟩) (hthrow a hp)
  | posted a x hp henter hpost hop =>
    obtain ⟨mem, rfl⟩ := ConnOp.enter_ok henter
    obtain ⟨k, rfl⟩ := op_of_unstarted io.along hc hp
    obtain ⟨c', hc', hio, -⟩ := op_eq_some.mp hop
    refine ⟨by rw [unstarted_of_coros hc', hio]; rfl, ?_⟩
    rcases ConnOp.post_ok (show (w.op k).post h _ = (none, s'.world) from hpost) with
      ⟨req, -, hx⟩ | ⟨hn, -⟩
    · exact ⟨req, by rw [hx]⟩
    · exact absurd hn (Phase.op_request k)
  | ended a hp _ _ =>
    rw [hp] at hi
    cases hi

/-- No body awaits whoever executes. -/
theorem not_running (io : InOrder v times ph s) : ∀ me l rest h k, s.stack = (me, l) :: rest →
    v.code times l = .await h k → h ∉ s.running :=
  fun _ _ _ _ _ hstack hop => io.along.states.awaiting_not_running _ (awaiting_eq hstack hop)

/-- **What comes back comes back with a value.** -/
theorem clean_step (io : InOrder v times ph s) (hs : Step efaWorld (v.code times) s s')
    (hsz : 0 < w.pageSize) (hrc : s.world.rc = 0)
    (hleaves : (ph.outline w v.entry).Leaves (ph'.outline w v.entry)) {a : ConnOp}
    (ha : (ph'.outline w v.entry).role h = some (.leaf a)) {c' : Coro (Loc I) ConnOp Val}
    (hc' : s'.coros h = some c') (hf' : c'.point.isFinal = true) : ∃ val, c'.get = .ok val := by
  have t := io.sound.table
  obtain ⟨c, hc, hpoint⟩ : ∃ c, s.coros h = some c ∧ (c.point = .initialIo a ∨ c.point = .io a ∨
      c.point = .final ∧ (ph.outline w v.entry).role h = some (.leaf a)) := by
    rcases hleaves h a ha with hl | hl
    · obtain ⟨c, hc, hfit, -⟩ := io.along.states.outlined.role h _ hl
      exact ⟨c, hc, hfit.imp And.left (Or.imp_right fun hp => ⟨hp, hl⟩)⟩
    · obtain ⟨c, hc, hfit⟩ := io.along.states.outlined.role h _ hl
      exact ⟨c, hc, Or.inl hfit.1⟩
  have hkind : c.point = .initialIo a ∨ c.point = .io a ∨ c.point = .final :=
    hpoint.imp_right (Or.imp_right And.left)
  rcases (hs.row t io.not_running hc hc').leaf_done t hc hkind hf' with
    ⟨hp, hget⟩ | ⟨hp, hthrow, -⟩ | ⟨hsch, hval⟩
  · -- what was done came back with one
    rcases hpoint with hp' | hp' | ⟨-, hl⟩
    · rw [hp] at hp'
      cases hp'
    · rw [hp] at hp'
      cases hp'
    · rw [← hget]
      exact io.clean h a hl c hc (by rw [hp]; rfl)
  · obtain ⟨k, rfl⟩ := op_of_unstarted io.along hc hp
    exact absurd hthrow (not_throws hsz hrc k h)
  · obtain ⟨-, k, rfl, -⟩ := io.along.states.op_eq hsch
    obtain ⟨req, hreq⟩ := Option.ne_none_iff_exists'.mp (Phase.op_request (w := w) k)
    have hflags := ((io.sound.contexts.delivered h _ hsch).2.2.2 req hreq).1
    obtain ⟨val, hv⟩ := value_op hreq hflags
    exact ⟨val, hval.trans hv⟩

/-- What a step posts is of the front of `ready_`. -/
theorem unstarted_of_posts {a : ConnOp} {req : Request} (hp : Posts s s' h a req) :
    s.unstarted h = true ∧ s'.unstarted h = false := by
  obtain ⟨c, hc, hpt⟩ := hp.point
  obtain ⟨c', hc', hio, -⟩ := op_eq_some.mp hp.suspended
  exact ⟨unstarted_iff.mpr ⟨c, a, hc, hpt⟩, by rw [unstarted_of_coros hc', hio]; rfl⟩

/-- **The posts and the queue stay in order.** -/
theorem order_step (io : InOrder v times ph s) (hs : Step efaWorld (v.code times) s s')
    (hsz : 0 < w.pageSize) (hrc : s.world.rc = 0) (t' : Table none s')
    (hgone : ∀ h, s.unstarted h = true → s'.coros h ≠ none) :
    (s'.world.history.posted.map Posted.ctx ++ s'.line).Pairwise (· < ·) := by
  have t := io.sound.table
  obtain ⟨new, hnodup, hnew, hcases⟩ := line_step t hs io.not_running t' hgone fun h c hc hf hi =>
    (io.posts_of_front hsz hrc hc hf hi).1
  -- whoever is scheduled now is the write made last
  have hlast : ∀ d ∈ new, d = (w.issue (ph.given w)).ctx := by
    intro d hd
    obtain ⟨hu, hn⟩ := hnew d hd
    exact (unstarted_cases io.along t hu).resolve_left fun hr => hn hr.1
  have hall : ((s.world.history.posted.map Posted.ctx ++ s.line) ++ new).Pairwise (· < ·) := by
    refine List.pairwise_append.mpr ⟨io.order, ?_, fun i hi d hd => ?_⟩
    · refine hnodup.pairwise_of_forall_ne fun a ha b hb hab => absurd ?_ hab
      rw [hlast a ha, hlast b hb]
    · have hlt : ∀ q < ph.given w, i = (w.issue q).ctx → i < d := by
        rintro q hq rfl
        rw [hlast d hd]
        exact ctx_lt hq
      rcases List.mem_append.mp hi with hi | hi
      · obtain ⟨p, hp, rfl⟩ := List.mem_map.mp hi
        obtain ⟨q, hq, he⟩ := io.along.posted p hp
        exact hlt q hq (by rw [he]; rfl)
      · obtain ⟨hr, hu⟩ := List.mem_filter.mp hi
        rcases unstarted_cases io.along t hu with ⟨-, q, hq, he⟩ | he
        · exact hlt q hq he
        · rw [he, ← hlast d hd] at hr
          exact absurd hr (hnew d hd).2
  rcases hcases with hline | ⟨h, q, rest, c, hready, hc, hline, hline', hfront⟩
  · -- nobody has begun, so nothing is posted
    rcases hs.posted_cases with hp | ⟨h, a, req, hposts⟩
    · rw [hp, hline, ← List.append_assoc]
      exact hall
    · obtain ⟨hu, hu'⟩ := unstarted_of_posts hposts
      obtain ⟨q, hready⟩ := hposts.ready
      have hmem : h ∈ s'.line := by
        rw [hline]
        exact List.mem_append_left _ (List.mem_filter.mpr ⟨by simp [hready], hu⟩)
      rw [(List.mem_filter.mp hmem).2] at hu'
      cases hu'
  · have hi : c.point.isInitialIo = true := by
      rw [← unstarted_of_coros hc]
      exact (List.mem_filter.mp (hline ▸ List.mem_cons_self : h ∈ s.line)).2
    obtain ⟨-, req, hp⟩ := io.posts_of_front hsz hrc hc hfront hi
    rw [hline] at hall
    rw [hp, hline', List.map_append, List.map_singleton]
    simpa [List.append_assoc] using hall

/-- **What is dropped is done.** -/
theorem final_of_gone (io : InOrder v times ph s)
    (hm : Phase.Move w v.entry v.one times s.DoneWith ph ph') (al' : Along v times ph' s')
    (hfine : ¬ ph'.Failing) :
    ∀ h c, s.coros h = some c → s'.coros h = none → c.point.isFinal = true := by
  refine io.along.states.final_of_gone al'.states.outlined ?_
  refine (hm.dropped io.along.states.ok al'.states.ok).resolve_left ?_
  rintro ⟨x, l, e, -, -, rfl⟩
  exact hfine trivial

/-- **One step**, which destroys only what is done. -/
theorem step (io : InOrder v times ph s) (hs : Step efaWorld (v.code times) s s')
    (hsz : 0 < w.pageSize) (hrc : s.world.rc = 0) : ∃ ph', InOrder v times ph' s' ∧
      ∀ h c, s.coros h = some c → s'.coros h = none → c.point.isFinal = true := by
  obtain ⟨ph', hm, al', hleaves, hsound⟩ := io.along.step hs
  have t := io.sound.table
  -- no write has come back with an exception
  have hgot : ∀ {x : Window} {o : Outcome Val}, x.Ok w → ph.Inside → ph.window w = x →
      x.awaited < x.made → s.DoneWith (w.handle x.round x.awaited) o → (x.got o).failed = none := by
    rintro x o hx hin rfl hlt ⟨c, hc, hf, rfl⟩
    obtain ⟨val, hval⟩ := io.clean _ _
      (Phase.role_of_inside io.along.states.ok hin le_rfl hlt) c hc hf
    rw [hval]
    rfl
  have hfailed : (ph'.window w).failed = none := by
    cases hm with
    | got _ hlt hres => exact hgot io.along.states.ok.1 trivial rfl hlt hres
    | wake _ hlt hres => exact hgot io.along.states.ok.1 trivial rfl hlt hres
    | step hsame => exact hsame.failed.trans io.failed
    | start | call _ | stop _ | await | enter | next => rfl
    | still | make | launch _ | suspend | launchSuspend _ | pop _ | finish _ | back | rethrow =>
      exact io.failed
  have hfine : ¬ ph'.Failing := by
    intro hf
    cases hm with
    | @finish x l o _ | @back x o =>
      cases o with
      | ok val => exact hf
      | error e =>
        have := al'.states.ok.2.2.2
        rw [show x.failed = none from hfailed] at this
        cases this
    | still => exact io.fine hf
    | rethrow => exact io.fine trivial
    | start | call _ | stop _ | await | enter | step _ | make | launch _ | got _ _ _ | suspend
    | launchSuspend _ | wake _ _ _ | pop _ | next => exact hf
  have so' : Sound (ph'.outline w v.entry) s' := by
    refine hsound io.sound fun x l e _ _ he => ?_
    subst he
    exact absurd trivial hfine
  have hdone := io.final_of_gone hm al' hfine
  refine ⟨ph', ⟨al', so', hfine, hfailed, fun h a ha c hc hf =>
    io.clean_step hs hsz hrc hleaves ha hc hf,
    io.order_step hs hsz hrc so'.table fun h hu hg => ?_, fun p hp => ?_⟩, hdone⟩
  · -- who has not begun is not dropped
    obtain ⟨c, a, hc, hp⟩ := unstarted_iff.mp hu
    have hf := hdone h c hc hg
    rw [hp] at hf
    cases hf
  · have hseq := hs.seq_le
    have hold : p ∈ s.world.history.posted → p.ctx < s'.seq ∧ s'.unstarted p.ctx = false := by
      intro hp
      obtain ⟨hlt, hu⟩ := io.begun p hp
      refine ⟨hlt.trans_le hseq, ?_⟩
      by_contra hu'
      rcases unstarted_of_step t hs io.not_running (by simpa using hu') with hu₁ | ⟨hn, c', hc', -⟩
      · rw [hu] at hu₁
        cases hu₁
      · have := (hs.fresh_row hn hc').1
        omega
    rcases hs.posted_cases with he | ⟨h, a, req, hposts⟩
    · exact hold (he ▸ hp)
    · obtain ⟨hu, hu'⟩ := unstarted_of_posts hposts
      rw [hposts.posted] at hp
      rcases List.mem_append.mp hp with hp | hp
      · exact hold hp
      · rw [List.mem_singleton.mp hp]
        obtain ⟨c, a, hc, -⟩ := unstarted_iff.mp hu
        exact ⟨(t.fresh h c hc).trans_le hseq, hu'⟩

end InOrder

/-! ## The requests of a run -/

variable {σ : ℕ → Loop (Loc I) Counters ConnOp Fabric Val} {n : ℕ}

/-- Before `Write` begins. -/
theorem InOrder.start {f : Fabric} (hf : f.Idle) (hh : f.history = {}) :
    InOrder v times .start (boot true (.write 0) {} f) := by
  obtain ⟨al, so⟩ : Along v times .start _ ∧ Sound _ _ := Along.start hf hh
  have hposted : (boot true (Loc.write 0 : Loc I) ({} : Counters) f :
      Loop _ _ ConnOp _ Val).world.history.posted = [] := by
    rw [boot_eq]
    show f.history.posted = []
    rw [hh]
  refine ⟨al, so, id, rfl, fun h a ha => ?_, ?_, fun p hp => ?_⟩
  · simp only [Phase.outline] at ha
    split at ha <;> cases ha
  · rw [hposted, boot_eq]
    exact List.Pairwise.nil
  · rw [hposted] at hp
    cases hp

/-- **While every post succeeds the run is in order.** -/
theorem in_order_of_run
    (hrun : IsRun (Starts true (.write 0) {}) (Step efaWorld (v.code times)) σ n)
    (hrc : ∀ t ≤ n, (σ t).world.rc = 0) (hsz : 0 < w.pageSize) :
    ∀ t ≤ n, ∃ ph, InOrder v times ph (σ t) := by
  refine hrun.invariant_of_guard (fun s => ∃ ph, InOrder v times ph s) (fun s _ => s.world.rc = 0)
    ?_ ?_ fun t ht => hrc t ht.le
  · rintro s ⟨f, hf, hh, rfl⟩
    exact ⟨.start, .start hf hh⟩
  · rintro s s' ⟨ph, io⟩ hs hrc
    obtain ⟨ph', io', -⟩ := io.step hs hsz hrc
    exact ⟨ph', io'⟩

/-- **What is posted** along such a run: the first requests, and all of them when
`Write` has ended. -/
theorem requests_of_run
    (hrun : IsRun (Starts true (.write 0) {}) (Step efaWorld (v.code times)) σ n)
    (hrc : ∀ t ≤ n, (σ t).world.rc = 0) (hsz : 0 < w.pageSize) {t : ℕ} (ht : t ≤ n) :
    (σ t).world.requests <+: w.requests times ∧
      ∀ c, (σ t).coros 0 = some c → c.point.isFinal = true →
        (σ t).world.requests = w.requests times := by
  obtain ⟨ph, io⟩ := in_order_of_run hrun hrc hsz t ht
  set m := (σ t).world.history.posted.length with hm
  have hreq : (σ t).world.requests =
      (List.range m).map fun q => (w.posting (w.issue q)).req := by
    rw [Fabric.requests, io.posted_eq, List.map_map]
    rfl
  have hle : m ≤ ph.given w := by
    by_contra hlt
    have hmem : w.posting (w.issue (ph.given w)) ∈ (σ t).world.history.posted := by
      rw [io.posted_eq]
      exact List.mem_map_of_mem (f := fun q => w.posting (w.issue q))
        (List.mem_range.mpr (by omega))
    obtain ⟨q, hq, he⟩ := io.along.posted _ hmem
    have := ctx_inj (congrArg Posted.ctx he)
    omega
  have hwithin := io.along.within.given_le
  refine ⟨?_, fun c hc hf => ?_⟩
  · rw [hreq, requests_eq]
    refine List.IsPrefix.map _ ?_
    rw [show times * w.total = m + (times * w.total - m) by omega, List.range_add]
    exact List.prefix_append _ _
  · obtain ⟨r, hr, hfit⟩ := io.along.states.outlined.fits hc
    rcases Phase.role_zero hr with ⟨p, ls, rfl⟩ | ⟨x, o, seq, rfl, rfl⟩
    · rw [hfit.1, hfit.2.2.1] at hf
      cases hf
    · cases o with
      | error e => exact absurd trivial io.fine
      | ok val =>
        have hx : x = .enter w times := io.along.within
        have hgiven : (Phase.ended x (.ok val) seq : Phase I).given w = times * w.total := by
          rw [Phase.given, Phase.window, hx]
          rfl
        -- nothing is left that has not begun
        have hall : times * w.total ≤ m := by
          by_contra hlt
          rcases io.posted_or_unstarted (q := m) (by omega) with hp | hu
          · rw [io.posted_eq] at hp
            obtain ⟨q, hq, he⟩ := List.mem_map.mp hp
            have := ctx_inj (congrArg Posted.ctx he)
            rw [List.mem_range] at hq
            omega
          · obtain ⟨c', a, hc', hp⟩ := unstarted_iff.mp hu
            obtain ⟨r, hr, hfit⟩ := io.along.states.outlined.fits hc'
            simp only [Phase.outline] at hr
            rcases hfit.of_initialIo hp with rfl | rfl <;> split at hr <;> cases hr
        rw [hreq, requests_eq, show m = times * w.total by omega]

/-- Pages of no bytes are never posted. -/
theorem requests_nil_of_run
    (hrun : IsRun (Starts true (.write 0) {}) (Step efaWorld (v.code times)) σ n)
    (hsz : w.pageSize = 0) : ∀ t ≤ n, (σ t).world.requests = [] := by
  have hposted : ∀ t ≤ n, ∃ ph, Along v times ph (σ t) ∧ (σ t).world.history.posted = [] := by
    refine along_invariant (fun _ s => s.world.history.posted = []) hrun (fun f _ hh => ?_)
      fun ph ph' s s' hp al hs _ _ => ?_
    · rw [boot_world, hh]
    · rcases hs.posted_cases with he | ⟨h, a, req, hposts⟩
      · exact he.trans hp
      · obtain ⟨c, hc, hpt⟩ := hposts.point
        obtain ⟨k, rfl⟩ := op_of_unstarted al hc hpt
        obtain ⟨f, henter⟩ := hposts.enter
        have hthrow : (w.op k).enter s.world = .error _ := if_pos hsz
        rw [hthrow] at henter
        cases henter
  intro t ht
  obtain ⟨ph, -, hp⟩ := hposted t ht
  rw [Fabric.requests, hp, List.map_nil]

end Writer

/-! ## The two versions -/

/-- **The pipeline issues the same writes as the sequential writer.** Whatever runs
the two make, as long as every post succeeds: each posts a beginning of one list
of requests, which has one request for every page of every region in every round,
in this order, and the immediate on the last page of each region; and when both
have ended they have posted the same, which is the whole list unless pages have
no bytes. -/
theorem Batch.same_requests {w : Writer} {times : ℕ}
    {σ : ℕ → Loop (Writer.Loc Batch.Loc) Writer.Counters ConnOp Fabric Val} {n : ℕ}
    {τ : ℕ → Loop (Writer.Loc Sequential.Loc) Writer.Counters ConnOp Fabric Val} {m : ℕ}
    (hσ : IsRun (Starts true (.write 0) {}) (Step efaWorld (Batch.code w times)) σ n)
    (hτ : IsRun (Starts true (.write 0) {}) (Step efaWorld (Sequential.code w times)) τ m)
    (hrcσ : ∀ t ≤ n, (σ t).world.rc = 0) (hrcτ : ∀ t ≤ m, (τ t).world.rc = 0) :
    (∀ t ≤ n, (σ t).world.requests <+: w.requests times) ∧
      (∀ t ≤ m, (τ t).world.requests <+: w.requests times) ∧
      (∀ region i, (w.request region i).carriesImm = true ↔ i = w.numPages - 1) ∧
      ∀ c c', (σ n).coros 0 = some c → c.point.isFinal = true →
        (τ m).coros 0 = some c' → c'.point.isFinal = true →
        (σ n).world.requests = (τ m).world.requests ∧
          (0 < w.pageSize → (σ n).world.requests = w.requests times) := by
  refine ⟨fun t ht => ?_, fun t ht => ?_, fun region i => Writer.carriesImm_request,
    fun c c' hc hf hc' hf' => ?_⟩
  · rcases Nat.eq_zero_or_pos w.pageSize with hsz | hsz
    · rw [Writer.requests_nil_of_run (v := Batch.version w) hσ hsz t ht]
      exact List.nil_prefix
    · exact (Writer.requests_of_run (v := Batch.version w) hσ hrcσ hsz ht).1
  · rcases Nat.eq_zero_or_pos w.pageSize with hsz | hsz
    · rw [Writer.requests_nil_of_run (v := Sequential.version w) hτ hsz t ht]
      exact List.nil_prefix
    · exact (Writer.requests_of_run (v := Sequential.version w) hτ hrcτ hsz ht).1
  · rcases Nat.eq_zero_or_pos w.pageSize with hsz | hsz
    · rw [Writer.requests_nil_of_run (v := Batch.version w) hσ hsz n le_rfl,
        Writer.requests_nil_of_run (v := Sequential.version w) hτ hsz m le_rfl]
      exact ⟨rfl, fun h => absurd h (by omega)⟩
    · have h₁ := (Writer.requests_of_run (v := Batch.version w) hσ hrcσ hsz le_rfl).2 c hc hf
      have h₂ := (Writer.requests_of_run (v := Sequential.version w) hτ hrcτ hsz le_rfl).2 c' hc' hf'
      exact ⟨h₁.trans h₂.symm, fun _ => h₁⟩

/-- Two pages are posted by both, the pipeline having both outstanding at once. -/
theorem Batch.same_requests_pages :
    (Batch.pages 35).world.requests = (Sequential.pages 40).world.requests ∧
      (Batch.pages 35).world.requests = Writer.twoPages.requests 1 := by
  have h := (Batch.same_requests Batch.pages_isRun Sequential.pages_isRun (by decide +kernel)
    (by decide +kernel)).2.2.2 (((Batch.pages 35).coros 0).get (by decide +kernel))
    (((Sequential.pages 40).coros 0).get (by decide +kernel)) (by simp) (by decide +kernel)
    (by simp) (by decide +kernel)
  exact ⟨h.1, h.2 (by decide)⟩

end EfaExamples
