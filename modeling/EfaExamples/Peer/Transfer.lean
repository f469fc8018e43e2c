import EfaExamples.Efa.Bytes
import EfaExamples.Peer.Running
/-!
# What a write transfers

The iov of a write starts at the connection's own buffer, wherever the call's
`data` points. So every page of a region gets the bytes of the first local
page, and a round transfers the local pages exactly if all of them are equal.
-/

namespace EfaExamples

open Loop

/-- **What arrives** is what is at `data` exactly if the buffer starts with the
same bytes. -/
theorem ConnOp.write_transfers {conn : Conn} {data sz addr key immData h : ℕ} {f f' : Fabric}
    (hpost : (ConnOp.write conn data sz addr key immData).post h f = (none, f')) :
    ∃ p, f'.inflight = f.inflight ++ [p] ∧ p.ctx = h ∧ ∀ (g : Fabric) msg,
      (bytes ((g.copy p msg).remote conn.remote) addr sz = bytes g.mem data sz ↔
        ∀ j < sz, g.mem (conn.writeBuffer + j) = g.mem (data + j)) := by
  simp only [ConnOp.post, ConnOp.request, Fabric.submit] at hpost
  split at hpost
  · obtain ⟨-, rfl⟩ := Prod.mk.inj hpost
    refine ⟨_, rfl, rfl, fun g msg => ?_⟩
    have hcopy : bytes ((g.copy ⟨h, .write conn.writeBuffer sz conn.remote addr key immData
        (immData ≠ 0)⟩ msg).remote conn.remote) addr sz = bytes g.mem conn.writeBuffer sz := by
      simp only [Fabric.copy]
      exact bytes_memcpy le_rfl
    rw [hcopy, bytes_eq_iff]
  · cases hpost

/-- A write leaves the memory alone when it begins. -/
theorem ConnOp.enter_of_request {a : ConnOp} {f f' : Fabric}
    {base len remote addr key data : ℕ} {cqData : Bool}
    (hreq : a.request = some (.write base len remote addr key data cqData))
    (henter : a.enter f = .ok f') : f' = f := by
  cases a with
  | write conn data sz addr key immData =>
    simp only [enter] at henter
    split at henter
    · cases henter
    · exact (Except.ok.inj henter).symm
  | recv | send | read => cases hreq

namespace Writer

variable {I : Type} {w : Writer} {v : Version w I} {ph : Phase I} {times : ℕ}
variable {s s' : Loop (Loc I) Counters ConnOp Fabric Val}

/-- Where page `i` of region `g` goes. -/
def target (w : Writer) (g i : ℕ) : ℕ := w.addr (w.peerRegions.getD g ⟨0, 0, 0⟩) i

/-- The targets of different pages do not overlap. -/
def Apart (w : Writer) : Prop :=
  ∀ g < w.peerRegions.length, ∀ i < w.numPages, ∀ g' < w.peerRegions.length, ∀ i' < w.numPages,
    (g ≠ g' ∨ i ≠ i') → w.target g i + w.pageSize ≤ w.target g' i' ∨
      w.target g' i' + w.pageSize ≤ w.target g i

/-- **The pages are there**: every page of every region is the local page. -/
def Transferred (w : Writer) (f : Fabric) : Prop :=
  ∀ region ∈ w.peerRegions, ∀ i < w.numPages,
    bytes (f.remote w.conn.remote) (w.addr region i) w.pageSize = bytes f.mem (w.base i) w.pageSize

/-- What was copied is at its target, from the start of the buffer. -/
def Copied (w : Writer) (f : Fabric) : Prop :=
  ∀ p ∈ f.history.placed, ∀ r g i, g < w.peerRegions.length → i < w.numPages →
    p.1 = w.posting (w.write r g i) →
    bytes (f.remote w.conn.remote) (w.target g i) w.pageSize =
      bytes f.mem w.conn.writeBuffer w.pageSize

theorem Copied.of_eq {f f' : Fabric} (hc : Copied w f) (hmem : f'.mem = f.mem)
    (hremote : f'.remote = f.remote) (hplaced : f'.history.placed = f.history.placed) :
    Copied w f' := by
  intro p hp r g i hg hi hpg
  rw [hplaced] at hp
  rw [hmem, hremote]
  exact hc p hp r g i hg hi hpg

/-- The same write is the same page. -/
theorem page_inj {r g i r' g' i' : ℕ} (hg : g < w.peerRegions.length) (hi : i < w.numPages)
    (hg' : g' < w.peerRegions.length) (hi' : i' < w.numPages)
    (h : w.posting (w.write r g i) = w.posting (w.write r' g' i')) : g = g' ∧ i = i' := by
  rw [← issue_eq_write hg hi, ← issue_eq_write hg' hi'] at h
  have hq := ctx_inj (congrArg Posted.ctx h)
  have heq : w.write r g i = w.write r' g' i' := by
    rw [← issue_eq_write hg hi, ← issue_eq_write hg' hi', hq]
  exact ⟨congrArg Issued.region heq, congrArg Issued.page heq⟩

/-- A copy of a page. -/
theorem Copied.copy {f : Fabric} {r g i : ℕ} {msg : List UInt8} (hc : Copied w f) (hw : w.Apart)
    (hg : g < w.peerRegions.length) (hi : i < w.numPages) :
    Copied w (f.copy (w.posting (w.write r g i)) msg) := by
  have hreq : (w.posting (w.write r g i)).req =
      .write w.conn.writeBuffer w.pageSize w.conn.remote (w.target g i)
        (w.peerRegions.getD g ⟨0, 0, 0⟩).key (w.immData i) (w.immData i ≠ 0) := rfl
  intro p hp r' g' i' hg' hi' hpg
  have hremote : (f.copy (w.posting (w.write r g i)) msg).remote w.conn.remote =
      memcpy (w.target g i) w.conn.writeBuffer w.pageSize f.mem (f.remote w.conn.remote) := by
    simp only [Fabric.copy, hreq]
    exact if_pos trivial
  have hmem : (f.copy (w.posting (w.write r g i)) msg).mem = f.mem := by
    simp only [Fabric.copy, hreq]
  have hplaced : (f.copy (w.posting (w.write r g i)) msg).history.placed =
      f.history.placed ++ [(w.posting (w.write r g i), bytes f.mem w.conn.writeBuffer w.pageSize)] := by
    simp only [Fabric.copy, hreq]
  rw [hremote, hmem]
  by_cases hsame : g' = g ∧ i' = i
  · rw [hsame.1, hsame.2]
    exact bytes_memcpy le_rfl
  · rw [bytes_memcpy_of_disjoint (hw g' hg' i' hi' g hg i hi (not_and_or.mp hsame))]
    rw [hplaced] at hp
    rcases List.mem_append.mp hp with hp | hp
    · exact hc p hp r' g' i' hg' hi' hpg
    · rw [List.mem_singleton.mp hp] at hpg
      obtain ⟨rfl, rfl⟩ := page_inj hg hi hg' hi' hpg
      exact absurd ⟨rfl, rfl⟩ hsame

/-! ## Along a run -/

/-- **A step copies a page**, or leaves the memories alone. -/
theorem Along.memories (al : Along v times ph s) (hs : Step efaWorld (v.code times) s s') :
    (s'.world.mem = s.world.mem ∧ s'.world.remote = s.world.remote ∧
      s'.world.history.placed = s.world.history.placed) ∨
    ∃ p ∈ s.world.history.posted, ∃ msg, s'.world = s.world.copy p msg := by
  have hsame : s'.world = s.world →
      s'.world.mem = s.world.mem ∧ s'.world.remote = s.world.remote ∧
        s'.world.history.placed = s.world.history.placed :=
    fun hw => by rw [hw]; exact ⟨rfl, rfl, rfl⟩
  cases hs with
  | exec now hs => exact Or.inl (hsame (exec_appends hs).world)
  | round hr =>
    obtain ⟨events, due, -, hpoll, -⟩ := hr.world
    left
    rw [(Fabric.taken_of_select hpoll).eq]
    exact ⟨rfl, rfl, rfl⟩
  | resume hstack hs =>
    left
    obtain ⟨h, c, q, r, -, hready, hc, -, hfront⟩ := Loop.frontStep hs
    have hwrite : ∀ {a x}, c.point = .initialIo a → a.enter s.world = .ok x → x = s.world := by
      intro a x hp henter
      obtain ⟨r, hr, hfit⟩ := al.states.outlined.fits hc
      have hempty : (ph.outline w v.entry).stack = [] := by rw [← al.states.outlined.stack, hstack]
      obtain ⟨-, q, -, -, hreq⟩ := Phase.of_begins al.states.ok hempty
        ((hfit.of_initialIo hp).imp (fun h => h ▸ hr) fun h => h ▸ hr)
      exact ConnOp.enter_of_request hreq henter
    cases hfront with
    | idle _ _ hw _ | refused _ _ _ _ hw _ => exact hsame hw
    | failed a e x hp henter hpost _ =>
      exact hsame ((ConnOp.post_error hpost).trans (hwrite hp henter))
    | posted a x hp henter hpost _ =>
      obtain rfl := hwrite hp henter
      rcases ConnOp.post_ok hpost with ⟨req, -, hx⟩ | ⟨-, hx⟩
      · rw [hx]
        exact ⟨rfl, rfl, rfl⟩
      · rw [hx]
        exact ⟨rfl, rfl, rfl⟩
    | ended a _ hw _ =>
      have hw : s'.world = (a.resume h s.world).2 := hw
      rw [hw, (ConnOp.resume_snd a h _).1]
      exact ⟨rfl, rfl, rfl⟩
  | env henv =>
    obtain ⟨m, hm⟩ := henv
    cases m with
    | place ctx msg =>
      simp only [Fabric.move] at hm
      split at hm
      · rename_i p hfind
        split at hm
        · cases hm
        · exact Or.inr ⟨p, al.recorded.inflight p (List.mem_of_find?_eq_some hfind), msg,
            (Option.some.inj hm).symm⟩
      · cases hm
    | complete cq ctx len =>
      left
      simp only [Fabric.move] at hm
      split at hm
      · split at hm
        · obtain rfl := Option.some.inj hm
          exact ⟨rfl, rfl, rfl⟩
        · cases hm
      · cases hm
    | notify cq e =>
      left
      simp only [Fabric.move] at hm
      split at hm
      · obtain rfl := Option.some.inj hm
        exact ⟨rfl, rfl, rfl⟩
      · cases hm
    | fail cq err | setRc rc =>
      left
      obtain rfl := Option.some.inj hm
      exact ⟨rfl, rfl, rfl⟩

theorem Copied.step (hc : Copied w s.world) (al : Along v times ph s) (hw : w.Apart)
    (hs : Step efaWorld (v.code times) s s') : Copied w s'.world := by
  rcases al.memories hs with ⟨hmem, hremote, hplaced⟩ | ⟨p, hp, msg, heq⟩
  · exact hc.of_eq hmem hremote hplaced
  · obtain ⟨r, g, i, -, hg, hi, rfl⟩ := al.posted_write hp
    rw [heq]
    exact hc.copy hw hg hi

/-- **After a `WriteOne`** that has returned, every page has the bytes of the first. -/
theorem transferred_iff (v : Version w I) (hw : w.Apart)
    {σ : ℕ → Loop (Loc I) Counters ConnOp Fabric Val} {n : ℕ}
    (hrun : IsRun (Starts true (.write 0) {}) (Step efaWorld (v.code times)) σ n) {t : ℕ}
    (ht : t ≤ n) {h r d : ℕ} {val : Option Val} {rest : List (ℕ × Loc I)}
    (hstack : (σ t).stack = (h, .resumed r d (.ok val)) :: rest) :
    w.Transferred (σ t).world ↔ w.peerRegions = [] ∨ ∀ i < w.numPages,
      bytes (σ t).world.mem (w.base i) w.pageSize =
        bytes (σ t).world.mem w.conn.writeBuffer w.pageSize := by
  obtain ⟨ph, al, hc⟩ := along_invariant (fun _ s => Copied w s.world) hrun (fun f _ hh p hp => by
    rw [boot_world, hh] at hp
    cases hp) (fun ph ph' s s' hc al hs _ _ => hc.step al hw hs) t ht
  -- every write of the round has returned
  have hpage : ∀ g < w.peerRegions.length, ∀ i < w.numPages,
      bytes ((σ t).world.remote w.conn.remote) (w.target g i) w.pageSize =
        bytes (σ t).world.mem w.conn.writeBuffer w.pageSize := by
    intro g hg i hi
    have hph := al.states.outlined.stack.symm.trans hstack
    cases ph with
    | back x o =>
      obtain ⟨rfl, rfl, rfl⟩ : x.round = r ∧ w.oneHandle x.round = d ∧ o = .ok val := by
        have := (List.cons.inj hph).1
        simpa using (Prod.mk.inj this).2
      obtain ⟨-, -, -, -, hfail, hall, -⟩ := al.states.ok
      have hlt := w.position_lt (List.getElem?_eq_getElem hg) hi
      obtain ⟨⟨p, hp, hctx⟩, -⟩ := al.states.done (x.round * w.total + (g * w.numPages + i)) (by
        simp only [Phase.window, Window.done, hfail, hall, Option.isSome_none, Bool.toNat_false]
        omega)
      rw [issue_eq_write hg hi] at hctx
      obtain ⟨r', g', i', -, hg', hi', hpg⟩ := al.posted_write (al.recorded.placed p hp)
      rw [hpg, ← issue_eq_write hg hi, ← issue_eq_write hg' hi'] at hctx
      have hq := ctx_inj hctx
      refine hc p hp x.round g i hg hi ?_
      rw [hpg, ← issue_eq_write hg hi, ← issue_eq_write hg' hi', hq]
    | start | test r | made r | entered r | running x l | waiting x k | finished x o
    | ended x o seq => cases hph
  have htarget : ∀ g (hg : g < w.peerRegions.length) i,
      w.addr (w.peerRegions[g]) i = w.target g i := by
    intro g hg i
    simp [target, hg]
  constructor
  · intro htr
    rcases List.eq_nil_or_concat w.peerRegions with hnil | ⟨rs, region, hcons⟩
    · exact Or.inl hnil
    · refine Or.inr fun i hi => ?_
      have hg : 0 < w.peerRegions.length := by simp [hcons]
      rw [← htr _ (List.getElem_mem hg) i hi, htarget 0 hg i, hpage 0 hg i hi]
  · rintro (hnil | hall) region hregion i hi
    · rw [hnil] at hregion
      cases hregion
    · obtain ⟨g, hg, rfl⟩ := List.mem_iff_getElem.mp hregion
      rw [htarget g hg i, hpage g hg i hi, hall i hi]

end Writer

/-- **What writes transfer.** A `Write` puts the bytes at `data` to the target
exactly if the connection's buffer starts with the same bytes. So after a
`WriteOne` that has returned, pipelined or not, every page of every region is
the local page exactly if there is no region, or every local page is what the
buffer starts with. -/
theorem writes_transfer_iff (w : Writer) (times : ℕ) (hw : w.Apart) :
    (∀ (conn : Conn) (data sz addr key immData h : ℕ) (f f' : Fabric),
      (ConnOp.write conn data sz addr key immData).post h f = (none, f') →
      ∃ p, f'.inflight = f.inflight ++ [p] ∧ p.ctx = h ∧ ∀ (g : Fabric) msg,
        (bytes ((g.copy p msg).remote conn.remote) addr sz = bytes g.mem data sz ↔
          ∀ j < sz, g.mem (conn.writeBuffer + j) = g.mem (data + j))) ∧
    (∀ σ n, IsRun (Starts true (.write 0) {}) (Step efaWorld (Batch.code w times)) σ n →
      ∀ t ≤ n, ∀ h r d val rest, (σ t).stack = (h, .resumed r d (.ok val)) :: rest →
        (w.Transferred (σ t).world ↔ w.peerRegions = [] ∨ ∀ i < w.numPages,
          bytes (σ t).world.mem (w.base i) w.pageSize =
            bytes (σ t).world.mem w.conn.writeBuffer w.pageSize)) ∧
    ∀ σ n, IsRun (Starts true (.write 0) {}) (Step efaWorld (Sequential.code w times)) σ n →
      ∀ t ≤ n, ∀ h r d val rest, (σ t).stack = (h, .resumed r d (.ok val)) :: rest →
        (w.Transferred (σ t).world ↔ w.peerRegions = [] ∨ ∀ i < w.numPages,
          bytes (σ t).world.mem (w.base i) w.pageSize =
            bytes (σ t).world.mem w.conn.writeBuffer w.pageSize) := by
  refine ⟨fun conn data sz addr key immData h f f' hpost => ConnOp.write_transfers hpost,
    fun σ n hrun t ht h r d val rest hstack => ?_, fun σ n hrun t ht h r d val rest hstack => ?_⟩
  · exact Writer.transferred_iff (Batch.version w) hw hrun ht hstack
  · exact Writer.transferred_iff (Sequential.version w) hw hrun ht hstack

namespace Transfer

/-- The pages of `twoPages` do not overlap. -/
theorem twoPages_apart : Writer.twoPages.Apart := by
  have htarget : ∀ g < 1, ∀ i < 2, Writer.twoPages.target g i = 500 + i * 4 := by decide
  have hsize : Writer.twoPages.pageSize = 4 := rfl
  intro g hg i hi g' hg' i' hi' h
  have hg : g < 1 := hg
  have hg' : g' < 1 := hg'
  rw [htarget g hg i hi, htarget g' hg' i' hi', hsize]
  omega

/-- A round of two pages of the pipelined writer. -/
def pages (mem : ℕ → UInt8) :
    ℕ → Loop (Writer.Loc Batch.Loc) Writer.Counters ConnOp Fabric Val :=
  states efaWorld (Batch.code Writer.twoPages 1) Fabric.move
    (boot true (.write 0) {} { quiet with mem := mem })
    [.round 0, .resume, .exec 0, .exec 0, .round 0, .resume, .exec 0, .exec 0, .exec 0, .exec 0,
      .exec 0, .exec 0, .exec 0, .exec 0, .exec 0, .round 0, .resume, .resume, .env (.place 2 []),
      .env (.complete 0 2 4), .env (.place 3 []), .env (.complete 0 3 4), .round 0, .resume,
      .resume, .round 0, .resume, .exec 0, .exec 0, .exec 0, .exec 0, .round 0, .resume]

theorem starts (mem : ℕ → UInt8) : Starts true (Writer.Loc.write 0 : Writer.Loc Batch.Loc)
    ({} : Writer.Counters) (boot true (.write 0) {} { quiet with mem := mem }) :=
  ⟨{ quiet with mem := mem }, ⟨fun _ => rfl, rfl, fun q hq => by cases hq⟩, rfl, rfl⟩

/-- Bytes that are the same in both pages are transferred. -/
theorem writes_transfer_iff_same :
    Writer.twoPages.Transferred (pages (fun a => if a % 4 = 0 then 1 else 0) 33).world := by
  have hrun : IsRun (Starts true (.write 0) {}) (Step efaWorld (Batch.code Writer.twoPages 1))
      (pages fun a => if a % 4 = 0 then 1 else 0) 33 :=
    isRun_states efaWorld_move (starts _) (by decide +kernel)
  have h := (writes_transfer_iff Writer.twoPages 1 twoPages_apart).2.1 _ 33 hrun 33 le_rfl
    0 0 1 none [] rfl
  exact h.mpr (Or.inr (by decide +kernel))

/-- A byte of the second page is not. -/
theorem second_page_lost :
    IsRun (Starts true (.write 0) {}) (Step efaWorld (Batch.code Writer.twoPages 1))
        (pages fun a => if a = 4004 then 1 else 0) 33 ∧
      (pages (fun a => if a = 4004 then 1 else 0) 33).stack = [(0, .resumed 0 1 (.ok none))] ∧
      ¬ Writer.twoPages.Transferred (pages (fun a => if a = 4004 then 1 else 0) 33).world := by
  refine ⟨isRun_states efaWorld_move (starts _) (by decide +kernel), rfl, fun h => ?_⟩
  exact absurd (h ⟨500, 8, 7⟩ (by decide) 1 (by decide)) (by decide +kernel)

end Transfer

end EfaExamples
