import Mathlib.Data.Finset.Card
import Mathlib.Order.Interval.Finset.Nat
import EfaExamples.Efa.Process
import EfaExamples.Peer.Counting
import EfaExamples.Peer.Covering
import EfaExamples.Peer.Transfer
/-!
# How far the copies lag behind

The fabric may copy the writes in flight in any order, but a writer whose
window is `k` wide posts a write only when all but the last `k` before it have
returned (`Behind`). So where `m` writes with an immediate have been copied,
fewer than `k` pages of the first `m` regions are missing
(`Lags.missing_lt`): none with the `WriteOne` that awaits every write, and
fewer than `batch_size` with the pipelined one.
-/

namespace EfaExamples

open Loop

namespace Writer

variable {I : Type} {w : Writer} {v : Version w I} {k times : ℕ}

/-- The window of `WriteOne` is `k` wide: at most so many of the writes it has made have
not been awaited. -/
def Version.Width (v : Version w I) (k : ℕ) : Prop :=
  ∀ ph : Phase I, ph.Ok w v.Here → ph.Inside → (ph.window w).made ≤ (ph.window w).awaited + k

/-- The `j`-th write of all rounds has been copied to its target. -/
def Arrived (w : Writer) (f : Fabric) (j : ℕ) : Prop :=
  ∃ p ∈ f.history.placed, p.1 = w.posting (w.issue j)

instance (f : Fabric) (j : ℕ) : Decidable (w.Arrived f j) :=
  inferInstanceAs (Decidable (∃ p ∈ f.history.placed, _))

/-- Of the first `b` writes, those that have not arrived. -/
def missing (w : Writer) (f : Fabric) (b : ℕ) : Finset ℕ :=
  (Finset.range b).filter fun j => ¬ w.Arrived f j

/-- **What is posted waits for what is `k` before it.** -/
def Behind (w : Writer) (k : ℕ) (f : Fabric) : Prop :=
  ∀ q, w.posting (w.issue q) ∈ f.history.posted → ∀ j, j + k ≤ q → w.Arrived f j

/-- The writes with an immediate that have been copied. -/
def finals (f : Fabric) : List (Posted × List UInt8) :=
  f.history.placed.filter (·.1.req.carriesImm)

variable {f f' : Fabric} {ph ph' : Phase I} {s s' : Loop (Loc I) Counters ConnOp Fabric Val}

theorem Arrived.grows {j : ℕ} (ha : w.Arrived f j) (hg : f.history.Grows f'.history) :
    w.Arrived f' j := by
  obtain ⟨p, hp, heq⟩ := ha
  exact ⟨p, hg.placed.subset hp, heq⟩

/-- What is completed has arrived. -/
theorem Along.arrived (al : Along v times ph s) {j : ℕ} (hj : j < (ph.window w).done w) :
    w.Arrived s.world j := by
  obtain ⟨⟨p, hp, hctx⟩, -⟩ := al.states.done j hj
  obtain ⟨q, -, hq⟩ := al.posted p.1 (al.recorded.placed p hp)
  rw [hq] at hctx
  rw [← ctx_inj hctx]
  exact ⟨p, hp, hq⟩

/-- When a write is posted, `WriteOne` waits, and only the last `k` have not returned. -/
theorem Along.given_le_of_posts (al : Along v times ph s) (hv : v.Width k) {h : ℕ} {a : ConnOp}
    {req : Request} (hp : Posts s s' h a req) : ph.given w ≤ (ph.window w).done w + k := by
  obtain ⟨hin, -⟩ := al.states.of_posts hp
  have hempty : (ph.outline w v.entry).stack = [] := al.states.outlined.stack.symm.trans hp.stack
  have hwidth := hv ph al.states.ok hin
  cases ph with
  | running x l => cases hempty
  | waiting x l =>
    have hfail : x.failed = none := al.states.ok.2.2.1
    simp only [Phase.given, Phase.window, Window.done, hfail, Option.isSome_none, Bool.toNat_false]
      at hwidth ⊢
    omega
  | start | test r | made r | entered r | finished x o | back x o | ended x o seq => exact hin.elim

/-- **One step keeps a writer behind.** -/
theorem Behind.step (hb : Behind w k s.world) (al : Along v times ph s) (hv : v.Width k)
    (hs : Step efaWorld (v.code times) s s') : Behind w k s'.world := by
  intro q hq j hj
  by_cases hold : w.posting (w.issue q) ∈ s.world.history.posted
  · exact (hb q hold j hj).grows hs.grows
  · rcases hs.posted_cases with heq | ⟨h, a, req, hp⟩
    · exact absurd (heq ▸ hq) hold
    · have hgiven := al.given_le_of_posts hv hp
      obtain ⟨q', hq', heq⟩ := al.states.posts hs hq hold
      obtain rfl : q = q' := ctx_inj (congrArg Posted.ctx heq)
      exact (al.arrived (by omega)).grows hs.grows

end Writer

/-- **Along a run histories only grow.** -/
theorem grows_of_run {Loc G : Type} {code : Loc → Op Loc G ConnOp Val}
    {init : Loop Loc G ConnOp Fabric Val → Prop} {σ : ℕ → Loop Loc G ConnOp Fabric Val} {n : ℕ}
    (hrun : IsRun init (Step efaWorld code) σ n) {t t' : ℕ} (htt' : t ≤ t') (ht' : t' ≤ n) :
    (σ t).world.history.Grows (σ t').world.history := by
  induction t', htt' using Nat.le_induction with
  | base => exact .refl _
  | succ i _ ih =>
    obtain ⟨hposted, hplaced, hstored⟩ := ih (by omega)
    have hg := (hrun.next i ht').grows
    exact ⟨hposted.trans hg.posted, hplaced.trans hg.placed, hstored.trans hg.stored⟩

/-- The bytes of an operation are copied once. -/
def Once (f : Fabric) : Prop := (f.history.placed.map (·.1.ctx)).Nodup

/-- **One step copies no operation twice.** -/
theorem Once.step {Loc G : Type} {code : Loc → Op Loc G ConnOp Val}
    {s s' : Loop Loc G ConnOp Fabric Val} (ho : Once s.world) (hs : Step efaWorld code s s') :
    Once s'.world := by
  have hsame : s'.world.history.placed = s.world.history.placed → Once s'.world := fun heq => by
    rw [Once, heq]
    exact ho
  cases hs.fabricStep with
  | same hw | threw h a mem hw | posted h c a q req mem _ _ _ _ _ _ _ _ hw =>
    exact hsame (by rw [hw])
  | registered h c a q mem _ _ _ _ _ _ hw =>
    exact hsame (by rw [hw]; rfl)
  | resumed h c a q _ _ _ _ hw => exact hsame (by rw [hw, (ConnOp.resume_snd a h _).1])
  | taken events _ tk => exact hsame tk.placed
  | moved m hm =>
    cases (Fabric.moved_of_move hm).1 with
    | placed p bs _ hn _ _ hh =>
      rw [Once, hh, List.map_append, List.nodup_append]
      refine ⟨ho, List.nodup_singleton _, ?_⟩
      rintro ctx hctx _ hx rfl
      obtain ⟨p', hp', rfl⟩ := List.mem_map.mp hctx
      exact hn ⟨p', hp', List.mem_singleton.mp hx⟩
    | completed _ _ _ _ _ _ _ hh | notified _ _ _ _ _ hh | still _ _ hh =>
      exact hsame (by rw [hh])

namespace Writer

variable {I : Type} {w : Writer} {v : Version w I} {k times : ℕ}
variable {ph ph' : Phase I} {s s' : Loop (Loc I) Counters ConnOp Fabric Val}

/-- **Along a run of a writer whose window is `k` wide.** -/
structure Lags (v : Version w I) (times k : ℕ) (ph : Phase I)
    (s : Loop (Loc I) Counters ConnOp Fabric Val) : Prop where
  along : Along v times ph s
  behind : Behind w k s.world
  once : Once s.world
  copied : w.Apart → Copied w s.world

/-- **In every run of the writer.** -/
theorem lags_of_run {σ : ℕ → Loop (Loc I) Counters ConnOp Fabric Val} {n : ℕ} (hv : v.Width k)
    (hrun : IsRun (Starts true (.write 0) {}) (Step efaWorld (v.code times)) σ n) :
    ∀ t ≤ n, ∃ ph, Lags v times k ph (σ t) := by
  have h₀ : ∀ f : Fabric, f.history = {} →
      Behind w k f ∧ Once f ∧ (w.Apart → Copied w f) := by
    intro f hh
    refine ⟨fun q hq => ?_, ?_, fun _ p hp => ?_⟩
    · rw [hh] at hq
      cases hq
    · rw [Once, hh]
      exact List.nodup_nil
    · rw [hh] at hp
      cases hp
  intro t ht
  obtain ⟨ph, al, hb, ho, hc⟩ := along_invariant
    (fun _ s => Behind w k s.world ∧ Once s.world ∧ (w.Apart → Copied w s.world)) hrun
    (fun f _ hh => h₀ f hh)
    (fun ph ph' s s' ⟨hb, ho, hc⟩ al hs _ _ =>
      ⟨hb.step al hv hs, ho.step hs, fun hw => (hc hw).step al hw hs⟩) t ht
  exact ⟨ph, al, hb, ho, hc⟩

/-- The write that carries the immediate is the last page of its region. -/
theorem mod_of_carriesImm {q : ℕ} (hq : q < times * w.total)
    (himm : (w.posting (w.issue q)).req.carriesImm = true) : q % w.numPages + 1 = w.numPages := by
  obtain ⟨r, g, i, -, -, hi, heq, hpos⟩ := exists_write hq
  obtain rfl : i = w.numPages - 1 := carriesImm_request.mp (heq ▸ himm)
  have hsplit : q = (r * w.peerRegions.length + g) * w.numPages + (w.numPages - 1) := by
    rw [hpos, total, Nat.add_mul, Nat.mul_assoc, Nat.add_assoc]
  rw [hsplit, (w.div_mod_position hi).2]
  omega

namespace Lags

/-- What has been copied is a write of the rounds. -/
theorem placed (la : Lags v times k ph s) {p : Posted × List UInt8}
    (hp : p ∈ s.world.history.placed) : ∃ q < ph.given w, p.1 = w.posting (w.issue q) :=
  la.along.posted p.1 (la.along.recorded.placed p hp)

/-- Where writes with an immediate have been copied, one of them is the last page of the region
with their number, or of a later one. -/
theorem exists_final (la : Lags v times k ph s) {m : ℕ} (hm : m + 1 ≤ (finals s.world).length) :
    ∃ q, w.posting (w.issue q) ∈ s.world.history.posted ∧ w.Arrived s.world q ∧
      (m + 1) * w.numPages ≤ q + 1 := by
  have hmem : ∀ p ∈ finals s.world, p ∈ s.world.history.placed ∧ p.1.req.carriesImm = true :=
    fun p hp => List.mem_filter.mp hp
  obtain ⟨qs, hqs⟩ := exists_map_of_forall_exists (f := fun q => w.posting (w.issue q))
    (l := (finals s.world).map Prod.fst) fun p hp => by
      obtain ⟨p', hp', rfl⟩ := List.mem_map.mp hp
      obtain ⟨q, -, hq⟩ := la.placed (hmem p' hp').1
      exact ⟨q, hq⟩
  have hfinal : ∀ q ∈ qs, ∃ p ∈ finals s.world, p.1 = w.posting (w.issue q) := by
    intro q hq
    have : w.posting (w.issue q) ∈ (finals s.world).map Prod.fst := by
      rw [hqs]
      exact List.mem_map_of_mem hq
    exact List.mem_map.mp this
  have hmod : ∀ q ∈ qs, q % w.numPages + 1 = w.numPages := by
    intro q hq
    obtain ⟨p, hp, heq⟩ := hfinal q hq
    obtain ⟨q', hlt, heq'⟩ := la.placed (hmem p hp).1
    obtain rfl : q = q' := ctx_inj (congrArg Posted.ctx (heq.symm.trans heq'))
    exact mod_of_carriesImm (hlt.trans_le la.along.within.given_le) (heq ▸ (hmem p hp).2)
  -- the regions they are the last pages of are all different
  have hnodup : (qs.map (· / w.numPages)).Nodup := by
    have hctx : ((finals s.world).map (·.1.ctx)).Nodup :=
      la.once.sublist (List.filter_sublist.map _)
    have hqs' : (finals s.world).map (·.1.ctx) = qs.map fun q => (w.issue q).ctx := by
      have := congrArg (List.map Posted.ctx) hqs
      rwa [List.map_map, List.map_map] at this
    rw [hqs'] at hctx
    refine List.Nodup.map_on (fun a ha b hb hab => ?_) (List.Nodup.of_map _ hctx)
    have hdiv := Nat.div_add_mod a w.numPages
    rw [hab] at hdiv
    have := Nat.div_add_mod b w.numPages
    have := hmod a ha
    have := hmod b hb
    omega
  by_contra hnone
  push Not at hnone
  have hsub : qs.map (· / w.numPages) ⊆ List.range m := by
    intro c hc
    obtain ⟨q, hq, rfl⟩ := List.mem_map.mp hc
    obtain ⟨p, hp, heq⟩ := hfinal q hq
    have hlt := hnone q (heq ▸ la.along.recorded.placed p (hmem p hp).1) ⟨p, (hmem p hp).1, heq⟩
    have := hmod q hq
    have := Nat.div_add_mod q w.numPages
    refine List.mem_range.mpr (lt_of_not_ge fun hge => ?_)
    have := Nat.mul_le_mul_left w.numPages hge
    rw [Nat.succ_mul, Nat.mul_comm m] at hlt
    omega
  have hle := (List.subperm_of_subset hnodup hsub).length_le
  have hlen := congrArg List.length hqs
  rw [List.length_map, List.length_map] at hlen
  rw [List.length_map, List.length_range] at hle
  omega

/-- **Fewer than `k` pages are missing** of as many regions as writes with an immediate have
been copied. -/
theorem missing_lt (la : Lags v times k ph s) (hk : 0 < k) {m : ℕ}
    (hm : m ≤ (finals s.world).length) : (w.missing s.world (m * w.numPages)).card < k := by
  cases m with
  | zero => simpa [missing] using hk
  | succ m =>
    obtain ⟨q, hposted, harr, hq⟩ := la.exists_final hm
    have hsub : w.missing s.world ((m + 1) * w.numPages) ⊆ Finset.Ico (q + 1 - k) q := by
      intro j hj
      obtain ⟨hj, hn⟩ := Finset.mem_filter.mp hj
      rw [Finset.mem_range] at hj
      have hne : j ≠ q := fun h => hn (h ▸ harr)
      have hlate : ¬ j + k ≤ q := fun h => hn (la.behind q hposted j h)
      rw [Finset.mem_Ico]
      omega
    have := Finset.card_le_card hsub
    rw [Nat.card_Ico] at this
    omega

/-- **A page that has arrived** is what the buffer starts with. -/
theorem bytes_of_arrived (la : Lags v times k ph s) (hw : w.Apart) {r g i : ℕ}
    (hg : g < w.peerRegions.length) (hi : i < w.numPages)
    (ha : w.Arrived s.world (r * w.total + (g * w.numPages + i))) :
    bytes (s.world.remote w.conn.remote) (w.target g i) w.pageSize =
      bytes s.world.mem w.conn.writeBuffer w.pageSize := by
  obtain ⟨p, hp, heq⟩ := ha
  exact la.copied hw p hp r g i hg hi (by rw [heq, issue_eq_write hg hi])

/-- What a run goes on to copy was missing. -/
theorem copies_le (la : Lags v times k ph s') (hg : s.world.history.Grows s'.world.history) : s'.world.history.placed.length ≤
      s.world.history.placed.length + (w.missing s.world (times * w.total)).card := by
  obtain ⟨more, hmore⟩ := hg.placed
  obtain ⟨qs, hqs⟩ := exists_map_of_forall_exists (f := fun q => w.posting (w.issue q))
    (l := more.map Prod.fst) fun p hp => by
      obtain ⟨p', hp', rfl⟩ := List.mem_map.mp hp
      obtain ⟨q, -, hq⟩ := la.placed (hmore ▸ List.mem_append_right _ hp')
      exact ⟨q, hq⟩
  have honce := la.once
  rw [Once, ← hmore, List.map_append, List.nodup_append] at honce
  obtain ⟨-, hnodup, hapart⟩ := honce
  have hctx : more.map (·.1.ctx) = qs.map fun q => (w.issue q).ctx := by
    have := congrArg (List.map Posted.ctx) hqs
    rwa [List.map_map, List.map_map] at this
  have hsub : qs.toFinset ⊆ w.missing s.world (times * w.total) := by
    intro q hq
    have hmem : w.posting (w.issue q) ∈ more.map Prod.fst := by
      rw [hqs]
      exact List.mem_map_of_mem (List.mem_toFinset.mp hq)
    obtain ⟨p, hp, heq⟩ := List.mem_map.mp hmem
    refine Finset.mem_filter.mpr ⟨Finset.mem_range.mpr ?_, ?_⟩
    · obtain ⟨q', hlt, hq'⟩ := la.placed (hmore ▸ List.mem_append_right _ hp)
      obtain rfl : q = q' := ctx_inj (congrArg Posted.ctx (heq.symm.trans hq'))
      exact hlt.trans_le la.along.within.given_le
    · -- what had arrived is not copied again
      rintro ⟨p', hp', heq'⟩
      exact hapart _ (List.mem_map_of_mem hp') _ (List.mem_map_of_mem hp) (by rw [heq', heq])
  have hle := Finset.card_le_card hsub
  rw [List.toFinset_card_of_nodup (List.Nodup.of_map _ (hctx ▸ hnodup))] at hle
  have hlen := congrArg List.length hqs
  rw [List.length_map, List.length_map] at hlen
  rw [← hmore, List.length_append]
  omega

end Lags

end Writer

/-- **While nothing is copied**, the memory of the target stays as it is. -/
theorem Writer.remote_eq {I : Type} {w : Writer} {v : Version w I} {times n : ℕ}
    {σ : ℕ → Loop (Writer.Loc I) Writer.Counters ConnOp Fabric Val}
    (hrun : IsRun (Starts true (.write 0) {}) (Step efaWorld (v.code times)) σ n) {t t' : ℕ}
    (htt' : t ≤ t') (ht' : t' ≤ n)
    (hlen : (σ t').world.history.placed.length ≤ (σ t).world.history.placed.length) :
    (σ t').world.remote = (σ t).world.remote := by
  induction t', htt' using Nat.le_induction with
  | base => rfl
  | succ i hi ih =>
    have hold := (grows_of_run hrun hi (by omega)).placed.length_le
    have hnew := (hrun.next i ht').grows.placed.length_le
    obtain ⟨ph, al, -⟩ := along_invariant (v := v) (fun _ _ => True) hrun (fun _ _ _ => trivial)
      (fun _ _ _ _ _ _ _ _ _ => trivial) i (by omega)
    rcases al.memories (hrun.next i ht') with ⟨-, hremote, -⟩ | ⟨p, -, msg, heq⟩
    · rw [hremote]
      exact ih (by omega) (by omega)
    · have := congrArg List.length (Fabric.placed_copy p msg (σ i).world).1
      rw [← heq, List.length_append, List.length_singleton] at this
      omega

/-- The `WriteOne` that awaits every write has one in flight, -/
theorem Sequential.width (w : Writer) : (Sequential.version w).Width 1 :=
  fun _ => Sequential.inside_made_le

/-- and the pipelined one `batch_size`. -/
theorem Batch.width (w : Writer) : (Batch.version w).Width Batch.batchSize :=
  fun _ => Batch.inside_made_le

end EfaExamples
