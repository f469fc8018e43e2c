import EfaExamples.Peer.Notification
import EfaExamples.Efa.Step
/-!
# No `Read` returns without its notification

Notifications may be lost, and never made up: in every run of `Reader::Read`
the `Read`s that have returned are at most as many as the notifications taken
(`Reader.receives_of_run`). This needs no condition. A `Select` that takes
two notifications for one `Read` queues its handle twice, and the loop goes
no further than the second of them (`Halting`).
-/

namespace EfaExamples

open Loop

section Halting

variable {Loc G : Type} {code : Loc → Op Loc G ConnOp Val}
variable {s s' : Loop Loc G ConnOp Fabric Val} {m : ℕ}

/-- **The loop is about to halt**: at the front of `ready_` is a coroutine that is queued
twice, or one that is done. `m` bounds the coroutines that have been resumed by then. -/
inductive Halting (s : Loop Loc G ConnOp Fabric Val) (m : ℕ) : Prop
  | twice (h : ℕ) (q : List ℕ) (c : Coro Loc ConnOp Val) (a : ConnOp) : s.stack = [] →
      s.ready = h :: h :: q → 2 ≤ s.left → s.coros h = some c → c.point = .io a →
      s.world.history.resumed.length + 1 ≤ m → Halting s m
  | done (h : ℕ) (q : List ℕ) : s.stack = [] → s.ready = h :: q → 1 ≤ s.left →
      (∀ c, s.coros h = some c → c.point.isFinal = true) →
      s.world.history.resumed.length ≤ m → Halting s m

namespace Halting

theorem stack (hh : Halting s m) : s.stack = [] := by
  cases hh <;> assumption

theorem left (hh : Halting s m) : s.left ≠ 0 := by
  cases hh <;> omega

theorem resumed_le (hh : Halting s m) : s.world.history.resumed.length ≤ m := by
  cases hh <;> omega

/-- The world may be another, if nothing has been resumed in it. -/
theorem of_world (hh : Halting s m) {f : Fabric}
    (hr : f.history.resumed = s.world.history.resumed) : Halting { s with world := f } m := by
  cases hh with
  | twice h q c a hstack hready hleft hc hp hm =>
    exact .twice h q c a hstack hready hleft hc hp (hr ▸ hm)
  | done h q hstack hready hleft hfin hm => exact .done h q hstack hready hleft hfin (hr ▸ hm)

/-- What the end of a coroutine leaves of it. -/
theorem final_of_finish {h : ℕ} {o : Outcome Val} {c : Coro Loc ConnOp Val}
    (hf : s.finish h o = some s') (hc : s.coros h = some c) :
    (∀ c', s'.coros h = some c' → c'.point.isFinal = true) ∧ s'.stack = s.stack := by
  constructor
  · intro c' hc'
    rcases finish_row hf hc with hnone | ⟨c₁, hc₁, ⟨hne, -⟩ | ⟨-, ⟨st, rfl⟩, -⟩ | ⟨hne, -⟩⟩
    · rw [hnone] at hc'
      cases hc'
    · exact absurd rfl hne
    · rw [hc₁] at hc'
      cases hc'
      rfl
    · exact absurd rfl hne
  · obtain ⟨-, -, s₁, he, -, ⟨-, rfl⟩ | ⟨p, cp, -, -, rfl⟩⟩ := finish_cases hf
    · exact he.stack
    · exact he.stack

/-- **A loop that is about to halt** takes nothing from the queues and posts nothing, and it
stays about to halt. -/
theorem step (hh : Halting s m) (hs : Step efaWorld code s s') :
    Halting s' m ∧ s'.world.history.taken = s.world.history.taken ∧
      s'.world.history.posted = s.world.history.posted := by
  cases hs with
  | exec now hs => simp [Loop.exec, hh.stack] at hs
  | round hr =>
    obtain ⟨events, due, hhead, -⟩ := hr.world
    exact absurd hhead.2 hh.left
  | env henv =>
    obtain ⟨mv, hm⟩ := henv
    have hmoved := (Fabric.moved_of_move hm).1
    exact ⟨hh.of_world hmoved.resumed, hmoved.taken, by rw [hmoved.history]⟩
  | resume hstack hs =>
    obtain ⟨i, n, q', c', hleft, hready, hc', hit⟩ := iteration_of_resume hs
    cases hh with
    | twice h q c a _ hready₀ hleft₀ hc hp hm =>
      obtain ⟨rfl, rfl⟩ : i = h ∧ q' = h :: q := by
        rw [hready₀] at hready
        cases hready
        exact ⟨rfl, rfl⟩
      obtain rfl : c' = c := by
        rw [hc] at hc'
        exact (Option.some.inj hc').symm
      cases hit with
      | initial l hp' | await d k cd hp' | refused a e hp' | failed a e x x' hp' | posted a x x' hp'
      | sleep hp' =>
        rw [hp] at hp'
        cases hp'
      | io b hp' hf =>
        -- the first of the two takes the result, and the second finds it done
        obtain ⟨hfinal, hst⟩ := final_of_finish hf
          (popped_coros_self (n := n) (q := i :: q) hc)
        obtain ⟨hw, hl, r, hr⟩ := finish_appends hf
        have hw : s'.world = (b.resume i s.world).2 := hw
        rw [hw, (ConnOp.resume_snd b i _).1]
        refine ⟨.done i (q ++ r) (hst.trans hstack) (by rw [hr]; rfl) ?_ hfinal ?_, rfl, rfl⟩
        · rw [show s'.left = n from hl]
          omega
        · rw [hw, (ConnOp.resume_snd b i _).1]
          simpa using hm
    | done h q _ hready₀ hleft₀ hfin hm =>
      obtain rfl : i = h := by
        rw [hready₀] at hready
        cases hready
        rfl
      have := Point.eq_final (hfin c' hc')
      cases hit with
      | initial l hp | await d k cd hp | refused a e hp | failed a e x x' hp | posted a x x' hp
      | sleep hp | io a hp =>
        rw [this] at hp
        cases hp

/-- Meanwhile a body that is not done is not done. -/
theorem body (hh : Halting s m) (hs : Step efaWorld code s s') {i : ℕ}
    (hi : ∀ c, s.coros i = some c → c.point.isFinal = false ∧ c.point.op = none) :
    ∀ c, s'.coros i = some c → c.point.isFinal = false ∧ c.point.op = none := by
  intro c' hc'
  cases hs with
  | exec now hs => simp [Loop.exec, hh.stack] at hs
  | round hr =>
    obtain ⟨events, due, hhead, -⟩ := hr.world
    exact absurd hhead.2 hh.left
  | env henv => exact hi c' hc'
  | resume hstack hs =>
    obtain ⟨d, n, q', cd, -, hready, hcd, hit⟩ := iteration_of_resume hs
    have hpoint : (∃ a, cd.point = .io a) ∨ cd.point.isFinal = true := by
      cases hh with
      | twice h q c a _ hready₀ _ hc hp _ =>
        rw [hready₀] at hready
        cases hready
        rw [hc] at hcd
        exact Or.inl ⟨a, (Option.some.inj hcd) ▸ hp⟩
      | done h q _ hready₀ _ hfin _ =>
        rw [hready₀] at hready
        cases hready
        exact Or.inr (hfin cd hcd)
    cases hit with
    | initial l hp | await d k cd hp | refused a e hp | failed a e x x' hp | posted a x x' hp
    | sleep hp =>
      rw [hp] at hpoint
      rcases hpoint with ⟨a, ha⟩ | ha <;> cases ha
    | io b hp hf =>
      -- only the coroutine that takes its result changes its point
      cases hci : (s.popped d n q').coros i with
      | none =>
        have := finish_gone (s := { s.popped d n q' with world := _ }) hf hci
        rw [hc'] at this
        cases this
      | some ci =>
        obtain ⟨c₀, hc₀, hsame⟩ := popped_coros_eq_some hci
        have hp₀ : ci.point = c₀.point := by rcases hsame with rfl | ⟨-, rfl⟩ <;> rfl
        have hbody := hi c₀ hc₀
        rw [← hp₀] at hbody
        rcases finish_row (s := { s.popped d n q' with world := _ }) hf hci with
          hgone | ⟨c₁, hc₁, ⟨-, rfl⟩ | ⟨rfl, -⟩ | ⟨-, -, rfl⟩⟩
        · rw [hc'] at hgone
          cases hgone
        · rw [hc'] at hc₁
          exact (Option.some.inj hc₁) ▸ hbody
        · rw [hcd] at hc₀
          obtain rfl := Option.some.inj hc₀
          rw [hp₀, hp] at hbody
          simp [Point.op] at hbody
        · rw [hc'] at hc₁
          exact (Option.some.inj hc₁) ▸ hbody

end Halting

end Halting

section Resumed

variable {Loc G : Type} {code : Loc → Op Loc G ConnOp Val}
variable {s s' : Loop Loc G ConnOp Fabric Val} {h : ℕ} {c' : Coro Loc ConnOp Val}

/-- What has been resumed stays on record. -/
theorem Loop.Step.resumed_prefix (hs : Step efaWorld code s s') :
    s.world.history.resumed <+: s'.world.history.resumed := by
  have hsame : s'.world.history.resumed = s.world.history.resumed →
      s.world.history.resumed <+: s'.world.history.resumed := fun h => h ▸ List.prefix_refl _
  cases hs.fabricStep with
  | same hw | threw h a mem hw | registered h c a q mem _ _ _ _ _ _ hw
  | posted h c a q req mem _ _ _ _ _ _ _ _ hw => exact hsame (hw ▸ rfl)
  | resumed h c a q _ _ _ _ hw =>
    rw [hw, (ConnOp.resume_snd a h _).1]
    exact List.prefix_append _ _
  | taken events _ tk => exact hsame (tk.eq ▸ rfl)
  | moved m hm => exact hsame (Fabric.moved_of_move hm).1.resumed

/-- Whoever was in an operation and is done has been resumed. -/
theorem Loop.Step.resumed_of_final (hs : Step efaWorld code s s') (t : Table none s)
    (hok : EfaStepOk code s s') {a : ConnOp} {st : HandleState} (hop : s.op h = some (a, st))
    (hc' : s'.coros h = some c') (hf : c'.point.isFinal = true) :
    h ∈ s'.world.history.resumed := by
  have hnone : s'.op h = none := by
    rw [op_of_coros hc', Coro.op, Point.eq_final hf]
    rfl
  have hkept : ¬ (s'.coros h = none ∨ s'.op h = s.op h) := by
    rw [hc', hnone, hop]
    simp
  obtain ⟨c, hc, hp, -⟩ := op_eq_some.mp hop
  cases hs.worldStep t hok.not_running with
  | exec r _ _ _ _ hrow => exact absurd (hrow h) hkept
  | front i ci q r _ _ _ hci _ hfront hrow =>
    by_cases hi : h = i
    · subst hi
      rw [hc] at hci
      obtain rfl := Option.some.inj hci
      cases hfront with
      | idle hidle => simp [hp, Point.op] at hidle
      | refused b e hp' | failed b e x hp' | posted b x hp' =>
        rw [hp] at hp'
        cases hp'
      | ended b hp' hw _ =>
        have hw : s'.world = (b.resume h s.world).2 := hw
        rw [hw, (ConnOp.resume_snd b h _).1]
        exact List.mem_append_right _ (List.mem_singleton_self h)
    · exact absurd (hrow h hi) hkept
  | round events due _ _ _ _ _ hrow =>
    rw [hrow, hop] at hnone
    split at hnone <;> cases hnone
  | env _ heq =>
    rw [heq] at hkept
    exact absurd (Or.inr rfl) hkept

end Resumed

namespace Reader

variable {conn : Conn} {times : ℕ}

section Round

variable {s s' : Loop Loc Unit ConnOp Fabric Val} {h : ℕ}

/-- While something is registered, the root waits for the `Read` that is. -/
theorem States.waiting_of_registered (ss : States conn s) {id : ℕ}
    (hreg : s.world.immDataContexts id = some h) :
    ∃ i, h = i + 1 ∧ Outlined ((Phase.waiting i).outline conn) s := by
  obtain ⟨a, st, hop, -⟩ := ss.contexts.registered _ h hreg
  have hseq := (ss.op_eq hop).2
  obtain ⟨c, hc, hp, -⟩ := op_eq_some.mp hop
  obtain ⟨ph, ho⟩ := ss.outlined
  obtain ⟨r, hr, hfit⟩ := ho.fits hc
  have hseq' := ho.seq
  cases ph with
  | waiting i =>
    simp only [Phase.outline] at hseq'
    exact ⟨i, by omega, ho⟩
  | start | test i | ended n o | made i | back i o =>
    simp only [Phase.outline] at hr
    grind [Role.Fits, Point.isLeaf]

/-- Between two rounds nothing is queued then. -/
theorem States.ready_of_registered (ss : States conn s) (hhead : s.AtHead) {id : ℕ}
    (hreg : s.world.immDataContexts id = some h) : s.ready = [] := by
  obtain ⟨a, st, hop, -⟩ := ss.contexts.registered _ h hreg
  obtain ⟨c, hc, hp, -⟩ := op_eq_some.mp hop
  obtain ⟨i, rfl, ho⟩ := ss.waiting_of_registered hreg
  refine List.eq_nil_iff_forall_not_mem.mpr fun x hx => ?_
  have hq : x ∈ s.queued := List.mem_append_left _ hx
  obtain ⟨cx, hcx⟩ := ss.table.exists_of_mem_queued hq
  obtain ⟨rx, hrx, hfitx⟩ := ho.fits hcx
  simp only [Phase.outline] at hrx
  split at hrx
  · -- the root waits for the `Read`, which is not done
    cases hrx
    obtain ⟨-, hover⟩ := ss.table.over_of_mem_queued hcx hfitx.1 hq
    have := hover c hc
    rw [hp] at this
    cases this
  · split at hrx
    · -- and the `Read` is not pending
      rename_i hx'
      subst hx'
      have hpend : i + 1 ∈ s.pending := by
        rw [Loop.pending, Finset.mem_filter, List.mem_toFinset]
        exact ⟨hx, by rw [hop]; rfl⟩
      rw [ss.contexts.pending_of_head ss.table hhead] at hpend
      exact Finset.notMem_empty _ hpend
    · cases hrx

/-- **Two notifications for one `Read`** bring the loop to a halt. -/
theorem halting_of_round (ss : States conn s) (hr : RoundStep efaWorld s s')
    (hd : ¬ Distinct s.world) (hle : s.world.history.resumed.length ≤ s.world.notified) :
    Halting s' s'.world.notified ∧
      ∀ c, s'.coros 0 = some c → c.point.isFinal = false ∧ c.point.op = none := by
  obtain ⟨events, due, hhead, hpoll, hready, -, hleft, -, hop⟩ := hr.world
  have tk := Fabric.taken_of_select hpoll
  obtain ⟨-, hres, hnot, -⟩ := round_pending ss hr
  have htwo : 2 ≤ s.world.batch.countP Entry.isNotification := by
    by_contra hlt
    exact hd (distinct_of_countP ss (by omega))
  -- a `Read` is registered, or nothing would have a context
  obtain ⟨e, he, hn⟩ := List.countP_pos_iff.mp (by omega :
    0 < s.world.batch.countP Entry.isNotification)
  obtain ⟨h, hreg⟩ : ∃ h, s.world.immDataContexts kImmData = some h := by
    by_contra hnone
    refine hd ?_
    have hctx : ∀ e ∈ s.world.batch, s.world.context e = none := by
      intro e he
      refine Option.eq_none_iff_forall_not_mem.mpr fun h hh => hnone ⟨h, ?_⟩
      exact ((context_of_batch ss he).mp hh).2
    rw [Distinct, List.filterMap_eq_nil_iff.mpr fun e he => hctx e (List.mem_of_mem_filter he)]
    exact List.nodup_nil
  have hevents : events = List.replicate (s.world.batch.countP Entry.isNotification) h := by
    rw [tk.events_eq]
    refine List.eq_replicate_iff.mpr ⟨?_, fun x hx => ?_⟩
    · rw [List.length_filterMap_eq_countP]
      refine List.countP_congr fun e he => ?_
      constructor
      · intro hsome
        obtain ⟨x, hx⟩ := Option.isSome_iff_exists.mp hsome
        exact ((context_of_batch ss he).mp hx).1
      · intro hn
        rw [(context_of_batch ss he).mpr ⟨hn, hreg⟩]
        rfl
    · obtain ⟨e, he, hx⟩ := List.mem_filterMap.mp hx
      have := ((context_of_batch ss he).mp hx).2
      rw [hreg] at this
      exact (Option.some.inj this).symm
  obtain ⟨a, st, hop₀, -⟩ := ss.contexts.registered _ h hreg
  obtain ⟨k, hk⟩ := Nat.exists_eq_add_of_le' htwo
  have hmem : h ∈ events := by
    rw [hevents]
    exact List.mem_replicate.mpr ⟨by omega, rfl⟩
  obtain ⟨c, hc, hp, -⟩ := op_eq_some.mp (by rw [hop, if_pos hmem, hop₀]; rfl :
    s'.op h = some (a, .kScheduled))
  have hready' : s'.ready = h :: h :: (List.replicate k h ++ due) := by
    rw [hready, ss.ready_of_registered hhead hreg, hevents, hk]
    rfl
  obtain ⟨i, -, ho⟩ := ss.waiting_of_registered hreg
  have ho' : Outlined ((Phase.waiting i).outline conn) s' := by
    obtain @⟨s₁, now, events', x, -, -, -, hcall⟩ := hr
    exact ((ho.of_fields { s with world := x } rfl rfl rfl rfl).callAll hcall).of_fields _
      rfl rfl rfl rfl
  refine ⟨.twice h _ c a ho'.stack hready' (by rw [hleft, hready']; simp) hc hp ?_,
    fun c hc => ?_⟩
  · rw [hres, hnot]
    omega
  · obtain ⟨r, hr, hfit⟩ := ho'.fits hc
    cases hr
    rw [hfit.1]
    exact ⟨rfl, rfl⟩

end Round

/-! ## What the reader has read -/

section Tally

variable {ph : Phase} {res : ℕ → Outcome Val → Prop} {O O' : Outline Loc Unit ConnOp Val}
variable {s s' : Loop Loc Unit ConnOp Fabric Val}

/-- A handle is given out to a `Read` only. -/
theorem Phase.seq_cases (hs : Outline.Step (code conn times) res O O') :
    O'.seq = O.seq ∨
      O'.seq = O.seq + 1 ∧ O'.role O.seq = some (.fresh (.read conn kImmData)) := by
  cases hs with
  | still he | begin _ _ _ _ he | start _ _ _ _ _ he | wake _ _ _ _ _ _ _ _ _ _ _ he =>
    exact Or.inl (he ▸ rfl)
  | exec me l rest _ he =>
    cases l with
    | read i =>
      simp only [code] at he
      split at he
      · exact Or.inr ⟨he ▸ rfl, by rw [he]; simp [Outline.spawn]⟩
      · exact Or.inl (he ▸ rfl)
    | called i h =>
      rcases he with ⟨o, r, -, -, -, he⟩ | he
      · exact Or.inl (he ▸ rfl)
      · exact Or.inl (he ▸ rfl)
    | resumed i h o =>
      cases o with
      | ok v => exact Or.inl (he ▸ rfl)
      | error e => exact Or.inl (he ▸ rfl)

/-- The reader ends well only after its last `Read`. -/
theorem Phase.done_step {v : Option Val}
    (hs : Outline.Step (code conn times) res (ph.outline conn) O')
    (hold : ∀ v, (ph.outline conn).role 0 = some (.done (.ok v)) → times < (ph.outline conn).seq)
    (hd : O'.role 0 = some (.done (.ok v))) : times < O'.seq := by
  cases ph with
  | test i =>
    rcases hs.of_stack rfl with rfl | he
    · exact hold v hd
    · simp only [code] at he
      split at he
      · rw [he] at hd
        simp [Outline.spawn, outline] at hd
      · rw [he]
        show times < i + 1
        omega
  | made i =>
    rcases hs.of_stack rfl with rfl | he
    · exact hold v hd
    · rcases he with ⟨o, r, -, -, -, he⟩ | he <;> rw [he] at hd <;>
        simp [Outline.map, outline] at hd
  | back i o =>
    rcases hs.of_stack rfl with rfl | he
    · exact hold v hd
    · cases o with
      | ok u =>
        rw [he] at hd
        simp [Outline.map, Outline.drop, outline] at hd
      | error e =>
        rw [he] at hd
        simp only [Outline.map, Outline.drop, Outline.locals, outline] at hd
        grind
  | start | waiting i | ended n o =>
    cases hs with
    | still he => exact he ▸ hold v (he ▸ hd)
    | exec me l rest hstack _ => cases hstack
    | begin h a _ hr he | start h l ls _ hr he | wake h d k ls o' r _ hr _ hrd _ he =>
      rw [he] at hd
      simp only [outline, Outline.map] at hr hd
      grind

/-- **Every `Read` that is done or gone has been resumed.** -/
def Tallied (s : Loop Loc Unit ConnOp Fabric Val) : Prop :=
  ∀ h, 0 < h → h < s.seq → (∀ c, s.coros h = some c → c.point.isFinal = true) →
    h ∈ s.world.history.resumed

/-- The reader, if it has ended well, has given out a handle for every `Read`. -/
def Ended (times : ℕ) (s : Loop Loc Unit ConnOp Fabric Val) : Prop :=
  ∀ c v, s.coros 0 = some c → c.point.isFinal = true → c.get = .ok v → times < s.seq

/-- The root of a phase, and whoever else is there. -/
theorem States.point_of_pos (ss : States conn s) {h : ℕ} {c : Coro Loc ConnOp Val} (hpos : 0 < h)
    (hc : s.coros h = some c) : c.point = .initialIo (.read conn kImmData) ∨
      c.point = .io (.read conn kImmData) ∨ c.point = .final := by
  obtain ⟨ph, ho⟩ := ss.outlined
  obtain ⟨r, hr, hfit⟩ := ho.fits hc
  cases ph <;> simp only [Phase.outline] at hr <;> grind [Role.Fits]

/-- A reader that has ended well is in its last phase. -/
theorem role_of_ended (ho : Outlined (ph.outline conn) s) {c : Coro Loc ConnOp Val}
    {v : Option Val} (hc : s.coros 0 = some c) (hf : c.point.isFinal = true)
    (hget : c.get = .ok v) : (ph.outline conn).role 0 = some (.done (.ok v)) := by
  obtain ⟨r, hr, hfit⟩ := ho.fits hc
  cases ph <;> simp only [Phase.outline] at hr ⊢ <;> grind [Role.Fits]

theorem Ended.step (he : Ended times s) (ss : States conn s)
    (hs : Step efaWorld (code conn times) s s') : Ended times s' := by
  obtain ⟨ph, ho⟩ := ss.outlined
  obtain ⟨O', ho', hstep⟩ := ho.step_of_table ph.flat ss.table hs
  obtain ⟨⟨ph', rfl⟩, -⟩ := Phase.step hstep
  intro c' v hc' hf hget
  rw [ho'.seq]
  refine Phase.done_step hstep (fun u hu => ?_) (role_of_ended ho' hc' hf hget)
  obtain ⟨c, hc, hpoint, hres, -⟩ := ho.role 0 _ hu
  rw [← ho.seq]
  exact he c u hc (by rw [hpoint]; rfl) hres

theorem Tallied.step (ht : Tallied s) (ss : States conn s)
    (hs : Step efaWorld (code conn times) s s') (hok : EfaStepOk (code conn times) s s') :
    Tallied s' := by
  obtain ⟨ph, ho⟩ := ss.outlined
  obtain ⟨O', ho', hstep⟩ := ho.step_of_table ph.flat ss.table hs
  obtain ⟨-, hdrop⟩ := Phase.step hstep
  intro h hpos hlt hfin
  by_cases hold : ∀ c, s.coros h = some c → c.point.isFinal = true
  · by_cases hseq : h < s.seq
    · exact hs.resumed_prefix.subset (ht h hpos hseq hold)
    · -- the handle is new, and of a `Read` that has not begun
      rw [ho'.seq] at hlt
      rw [ho.seq] at hseq
      rcases Phase.seq_cases hstep with heq | ⟨heq, hrole⟩
      · omega
      · obtain rfl : h = (ph.outline conn).seq := by omega
        obtain ⟨c', hc', hpoint, -⟩ := ho'.role _ _ hrole
        have := hfin c' hc'
        rw [hpoint] at this
        cases this
  · push Not at hold
    obtain ⟨c, hc, hnf⟩ := hold
    have hpoint := ss.point_of_pos hpos hc
    cases hc' : s'.coros h with
    | none =>
      -- only what is done is dropped
      obtain ⟨r, hr, hfit⟩ := ho.fits hc
      have hnone : O'.role h = none := by
        cases hr' : O'.role h with
        | none => rfl
        | some r' =>
          obtain ⟨c', hc'', -⟩ := ho'.role h r' hr'
          rw [hc'] at hc''
          cases hc''
      rw [hdrop h r hr hnone] at hfit
      rw [hfit.1] at hnf
      exact absurd rfl hnf
    | some c' =>
      rcases (hs.row ss.table hok.not_running hc hc').leaf_done ss.table hc hpoint (hfin c' hc')
        with ⟨hp, -⟩ | ⟨-, hthrow, -⟩ | ⟨hop, -⟩
      · rw [hp] at hnf
        exact absurd rfl hnf
      · rcases hthrow with ⟨e, henter⟩ | ⟨y, e, z, -, hpost⟩
        · cases henter
        · cases hpost
      · exact hs.resumed_of_final ss.table hok hop hc' (hfin c' hc')

/-- **A reader that has ended well** has had all its `Read`s return. -/
theorem Tallied.times_le (ht : Tallied s) (ss : States conn s) (he : Ended times s)
    {c : Coro Loc ConnOp Val} {v : Option Val} (hc : s.coros 0 = some c)
    (hf : c.point.isFinal = true) (hget : c.get = .ok v) :
    times ≤ s.world.history.resumed.length := by
  obtain ⟨ph, ho⟩ := ss.outlined
  have hrole := role_of_ended ho hc hf hget
  have hall : List.range' 1 (s.seq - 1) ⊆ s.world.history.resumed := by
    intro h hh
    obtain ⟨hpos, hlt⟩ := List.mem_range'_1.mp hh
    refine ht h hpos (by omega) fun c hc => ?_
    have hnone : s.coros h = none := by
      refine ho.gone h ?_
      cases ph <;> simp only [Phase.outline] at hrole ⊢ <;> grind
    rw [hnone] at hc
    cases hc
  have hlen := (List.subperm_of_subset List.nodup_range' hall).length_le
  have := he c v hc hf hget
  rw [List.length_range'] at hlen
  omega

end Tally

/-! ## Along a run -/

/-- **What holds of the reader** until it halts. -/
structure Follows (conn : Conn) (times : ℕ) (s : Loop Loc Unit ConnOp Fabric Val) : Prop where
  states : States conn s
  law : s.world.history.resumed.length + s.pending.card ≤ s.world.notified
  tallied : Tallied s
  ended : Ended times s

/-- **What holds of the reader in every run.** It posts nothing, no more `Read`s have
returned than notifications were taken, and it has ended well only if all its `Read`s
have returned. -/
structure Receives (conn : Conn) (times : ℕ) (s : Loop Loc Unit ConnOp Fabric Val) : Prop where
  recorded : Recorded s.world
  posted : s.world.history.posted = []
  follows : Follows conn times s ∨ Halting s s.world.notified ∧
    ∀ c, s.coros 0 = some c → c.point.isFinal = false ∧ c.point.op = none

variable {s s' : Loop Loc Unit ConnOp Fabric Val}

/-- The reader posts nothing, as it makes only `Read`s. -/
theorem States.posted (ss : States conn s)
    (hs : Step efaWorld (code conn times) s s') :
    s'.world.history.posted = s.world.history.posted := by
  rcases hs.posted_cases with heq | ⟨h, a, req, hp⟩
  · exact heq
  · obtain ⟨c, hc, hpt⟩ := hp.point
    obtain ⟨ph, ho⟩ := ss.outlined
    obtain ⟨r, hr, hfit⟩ := ho.fits hc
    have hread : a = .read conn kImmData := by
      cases ph <;> simp only [Phase.outline] at hr <;> grind [Role.Fits, Point.isLeaf]
    have hreq := hp.request
    rw [hread] at hreq
    cases hreq

/-- One step until then: the reader follows on, or begins to halt. -/
theorem Follows.step (fo : Follows conn times s) (hs : Step efaWorld (code conn times) s s') :
    Follows conn times s' ∨ RoundStep efaWorld s s' ∧ ¬ Distinct s.world := by
  have ss := fo.states
  have hle := fo.law
  by_cases hr : RoundStep efaWorld s s'
  · by_cases hd : Distinct s.world
    · left
      obtain ⟨ss', hok⟩ := ss.step hs fun _ => hd
      refine ⟨ss', ?_, fo.tallied.step ss hs hok, fo.ended.step ss hs⟩
      obtain ⟨hnone, hres, hnot, hpend⟩ := round_pending ss hr
      have hcard : s'.pending.card ≤ s.world.batch.countP Entry.isNotification := by
        rw [hpend]
        split
        · exact le_trans (by cases s.world.immDataContexts kImmData <;> simp) ‹0 < _›
        · exact Nat.zero_le _
      rw [hres, hnot]
      omega
    · exact Or.inr ⟨hr, hd⟩
  · left
    obtain ⟨ss', hok⟩ := ss.step hs fun hr' => absurd hr' hr
    obtain ⟨htaken, hsum⟩ := ledger_step ss.table ss.contexts hs hok hr
    refine ⟨ss', ?_, fo.tallied.step ss hs hok, fo.ended.step ss hs⟩
    rw [hsum, show s'.world.notified = s.world.notified by
      rw [Fabric.notified, Fabric.notified, htaken]]
    exact hle

namespace Receives

theorem resumed_le (rc : Receives conn times s) :
    s.world.history.resumed.length ≤ s.world.notified := by
  rcases rc.follows with fo | ⟨hh, -⟩
  · have := fo.law
    omega
  · exact hh.resumed_le

theorem placed (rc : Receives conn times s) : s.world.history.placed = [] :=
  List.eq_nil_iff_forall_not_mem.mpr fun p hp => by
    have := rc.recorded.placed p hp
    rw [rc.posted] at this
    cases this

/-- **The reader ends well** only after all its notifications. -/
theorem times_le (rc : Receives conn times s) {c : Coro Loc ConnOp Val} {v : Option Val}
    (hc : s.coros 0 = some c) (hf : c.point.isFinal = true) (hget : c.get = .ok v) :
    times ≤ s.world.history.resumed.length := by
  rcases rc.follows with fo | ⟨-, hroot⟩
  · exact fo.tallied.times_le fo.states fo.ended hc hf hget
  · rw [(hroot c hc).1] at hf
    cases hf

/-- **One step keeps it.** -/
theorem step (rc : Receives conn times s) (hs : Step efaWorld (code conn times) s s') :
    Receives conn times s' := by
  rcases rc.follows with fo | ⟨hh, hroot⟩
  · refine ⟨rc.recorded.step hs, (fo.states.posted hs).trans rc.posted, ?_⟩
    rcases fo.step hs with fo' | ⟨hr, hd⟩
    · exact Or.inl fo'
    · have := fo.law
      exact Or.inr (halting_of_round fo.states hr hd (by omega))
  · obtain ⟨hh', htaken, hpost⟩ := hh.step hs
    refine ⟨rc.recorded.step hs, hpost.trans rc.posted, Or.inr ⟨?_, hh.body hs hroot⟩⟩
    rw [show s'.world.notified = s.world.notified by
      rw [Fabric.notified, Fabric.notified, htaken]]
    exact hh'

/-- What `Run` starts from. -/
theorem start (hb : Begins s) : Receives conn times s := by
  obtain ⟨⟨f, hf, rfl⟩, hh⟩ := hb
  have hworld : f.history = {} := hh
  refine ⟨⟨fun p hp => ?_, fun i hi => ?_, fun p hp => ?_⟩, ?_,
    Or.inl ⟨.boot hf, ?_, fun h hpos hlt => ?_, fun c v hc hfin => ?_⟩⟩
  · rw [boot_world, hf.inflight] at hp
    cases hp
  · rw [boot_world, hf.outstanding] at hi
    cases hi
  · rw [boot_world, hworld] at hp
    cases hp
  · rw [boot_world, hworld]
  · rw [(Contexts.boot true _ () hf).pending_of_head (Table.boot true _ () f) ⟨rfl, rfl⟩,
      boot_world, hworld]
    exact Nat.zero_le _
  · have hseq := (Outlined.boot (A := ConnOp) (V := Val) true (Loc.read 0) () f).seq
    simp at hseq
    omega
  · cases hc
    cases hfin

end Receives

/-- **In every run of the reader.** -/
theorem receives_of_run {σ : ℕ → Loop Loc Unit ConnOp Fabric Val} {n : ℕ}
    (hrun : IsRun Begins (Step efaWorld (code conn times)) σ n) :
    ∀ t ≤ n, Receives conn times (σ t) :=
  hrun.invariant _ (fun _ => .start) fun _ _ rc hs => rc.step hs

end Reader

end EfaExamples
