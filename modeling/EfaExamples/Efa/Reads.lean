import EfaExamples.Common.Run
import EfaExamples.Efa.Immediate
/-!
# Reads on one selector

`Register` keeps the context an immediate has, `UnRegister` removes whatever
the immediate has, and `HandleCompletion` looks up 32 bits. As long as every
`Read` starts with an immediate of 32 bits that no outstanding `Read` has,
each is found under its own, and takes only its own back. A second `Read` of
an immediate is not registered at all: no notification will wake it.
-/

namespace EfaExamples

namespace Fabric

variable {f : Fabric} {id ctx i : ℕ}

theorem register_self :
    (f.register id ctx).immDataContexts id = (f.immDataContexts id).or (some ctx) :=
  if_pos rfl

theorem register_of_ne (hi : i ≠ id) :
    (f.register id ctx).immDataContexts i = f.immDataContexts i :=
  if_neg hi

theorem unRegister_of_ne (hi : i ≠ id) :
    (f.unRegister id).immDataContexts i = f.immDataContexts i :=
  if_neg hi

end Fabric

namespace Reads

/-- A `Read` that has started and not resumed, by its context. -/
structure Row where
  handle : ℕ
  conn : Conn
  immData : ℕ
  state : HandleState
  deriving DecidableEq

/-- The call of the row. -/
def Row.op (r : Row) : ConnOp := .read r.conn r.immData

/-- The selector with the outstanding `Read`s. -/
structure State where
  world : Fabric
  rows : List Row

/-- `IO::Call` of the events, for a row. -/
def Row.call (events : List ℕ) (r : Row) : Row :=
  if r.handle ∈ events then { r with state := .kScheduled } else r

@[simp] theorem Row.call_handle {events : List ℕ} {r : Row} : (r.call events).handle = r.handle := by
  unfold call
  split <;> rfl

@[simp] theorem Row.call_immData {events : List ℕ} {r : Row} :
    (r.call events).immData = r.immData := by
  unfold call
  split <;> rfl

/-- Starts, dispatches and resumptions, in any order. -/
inductive Step : State → State → Prop
  /-- a `Read` runs from its beginning to its suspension -/
  | start {s : State} {f : Fabric} (r : Row) : r.state = .kSuspend →
      (∀ q ∈ s.rows, q.handle ≠ r.handle) → r.op.enter s.world = .ok s.world →
      r.op.post r.handle s.world = (none, f) → Step s ⟨f, s.rows ++ [r]⟩
  /-- the completion of a remote write is dispatched -/
  | dispatch {s : State} (e : Entry) : e.flags.remoteWrite = true →
      Step s ⟨(s.world.handleCompletion [e]).2,
        s.rows.map (Row.call (s.world.handleCompletion [e]).1)⟩
  /-- a `Read` that has been woken resumes -/
  | resume {s : State} (r : Row) : r ∈ s.rows → r.state = .kScheduled →
      Step s ⟨(r.op.resume r.handle s.world).2, s.rows.filter (·.handle ≠ r.handle)⟩
  /-- anything else, which leaves the map and the contexts of the `Read`s alone -/
  | world {s : State} {f : Fabric} : f.immDataContexts = s.world.immDataContexts →
      (∀ r ∈ s.rows, f.entry r.handle = s.world.entry r.handle) → Step s ⟨f, s.rows⟩

/-- No `Read` is outstanding, and the map is empty. -/
def Begins (s : State) : Prop := s.rows = [] ∧ ∀ i, s.world.immDataContexts i = none

/-- A notification for the immediate. -/
def notification (immData : ℕ) : Entry := { flags := { remoteWrite := true }, data := immData }

/-- The `Read`s suspended on the immediate. -/
def State.suspended (s : State) (immData : ℕ) : List ℕ :=
  (s.rows.filter fun r => r.immData = immData ∧ r.state = .kSuspend).map Row.handle

/-- **Every suspended `Read` can be woken**: as many notifications for an
immediate as `Read`s are suspended on it wake each of them once. -/
def State.Wakeable (s : State) : Prop :=
  ∀ immData, ((s.world.handleCompletion
    (List.replicate (s.suspended immData).length (notification immData))).1).Perm
      (s.suspended immData)

/-- **The step takes back no registration of a `Read` that stays.** -/
def KeepsOthers (s s' : State) : Prop :=
  ∀ r ∈ s'.rows, ∀ i, s.world.immDataContexts i = some r.handle →
    s'.world.immDataContexts i = some r.handle

/-- **A `Read` that starts has an immediate of 32 bits, and one no outstanding
`Read` has.** -/
def Fresh (s s' : State) : Prop :=
  ∀ r ∈ s'.rows, (∀ q ∈ s.rows, q.handle ≠ r.handle) →
    r.immData < 2 ^ 32 ∧ ∀ q ∈ s.rows, q.immData ≠ r.immData

/-- Every outstanding `Read` is registered under its immediate, and nothing else is. -/
structure Inv (s : State) : Prop where
  nodup : (s.rows.map Row.handle).Nodup
  registered : ∀ r ∈ s.rows, s.world.immDataContexts r.immData = some r.handle
  lt : ∀ r ∈ s.rows, r.immData < 2 ^ 32 ∧ r.immData ≠ 0
  only : ∀ i h, s.world.immDataContexts i = some h → ∃ r ∈ s.rows, r.handle = h ∧ r.immData = i
  flagged : ∀ r ∈ s.rows, r.state = .kScheduled → (s.world.entry r.handle).flags.remoteWrite = true

variable {s s' : State}

theorem Begins.inv (hb : Begins s) : Inv s := by
  refine ⟨by simp [hb.1], by simp [hb.1], by simp [hb.1], fun i h hi => ?_, by simp [hb.1]⟩
  rw [hb.2] at hi
  cases hi

/-- The context of a notification. -/
theorem context_notification {f : Fabric} {immData : ℕ} (hlt : immData < 2 ^ 32)
    (hne : immData ≠ 0) : f.context (notification immData) = f.immDataContexts immData := by
  have himm : (notification immData).immData = immData := Nat.mod_eq_of_lt hlt
  have hflag : (notification immData).flags.remoteWrite = true := rfl
  rw [Fabric.context, if_pos hflag, himm, if_neg hne]

namespace Inv

/-- Two outstanding `Read`s of one immediate are one. -/
theorem eq_of_immData (hi : Inv s) {q r : Row} (hq : q ∈ s.rows) (hr : r ∈ s.rows)
    (he : q.immData = r.immData) : q = r := by
  have hh := (hi.registered q hq).symm.trans (he ▸ hi.registered r hr)
  exact List.inj_on_of_nodup_map hi.nodup hq hr (Option.some.inj hh)

/-- What is registered is woken. -/
theorem wakeable (hi : Inv s) : s.Wakeable := by
  intro immData
  rcases hs : s.suspended immData with _ | ⟨h, rest⟩
  · exact List.Perm.refl _
  · -- the suspended one is the only one
    have hmem : ∀ h' ∈ s.suspended immData, s.world.immDataContexts immData = some h' ∧
        immData < 2 ^ 32 ∧ immData ≠ 0 := by
      intro h' hh'
      obtain ⟨r, hr, rfl⟩ := List.mem_map.mp hh'
      obtain ⟨hrows, hrow⟩ := List.mem_filter.mp hr
      obtain ⟨rfl, -⟩ := of_decide_eq_true hrow
      exact ⟨hi.registered r hrows, hi.lt r hrows⟩
    obtain ⟨hreg, hlt, hne⟩ := hmem h (hs ▸ List.mem_cons_self)
    have hnodup : (s.suspended immData).Nodup :=
      hi.nodup.sublist (List.filter_sublist.map Row.handle)
    obtain rfl : rest = [] := by
      rcases hrest : rest with _ | ⟨h', rest'⟩
      · rfl
      · have hh' := hmem h' (by rw [hs, hrest]; simp)
        rw [hs, hrest, Option.some.inj (hreg.symm.trans hh'.1)] at hnodup
        simp at hnodup
    have hevents : (s.world.handleCompletion [notification immData]).1 = [h] := by
      rw [(Fabric.handleCompletion_stored _ _).events_eq]
      simp [context_notification hlt hne, hreg]
    rw [List.length_singleton, List.replicate_one, hevents]

/-- A `Read` starts, with an immediate of its own. -/
theorem start (hi : Inv s) {f : Fabric} {r : Row} (hr : r.state = .kSuspend)
    (hnew : ∀ q ∈ s.rows, q.handle ≠ r.handle) (hent : r.op.enter s.world = .ok s.world)
    (hpost : r.op.post r.handle s.world = (none, f))
    (hfresh : r.immData < 2 ^ 32 ∧ ∀ q ∈ s.rows, q.immData ≠ r.immData) :
    Inv ⟨f, s.rows ++ [r]⟩ := by
  obtain rfl : s.world.register r.immData r.handle = f := (Prod.mk.inj hpost).2
  have hfree : s.world.immDataContexts r.immData = none := by
    cases hc : s.world.immDataContexts r.immData with
    | none => rfl
    | some h =>
      obtain ⟨q, hq, -, himm⟩ := hi.only _ _ hc
      exact absurd himm (hfresh.2 q hq)
  have hne : r.immData ≠ 0 := by
    intro h0
    simp [Row.op, ConnOp.enter, h0] at hent
  have hmem : ∀ q ∈ s.rows ++ [r], q ∈ s.rows ∨ q = r := by simp
  refine ⟨?_, fun q hq => ?_, fun q hq => ?_, fun i h hc => ?_, fun q hq hst => ?_⟩
  · rw [List.map_append, List.nodup_append]
    refine ⟨hi.nodup, by simp, fun h hh h' hh' => ?_⟩
    obtain ⟨q, hq, rfl⟩ := List.mem_map.mp hh
    obtain rfl : h' = r.handle := by simpa using hh'
    exact hnew q hq
  · rcases hmem q hq with hq | rfl
    · exact (Fabric.register_of_ne (hfresh.2 q hq)).trans (hi.registered q hq)
    · exact Fabric.register_self.trans (by rw [hfree, Option.none_or])
  · rcases hmem q hq with hq | rfl
    · exact hi.lt q hq
    · exact ⟨hfresh.1, hne⟩
  · rcases Fabric.registered_of_register hc with hc | ⟨rfl, rfl⟩
    · obtain ⟨q, hq, hqr⟩ := hi.only i h hc
      exact ⟨q, List.mem_append_left _ hq, hqr⟩
    · exact ⟨r, by simp, rfl, rfl⟩
  · rcases hmem q hq with hq | rfl
    · exact hi.flagged q hq hst
    · rw [hr] at hst
      cases hst

/-- A completion is dispatched. -/
theorem dispatch (hi : Inv s) {e : Entry} (he : e.flags.remoteWrite = true) :
    Inv ⟨(s.world.handleCompletion [e]).2,
      s.rows.map (Row.call (s.world.handleCompletion [e]).1)⟩ := by
  have hstored := Fabric.handleCompletion_stored [e] s.world
  have hmap : (s.world.handleCompletion [e]).2.immDataContexts = s.world.immDataContexts := by
    rw [hstored.eq]
  have hhandles : (s.rows.map (Row.call (s.world.handleCompletion [e]).1)).map Row.handle =
      s.rows.map Row.handle := by
    rw [List.map_map]
    exact List.map_congr_left fun r _ => Row.call_handle
  refine ⟨hhandles ▸ hi.nodup, fun r hr => ?_, fun r hr => ?_, fun i h hc => ?_, fun r hr hst => ?_⟩
  · obtain ⟨q, hq, rfl⟩ := List.mem_map.mp hr
    rw [hmap, Row.call_immData, Row.call_handle]
    exact hi.registered q hq
  · obtain ⟨q, hq, rfl⟩ := List.mem_map.mp hr
    rw [Row.call_immData]
    exact hi.lt q hq
  · rw [hmap] at hc
    obtain ⟨q, hq, hh, himm⟩ := hi.only i h hc
    exact ⟨_, List.mem_map_of_mem hq, Row.call_handle.trans hh, Row.call_immData.trans himm⟩
  · obtain ⟨q, hq, rfl⟩ := List.mem_map.mp hr
    rw [Row.call_handle]
    rcases hstored.entry q.handle with ⟨hsame, hno⟩ | ⟨e', he', -, hnew⟩
    · rw [Row.call, if_neg hno] at hst
      exact hsame ▸ hi.flagged q hq hst
    · obtain rfl : e' = e := by simpa using he'
      exact (congrArg (fun e => e.flags.remoteWrite) hnew).trans he

/-- A `Read` that was woken takes its registration back. -/
theorem unRegister (hi : Inv s) {r : Row} (hr : r ∈ s.rows) (hst : r.state = .kScheduled) :
    (r.op.resume r.handle s.world).2.immDataContexts =
      (s.world.unRegister r.immData).immDataContexts := by
  rw [(ConnOp.resume_snd r.op r.handle s.world).2, if_pos ⟨rfl, hi.flagged r hr hst⟩]
  rfl

/-- A `Read` resumes. -/
theorem resume (hi : Inv s) {r : Row} (hr : r ∈ s.rows) (hst : r.state = .kScheduled) :
    Inv ⟨(r.op.resume r.handle s.world).2, s.rows.filter (·.handle ≠ r.handle)⟩ := by
  have hmap := hi.unRegister hr hst
  have hmem : ∀ q ∈ s.rows.filter (·.handle ≠ r.handle), q ∈ s.rows ∧ q.immData ≠ r.immData := by
    intro q hq
    obtain ⟨hq, hne⟩ := List.mem_filter.mp hq
    exact ⟨hq, fun he => of_decide_eq_true hne (congrArg Row.handle (hi.eq_of_immData hq hr he))⟩
  refine ⟨hi.nodup.sublist (List.filter_sublist.map Row.handle), fun q hq => ?_,
    fun q hq => hi.lt q (hmem q hq).1, fun i h hc => ?_, fun q hq hs => ?_⟩
  · obtain ⟨hq, hne⟩ := hmem q hq
    rw [hmap, Fabric.unRegister_of_ne hne]
    exact hi.registered q hq
  · rw [hmap] at hc
    obtain ⟨hc, hne⟩ := Fabric.registered_of_unRegister hc
    obtain ⟨q, hq, rfl, rfl⟩ := hi.only i h hc
    refine ⟨q, List.mem_filter.mpr ⟨hq, decide_eq_true fun he => hne ?_⟩, rfl, rfl⟩
    exact congrArg Row.immData (List.inj_on_of_nodup_map hi.nodup hq hr he)
  · rw [(ConnOp.resume_snd r.op r.handle s.world).1]
    exact hi.flagged q (hmem q hq).1 hs

/-- **A step keeps the registrations**, if a `Read` that starts is fresh. -/
theorem step (hi : Inv s) (hs : Step s s') (hf : Fresh s s') : Inv s' := by
  cases hs with
  | start r hr hnew hent hpost =>
    exact hi.start hr hnew hent hpost (hf r (List.mem_append_right _ (by simp)) hnew)
  | dispatch e he => exact hi.dispatch he
  | resume r hr hst => exact hi.resume hr hst
  | world hmap hentry =>
    refine ⟨hi.nodup, fun r hr => hmap ▸ hi.registered r hr, hi.lt, fun i h hc => ?_,
      fun r hr hst => ?_⟩
    · exact hi.only i h (hmap ▸ hc)
    · rw [hentry r hr]
      exact hi.flagged r hr hst

/-- Nobody's registration is taken back by another. -/
theorem keepsOthers (hi : Inv s) (hs : Step s s') : KeepsOthers s s' := by
  intro q hq i hc
  cases hs with
  | start r _ _ _ hpost =>
    have hf : s.world.register r.immData r.handle = _ := (Prod.mk.inj hpost).2
    rw [← hf]
    by_cases hir : i = r.immData
    · rw [hir] at hc ⊢
      rw [Fabric.register_self, hc, Option.some_or]
    · rw [Fabric.register_of_ne hir, hc]
  | dispatch e he =>
    rw [(Fabric.handleCompletion_stored [e] s.world).eq]
    exact hc
  | resume r hr hst =>
    obtain ⟨hq, hne⟩ := List.mem_filter.mp hq
    obtain ⟨q', hq', hh, rfl⟩ := hi.only i _ hc
    have himm : q'.immData ≠ r.immData := fun he => of_decide_eq_true hne
      (hh.symm.trans (congrArg Row.handle (hi.eq_of_immData hq' hr he)))
    rw [hi.unRegister hr hst, Fabric.unRegister_of_ne himm, hc]
  | world hmap _ => rw [hmap, hc]

/-- A `Read` that starts and is not fresh will not be woken. -/
theorem fresh_of_wakeable (hi : Inv s) (hs : Step s s') (hw : s'.Wakeable) : Fresh s s' := by
  intro r hr hnew
  -- only a start brings a context that was not there
  have hold : ∀ q ∈ s.rows, q.handle ≠ r.handle := hnew
  cases hs with
  | start r' hst hnew' hent hpost =>
    obtain hr | rfl : r ∈ s.rows ∨ r = r' := by simpa using hr
    · exact absurd rfl (hold r hr)
    · obtain rfl : s.world.register r.immData r.handle = _ := (Prod.mk.inj hpost).2
      set s' : State := ⟨s.world.register r.immData r.handle, s.rows ++ [r]⟩ with hs'
      have hsus : r.handle ∈ s'.suspended r.immData :=
        List.mem_map.mpr ⟨r, List.mem_filter.mpr ⟨by simp [hs'], by simp [hst]⟩, rfl⟩
      -- so a notification reaches it, and can only do so through its own registration
      have hev := (hw r.immData).mem_iff.mpr hsus
      rw [(Fabric.handleCompletion_stored _ _).events_eq] at hev
      obtain ⟨e, he, hctx⟩ := List.mem_filterMap.mp hev
      obtain rfl := List.eq_of_mem_replicate he
      have hflag : (notification r.immData).flags.remoteWrite = true := rfl
      rw [Fabric.context, if_pos hflag] at hctx
      split at hctx
      · cases hctx
      · rcases Fabric.registered_of_register hctx with hc | ⟨himm, -⟩
        · obtain ⟨q, hq, hh, -⟩ := hi.only _ _ hc
          exact absurd hh (hold q hq)
        · have hlt : r.immData < 2 ^ 32 := himm ▸ Nat.mod_lt _ (by decide)
          refine ⟨hlt, fun q hq he => hold q hq ?_⟩
          have hctx : s'.world.immDataContexts r.immData = some r.handle := himm ▸ hctx
          have hreg : s'.world.immDataContexts r.immData = some q.handle := by
            rw [hs', Fabric.register_self, ← he, hi.registered q hq, Option.some_or]
          exact Option.some.inj (hreg.symm.trans hctx)
  | dispatch e he =>
    obtain ⟨q, hq, rfl⟩ := List.mem_map.mp hr
    exact absurd Row.call_handle.symm (hold q hq)
  | resume r' hr' hst => exact absurd rfl (hold r (List.mem_of_mem_filter hr))
  | world _ _ => exact absurd rfl (hold r hr)

end Inv

/-- **Every outstanding `Read` is registered**: along a run every suspended
`Read` can be woken and no `Read` takes back another's registration exactly if
each starts with an immediate of 32 bits that no outstanding `Read` has. -/
theorem wakeable_iff {σ : ℕ → State} {n : ℕ} (hrun : IsRun Begins Step σ n) :
    ((∀ t ≤ n, (σ t).Wakeable) ∧ ∀ t < n, KeepsOthers (σ t) (σ (t + 1))) ↔
      ∀ t < n, Fresh (σ t) (σ (t + 1)) := by
  have hiff := hrun.forall_iff_forall_guard Inv State.Wakeable Fresh (fun _ => Begins.inv)
    (fun _ _ hi => hi.step) (fun _ hi => hi.wakeable) (fun _ _ hi => hi.fresh_of_wakeable)
  refine ⟨fun h => hiff.mp h.1, fun hfresh => ⟨hiff.mpr hfresh, fun t ht => ?_⟩⟩
  have hinv := hrun.invariant_of_guard Inv Fresh (fun _ => Begins.inv) (fun _ _ hi => hi.step) hfresh
  exact (hinv t ht.le).keepsOthers (hrun.next t ht)

/-- The `Read` of the immediate, just started. -/
def row (handle immData : ℕ) : Row := ⟨handle, conn, immData, .kSuspend⟩

/-- A state in which two `Read`s have started, one after the other. -/
def afterTwo (id id' : ℕ) : State :=
  ⟨(quiet.register id 1).register id' 2, [row 1 id, row 2 id']⟩

/-- Two `Read`s start. -/
def two (id id' : ℕ) : ℕ → State
  | 0 => ⟨quiet, []⟩
  | 1 => ⟨quiet.register id 1, [row 1 id]⟩
  | _ => afterTwo id id'

theorem two_isRun {id id' : ℕ} (hid : id ≠ 0) (hid' : id' ≠ 0) :
    IsRun Begins Step (two id id') 2 := by
  have hent : ∀ (f : Fabric) h i, i ≠ 0 → (row h i).op.enter f = .ok f := fun f h i hi => if_neg hi
  refine ⟨⟨rfl, fun _ => rfl⟩, fun t ht => ?_⟩
  obtain rfl | rfl : t = 0 ∨ t = 1 := by omega
  · exact Step.start (row 1 id) rfl (by simp [two]) (hent _ _ _ hid) rfl
  · exact Step.start (row 2 id') rfl (by simp [two, row]) (hent _ _ _ hid') rfl

/-- Of two immediates, each wakes its `Read`. -/
theorem wakeable_iff_two : (two 0x123 0x124 2).Wakeable := by
  refine ((wakeable_iff (two_isRun (by decide) (by decide))).mpr fun t ht => ?_).1 2 (by decide)
  obtain rfl | rfl : t = 0 ∨ t = 1 := by omega
  · intro r hr _
    obtain rfl : r = row 1 0x123 := by simpa [two] using hr
    exact ⟨by decide, by simp [two]⟩
  · intro r hr hnew
    obtain rfl | rfl : r = row 1 0x123 ∨ r = row 2 0x124 := by simpa [two, afterTwo] using hr
    · exact absurd rfl (hnew _ (by simp [two]))
    · exact ⟨by decide, by simp [two, row]⟩

/-- Of one immediate, the second `Read` is not registered. -/
theorem second_unregistered : IsRun Begins Step (two 0x123 0x123) 2 ∧
    ¬ (two 0x123 0x123 2).Wakeable :=
  ⟨two_isRun (by decide) (by decide), fun hw => absurd (hw 0x123) (by decide)⟩

end Reads

end EfaExamples
