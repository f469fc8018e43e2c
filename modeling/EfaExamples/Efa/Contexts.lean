import EfaExamples.Coro.Waiting
import EfaExamples.Coro.Scheduler
import EfaExamples.Efa.Select
/-!
# Contexts and the coroutines behind them

`Contexts` says who waits for what: an operation the fabric has not handed
back belongs to a coroutine suspended in it, a registration to a coroutine
in a `Read`, and a coroutine whose event has come is among those `Runone`
still owes a run. `Contexts.step` keeps it under `EfaStepOk`, which is what
the code relies on and nothing checks: no coroutine is destroyed while
anything refers to it, none is awaited while it executes, and a `Select` has
at most one remote write for a registered immediate.
-/

namespace EfaExamples

open Loop

variable {Loc G : Type} {code : Loc → Op Loc G ConnOp Val}
variable {s s' : Loop Loc G ConnOp Fabric Val} {h : ℕ} {c : Coro Loc ConnOp Val}

/-- **Who waits for what.** -/
structure Contexts (s : Loop Loc G ConnOp Fabric Val) : Prop where
  inflight : ∀ p ∈ s.world.inflight, ∃ a, s.op p.ctx = some (a, .kSuspend) ∧
    a.request = some p.req
  completed : ∀ q ∈ s.world.completions, ∀ h, q.2.operation = some h →
    ∃ a req, s.op h = some (a, .kSuspend) ∧ a.request = some req ∧ q.2.flags = req.flags ∧
      s.world.Placed h
  once : s.world.outstanding.Nodup
  waiting : ∀ h a, s.op h = some (a, .kSuspend) → a.request ≠ none → h ∈ s.world.outstanding
  registered : ∀ id h, s.world.immDataContexts id = some h →
    ∃ a st, s.op h = some (a, st) ∧ a.request = none ∧ a.awaitedImm = id
  delivered : ∀ h a, s.op h = some (a, .kScheduled) →
    h ∈ s.ready.take s.left ∧ (∃ e, (h, e) ∈ s.world.history.stored) ∧
      (a.request = none → (s.world.entry h).flags.remoteWrite = true) ∧
      ∀ req, a.request = some req → (s.world.entry h).flags = req.flags ∧ s.world.Placed h
  left : s.left ≤ s.ready.length

/-- **Nothing that is left refers to coroutine `h`.** It is queued nowhere, is
not executing and is nobody's `next`; neither the fabric nor the selector has
its context. -/
structure Unreferenced (s s' : Loop Loc G ConnOp Fabric Val) (h : ℕ) : Prop where
  queued : h ∉ s.queued
  running : h ∉ s.running
  next : ∀ i < s.seq, ∀ c ∈ s.coros i, (s'.coros i).isSome = true → c.point.isFinal = false →
    c.next ≠ some h
  outstanding : h ∉ s.world.outstanding
  registered : ∀ p ∈ s.op h, s.world.immDataContexts p.1.awaitedImm ≠ some h

instance (s s' : Loop Loc G ConnOp Fabric Val) (h : ℕ) : Decidable (Unreferenced s s' h) :=
  decidable_of_iff (_ ∧ _ ∧ _ ∧ _ ∧ _)
    ⟨fun ⟨h₁, h₂, h₃, h₄, h₅⟩ => ⟨h₁, h₂, h₃, h₄, h₅⟩,
      fun h => ⟨h.queued, h.running, h.next, h.outstanding, h.registered⟩⟩

/-- **The step takes away nothing that is in use**: it destroys only coroutines
nothing refers to, and awaits none that is executing. -/
structure EfaOwned (code : Loc → Op Loc G ConnOp Val) (s s' : Loop Loc G ConnOp Fabric Val) :
    Prop where
  destroy : ∀ h < s.seq, (s.coros h).isSome = true → (s'.coros h).isNone = true →
    Unreferenced s s' h
  await : ∀ p ∈ s.awaiting code, p.2 ∉ s.running

instance (s s' : Loop Loc G ConnOp Fabric Val) : Decidable (EfaOwned code s s') :=
  decidable_of_iff (_ ∧ _) ⟨fun h => ⟨h.1, h.2⟩, fun h => ⟨h.destroy, h.await⟩⟩

/-- **No two remote writes the next `Select` takes have the same context.** -/
def Distinct (f : Fabric) : Prop :=
  ((f.batch.filter (·.flags.remoteWrite)).filterMap f.context).Nodup

instance (f : Fabric) : Decidable (Distinct f) := inferInstanceAs (Decidable (List.Nodup _))

/-- **What the contexts ask of a step.** -/
structure EfaStepOk (code : Loc → Op Loc G ConnOp Val) (s s' : Loop Loc G ConnOp Fabric Val) :
    Prop where
  owned : EfaOwned code s s'
  batch : RoundStep efaWorld s s' → Distinct s.world

namespace Contexts

/-- Whoever the fabric owes a completion is suspended. -/
theorem of_mem_outstanding (k : Contexts s) (hh : h ∈ s.world.outstanding) :
    ∃ a req, s.op h = some (a, .kSuspend) ∧ a.request = some req := by
  rcases List.mem_append.mp hh with hh | hh
  · obtain ⟨p, hp, rfl⟩ := List.mem_map.mp hh
    obtain ⟨a, ha, hr⟩ := k.inflight p hp
    exact ⟨a, p.req, ha, hr⟩
  · obtain ⟨q, hq, ho⟩ := List.mem_filterMap.mp hh
    obtain ⟨a, req, ha, hr, -⟩ := k.completed q hq h ho
    exact ⟨a, req, ha, hr⟩

/-! ## The events of a batch -/

/-- The entries of a batch are among those the fabric holds. -/
theorem mem_completions_of_batch {f : Fabric} {e : Entry} (he : e ∈ f.batch) :
    ∃ cq, (cq, e) ∈ f.completions := by
  have hmem : e ∈ f.completions.map Prod.snd :=
    (Fabric.drain_perm f.cqs f.completions).subset (List.mem_append_left _ he)
  obtain ⟨q, hq, rfl⟩ := List.mem_map.mp hmem
  exact ⟨q.1, hq⟩

/-- A completion of a batch has a context that is suspended. -/
theorem suspended_of_batch (k : Contexts s) (t : Table none s) (hhead : s.AtHead) {e : Entry}
    (he : e ∈ s.world.batch) (hh : s.world.context e = some h) :
    ∃ a, s.op h = some (a, .kSuspend) ∧ (a.request = none ↔ e.flags.remoteWrite = true) := by
  rcases Fabric.operation_or_registered hh with ho | ⟨hrw, -, hreg⟩
  · obtain ⟨cq, hq⟩ := mem_completions_of_batch he
    obtain ⟨a, req, ha, hr, -⟩ := k.completed _ hq h ho
    refine ⟨a, ha, by simp [hr], fun hrw => ?_⟩
    simp [Entry.operation, hrw] at ho
  · obtain ⟨a, st, ha, hr, -⟩ := k.registered _ h hreg
    -- at the head of the loop nobody's event is still to be run
    have hst : st = .kSuspend := by
      obtain ⟨c, hc, hp, hst⟩ := op_eq_some.mp ha
      have hne := (t.state_of_op hc hp).1
      rw [hst] at hne
      cases st with
      | kSuspend => rfl
      | kUnschedule => exact absurd rfl hne
      | kScheduled =>
        have := (k.delivered h a ha).1
        rw [hhead.2] at this
        cases this
    rw [hst] at ha
    exact ⟨a, ha, by simp [hr, hrw]⟩

/-- **The events of a batch are distinct**, if no two of its remote writes have
the same context. -/
theorem nodup_batch (k : Contexts s) (t : Table none s) (hhead : s.AtHead)
    (hb : Distinct s.world) :
    (s.world.batch.filterMap s.world.context).Nodup := by
  set f := s.world with hf
  have hsplit : (f.batch.filter (·.flags.remoteWrite) ++
      f.batch.filter (!·.flags.remoteWrite)).Perm f.batch := List.filter_append_perm _ _
  refine (hsplit.filterMap f.context).nodup_iff.mp ?_
  rw [List.filterMap_append]
  refine List.Nodup.append hb ?_ ?_
  · -- the operations the fabric owes are distinct
    have hops : (f.batch.filterMap Entry.operation).Nodup := by
      have hperm := (Fabric.drain_perm f.cqs f.completions).filterMap Entry.operation
      have hone : (f.completions.filterMap fun p => p.2.operation).Nodup :=
        (List.nodup_append.mp k.once).2.1
      rw [List.filterMap_append] at hperm
      rw [← Function.comp_def, ← List.filterMap_map] at hone
      exact (List.nodup_append.mp (hperm.nodup_iff.mpr hone)).1
    have heq : (f.batch.filter (!·.flags.remoteWrite)).filterMap f.context =
        f.batch.filterMap Entry.operation := by
      rw [List.filterMap_filter]
      refine List.filterMap_congr fun e _ => ?_
      rw [Entry.operation, Fabric.context]
      cases e.flags.remoteWrite <;> rfl
    rw [heq]
    exact hops
  · intro i hi hi'
    obtain ⟨e, he, hc⟩ := List.mem_filterMap.mp hi
    obtain ⟨e', he', hc'⟩ := List.mem_filterMap.mp hi'
    obtain ⟨a, ha, hr⟩ := k.suspended_of_batch t hhead (List.mem_filter.mp he).1 hc
    obtain ⟨a', ha', hr'⟩ := k.suspended_of_batch t hhead (List.mem_filter.mp he').1 hc'
    rw [ha] at ha'
    cases ha'
    have h₂ := hr'.mp (hr.mpr (List.mem_filter.mp he).2)
    have h₃ := (List.mem_filter.mp he').2
    simp [h₂] at h₃

/-! ## One step -/

/-- **Nothing new waits.** Some coroutines have ended or are gone that the
fabric and the selector do not refer to. -/
theorem of_op (k : Contexts s)
    (hop : ∀ i ∈ s.world.outstanding, s'.op i = s.op i)
    (hreg : ∀ id i, s'.world.immDataContexts id = some i →
      s.world.immDataContexts id = some i ∧ s'.op i = s.op i)
    (hback : ∀ i, s'.op i = none ∨ s'.op i = s.op i)
    (hw : s'.world.inflight = s.world.inflight)
    (hc : s'.world.completions = s.world.completions)
    (he : s'.world.entry = s.world.entry)
    (hst : s'.world.history.stored = s.world.history.stored)
    (hpl : s'.world.history.placed = s.world.history.placed)
    (hready : ∀ i, s'.op i ≠ none → i ∈ s.ready.take s.left → i ∈ s'.ready.take s'.left)
    (hleft : s'.left ≤ s'.ready.length) : Contexts s' := by
  have hold : ∀ i a st, s'.op i = some (a, st) → s.op i = some (a, st) := by
    intro i a st hs
    rcases hback i with hn | heq
    · rw [hn] at hs
      cases hs
    · rw [← heq]
      exact hs
  have hout : s'.world.outstanding = s.world.outstanding := by
    rw [Fabric.outstanding, Fabric.outstanding, hw, hc]
  have hplaced : ∀ i, s'.world.Placed i ↔ s.world.Placed i := by
    intro i
    rw [Fabric.Placed, Fabric.Placed, hpl]
  constructor
  · intro p hp
    rw [hw] at hp
    obtain ⟨a, ha, hr⟩ := k.inflight p hp
    have hmem : p.ctx ∈ s.world.outstanding :=
      List.mem_append_left _ (List.mem_map_of_mem hp)
    exact ⟨a, by rw [hop _ hmem]; exact ha, hr⟩
  · intro q hq i hi'
    rw [hc] at hq
    obtain ⟨a, req, ha, hr, hf, hpl⟩ := k.completed q hq i hi'
    have hmem : i ∈ s.world.outstanding :=
      List.mem_append_right _ (List.mem_filterMap.mpr ⟨q, hq, hi'⟩)
    exact ⟨a, req, by rw [hop _ hmem]; exact ha, hr, hf, (hplaced i).mpr hpl⟩
  · rw [hout]
    exact k.once
  · intro i a ha hr
    rw [hout]
    exact k.waiting i a (hold _ _ _ ha) hr
  · intro id i hi'
    obtain ⟨hs, hop⟩ := hreg id i hi'
    obtain ⟨a, st, ha, hr⟩ := k.registered id i hs
    exact ⟨a, st, by rw [hop]; exact ha, hr⟩
  · intro i a ha
    have ha' := hold _ _ _ ha
    obtain ⟨hmem, hstored, hread, hreq⟩ := k.delivered i a ha'
    rw [he, hst]
    exact ⟨hready i (by rw [ha]; simp) hmem, hstored, hread,
      fun req hr => ⟨(hreq req hr).1, (hplaced i).mpr (hreq req hr).2⟩⟩
  · exact hleft

/-- A coroutine posts its operation. -/
theorem post {a : ConnOp} {x : Fabric} (k : Contexts s) (hop : s'.op h = some (a, .kSuspend))
    (hfresh : s.op h = none) (hw : ∃ mem, x = { s.world with mem := mem })
    (hpost : a.post h x = (none, s'.world))
    (hkept : ∀ i ≠ h, i ∈ s.world.outstanding ∨ (∃ id, s.world.immDataContexts id = some i) →
      s'.op i = s.op i)
    (hback : ∀ i ≠ h, s'.op i = none ∨ s'.op i = s.op i)
    (hready : ∀ i, s.op i ≠ none → i ∈ s.ready.take s.left → i ∈ s'.ready.take s'.left)
    (hleft : s'.left ≤ s'.ready.length) : Contexts s' := by
  obtain ⟨mem, rfl⟩ := hw
  -- the new one was not waiting, so nothing refers to it yet
  have hne : ∀ i, i ∈ s.world.outstanding ∨ (∃ id, s.world.immDataContexts id = some i) →
      i ≠ h := by
    rintro i hi rfl
    rcases hi with hi | ⟨id, hi⟩
    · obtain ⟨a, req, ha, -⟩ := k.of_mem_outstanding hi
      rw [hfresh] at ha
      cases ha
    · obtain ⟨a, st, ha, -⟩ := k.registered id i hi
      rw [hfresh] at ha
      cases ha
  have hsame : ∀ i, i ∈ s.world.outstanding ∨ (∃ id, s.world.immDataContexts id = some i) →
      s'.op i = s.op i := fun i hi => hkept i (hne i hi) hi
  have hold : ∀ i a st, s'.op i = some (a, st) → i ≠ h → s.op i = some (a, st) := by
    intro i a st hs hi
    rcases hback i hi with hn | heq
    · rw [hn] at hs
      cases hs
    · rw [← heq]
      exact hs
  have hdel : ∀ (stored : s'.world.history.stored = s.world.history.stored)
      (_ : s'.world.history.placed = s.world.history.placed)
      (_ : s'.world.entry = s.world.entry), ∀ i b, s'.op i = some (b, .kScheduled) →
      i ∈ s'.ready.take s'.left ∧ (∃ e, (i, e) ∈ s'.world.history.stored) ∧
        (b.request = none → (s'.world.entry i).flags.remoteWrite = true) ∧
        ∀ req, b.request = some req → (s'.world.entry i).flags = req.flags ∧
          s'.world.Placed i := by
    intro hst hpl he i b hb
    have hi : i ≠ h := by
      rintro rfl
      rw [hop] at hb
      cases hb
    have hb' := hold i b _ hb hi
    obtain ⟨hmem, hstored, hread, hreq⟩ := k.delivered i b hb'
    rw [Fabric.Placed, hst, hpl, he]
    exact ⟨hready i (by rw [hb']; simp) hmem, hstored, hread, hreq⟩
  -- what was in flight, completed or registered is still that
  have hin : ∀ p ∈ s.world.inflight, ∃ b, s'.op p.ctx = some (b, .kSuspend) ∧
      b.request = some p.req := by
    intro p hp
    rw [hsame _ (Or.inl (List.mem_append_left _ (List.mem_map_of_mem hp)))]
    exact k.inflight p hp
  have hdone : ∀ (_ : s'.world.history.placed = s.world.history.placed),
      ∀ q ∈ s.world.completions, ∀ i, q.2.operation = some i → ∃ b req,
        s'.op i = some (b, .kSuspend) ∧ b.request = some req ∧ q.2.flags = req.flags ∧
          s'.world.Placed i := by
    intro hpl q hq i hi
    have hmem : i ∈ s.world.outstanding :=
      List.mem_append_right _ (List.mem_filterMap.mpr ⟨q, hq, hi⟩)
    rw [hsame _ (Or.inl hmem), Fabric.Placed, hpl]
    exact k.completed q hq i hi
  have hreg : ∀ id i, s.world.immDataContexts id = some i → ∃ b st, s'.op i = some (b, st) ∧
      b.request = none ∧ b.awaitedImm = id := by
    intro id i hi
    rw [hsame _ (Or.inr ⟨id, hi⟩)]
    exact k.registered id i hi
  rcases ConnOp.post_ok hpost with ⟨req, hreq, hx⟩ | ⟨hreq, hx⟩
  · have hout : s'.world.outstanding.Perm (h :: s.world.outstanding) := by
      rw [Fabric.outstanding, Fabric.outstanding, hx]
      simp only [List.map_append, List.map_cons, List.map_nil, List.append_assoc,
        List.singleton_append]
      exact List.perm_middle
    constructor
    · intro p hp
      rw [hx] at hp
      rcases List.mem_append.mp hp with hp | hp
      · exact hin p hp
      · rw [List.mem_singleton.mp hp]
        exact ⟨a, hop, hreq⟩
    · intro q hq
      rw [hx] at hq
      exact hdone (by rw [hx]) q hq
    · rw [hout.nodup_iff, List.nodup_cons]
      exact ⟨fun hmem => hne h (Or.inl hmem) rfl, k.once⟩
    · intro i b hb hr
      rw [hout.mem_iff, List.mem_cons]
      by_cases hi : i = h
      · exact Or.inl hi
      · exact Or.inr (k.waiting i b (hold i b _ hb hi) hr)
    · intro id i hi
      rw [hx] at hi
      exact hreg id i hi
    · exact hdel (by rw [hx]) (by rw [hx]) (by rw [hx])
    · exact hleft
  · have hout : s'.world.outstanding = s.world.outstanding := by
      rw [Fabric.outstanding, Fabric.outstanding, hx]
      rfl
    constructor
    · intro p hp
      rw [hx] at hp
      exact hin p hp
    · intro q hq
      rw [hx] at hq
      exact hdone (by rw [hx]; rfl) q hq
    · rw [hout]
      exact k.once
    · intro i b hb hr
      rw [hout]
      by_cases hi : i = h
      · subst hi
        rw [hop] at hb
        cases hb
        exact absurd hreq hr
      · exact k.waiting i b (hold i b _ hb hi) hr
    · intro id i hi
      rw [hx] at hi
      rcases Fabric.registered_of_register hi with hi | ⟨hid, hih⟩
      · exact hreg id i hi
      · exact ⟨a, .kSuspend, by rw [hih]; exact hop, hreq, hid.symm⟩
    · exact hdel (by rw [hx]; rfl) (by rw [hx]; rfl) (by rw [hx]; rfl)
    · exact hleft

/-- An operation of a batch is not in flight, nor completed a second time. -/
theorem not_mem_batch (k : Contexts s) (t : Table none s) (hhead : s.AtHead) {f : Fabric}
    {events : List ℕ} (tk : Fabric.Taken s.world s.world.batch events f) {a : ConnOp}
    {st : HandleState} {req : Request} (ha : s.op h = some (a, st)) (hreq : a.request = some req)
    (hout : h ∈ f.outstanding) : h ∉ events := by
  intro hev
  rw [tk.events_eq] at hev
  obtain ⟨e, he, hc⟩ := List.mem_filterMap.mp hev
  obtain ⟨a', ha', hr'⟩ := k.suspended_of_batch t hhead he hc
  rw [ha] at ha'
  cases ha'
  have ho : e.operation = some h := by
    rcases Fabric.operation_or_registered hc with ho | ⟨hrw, -⟩
    · exact ho
    · rw [hr'.mpr hrw] at hreq
      cases hreq
  -- taken and left together are what the fabric held, each operation once
  have hnd := tk.outstanding_perm.nodup_iff.mpr k.once
  exact List.disjoint_of_nodup_append hnd (List.mem_filterMap.mpr ⟨e, he, ho⟩) hout

/-- `Select` gives events. -/
theorem round (k : Contexts s) (t : Table none s) (hhead : s.AtHead) {events due : List ℕ}
    (tk : Fabric.Taken s.world s.world.batch events s'.world)
    (hready : s'.ready = s.ready ++ events ++ due) (hleft : s'.left = s'.ready.length)
    (hop : ∀ i, s'.op i =
      if i ∈ events then (s.op i).map fun p => (p.1, .kScheduled) else s.op i) :
    Contexts s' := by
  have hpl : ∀ i, s'.world.Placed i ↔ s.world.Placed i := by
    intro i
    rw [Fabric.Placed, Fabric.Placed, tk.placed]
  constructor
  · intro p hp
    have hmem : p.ctx ∈ s'.world.outstanding :=
      List.mem_append_left _ (List.mem_map_of_mem hp)
    rw [tk.inflight] at hp
    obtain ⟨a, ha, hr⟩ := k.inflight p hp
    refine ⟨a, ?_, hr⟩
    rw [hop, if_neg (k.not_mem_batch t hhead tk ha hr hmem)]
    exact ha
  · intro q hq i hi
    have hmem : i ∈ s'.world.outstanding :=
      List.mem_append_right _ (List.mem_filterMap.mpr ⟨q, hq, hi⟩)
    obtain ⟨cq, hq'⟩ := tk.mem_completions hq
    obtain ⟨a, req, ha, hr, hf, hp⟩ := k.completed _ hq' i hi
    refine ⟨a, req, ?_, hr, hf, (hpl i).mpr hp⟩
    rw [hop, if_neg (k.not_mem_batch t hhead tk ha hr hmem)]
    exact ha
  · exact (List.nodup_append.mp (tk.outstanding_perm.nodup_iff.mpr k.once)).2.1
  · intro i a ha hr
    rw [hop] at ha
    split at ha
    · obtain ⟨p, -, hp⟩ := Option.map_eq_some_iff.mp ha
      cases hp
    · rename_i hev
      have hmem := tk.outstanding_perm.mem_iff.mpr (k.waiting i a ha hr)
      refine (List.mem_append.mp hmem).resolve_left fun hb => hev ?_
      obtain ⟨e, he, ho⟩ := List.mem_filterMap.mp hb
      rw [tk.events_eq]
      exact List.mem_filterMap.mpr ⟨e, he, Fabric.context_of_operation ho⟩
  · intro id i hi
    rw [tk.immDataContexts] at hi
    obtain ⟨a, st, ha, hr⟩ := k.registered id i hi
    rw [hop, ha]
    split
    · exact ⟨a, .kScheduled, rfl, hr⟩
    · exact ⟨a, st, rfl, hr⟩
  · intro i a ha
    rw [hop] at ha
    split at ha
    · rename_i hev
      rw [hleft, List.take_length, hready]
      refine ⟨List.mem_append_left _ (List.mem_append_right _ hev), ?_⟩
      rcases tk.entry i with ⟨-, hn⟩ | ⟨e, he, hc, hentry⟩
      · exact absurd hev hn
      · obtain ⟨a', ha', hr'⟩ := k.suspended_of_batch t hhead he hc
        rw [ha', Option.map_some, Option.some.injEq, Prod.mk.injEq] at ha
        obtain ⟨rfl, -⟩ := ha
        rw [hentry]
        refine ⟨⟨e, ?_⟩, hr'.mp, fun req hreq => ?_⟩
        · rw [tk.stored]
          exact List.mem_append_right _ (List.mem_filterMap.mpr ⟨e, he, by rw [hc]; rfl⟩)
        · rcases Fabric.operation_or_registered hc with ho | ⟨hrw, -⟩
          · obtain ⟨cq, hq⟩ := mem_completions_of_batch he
            obtain ⟨b, req', hb, hrb, hf, hp⟩ := k.completed _ hq i ho
            rw [ha'] at hb
            cases hb
            rw [hreq, Option.some.injEq] at hrb
            rw [hrb]
            exact ⟨hf, (hpl i).mpr hp⟩
          · rw [hr'.mpr hrw] at hreq
            cases hreq
    · -- at the head of the loop nobody's event is still to be run
      have := (k.delivered i a ha).1
      rw [hhead.2] at this
      cases this
  · exact le_of_eq hleft

/-- The fabric moves. -/
theorem moved {f : Fabric} (k : Contexts s) (hm : Fabric.Moved s.world f)
    (hi : f.immDataContexts = s.world.immDataContexts) (he : f.entry = s.world.entry) :
    Contexts { s with world := f } := by
  have hst := hm.stored
  have hout := hm.outstanding_perm
  have hpl : ∀ i, s.world.Placed i → f.Placed i := fun i => hm.placed_of_placed
  constructor
  · intro p hp
    refine k.inflight p ?_
    cases hm with
    | placed _ _ _ _ hf _ _ => rw [← hf]; exact hp
    | completed cq _ _ _ _ hf _ _ => rw [hf] at hp; exact List.mem_of_mem_erase hp
    | notified _ _ _ hf _ _ => rw [← hf]; exact hp
    | still hf _ _ => rw [← hf]; exact hp
  · intro q hq i hi
    have hold : q ∈ s.world.completions → ∃ a req, s.op i = some (a, .kSuspend) ∧
        a.request = some req ∧ q.2.flags = req.flags ∧ f.Placed i := by
      intro hq
      obtain ⟨a, req, ha, hr, hf, hp⟩ := k.completed q hq i hi
      exact ⟨a, req, ha, hr, hf, hpl i hp⟩
    cases hm with
    | placed _ _ _ _ _ hc _ => exact hold (by rw [← hc]; exact hq)
    | completed cq p len hp hplaced _ hc _ =>
      rw [hc] at hq
      rcases List.mem_append.mp hq with hq | hq
      · exact hold hq
      · rw [List.mem_singleton.mp hq] at hi ⊢
        have hflags : p.req.flags.remoteWrite = false := by cases p.req <;> rfl
        simp only [Entry.operation, hflags, Bool.false_eq_true, if_false, Option.some.injEq] at hi
        subst hi
        obtain ⟨a, ha, hr⟩ := k.inflight p hp
        exact ⟨a, p.req, ha, hr, rfl, hpl _ hplaced⟩
    | notified cq e hne _ hc _ =>
      rw [hc] at hq
      rcases List.mem_append.mp hq with hq | hq
      · exact hold hq
      · rw [List.mem_singleton.mp hq] at hi
        unfold Entry.operation at hi
        rcases hne with hne | hne <;> simp [hne] at hi
    | still _ hc _ => exact hold (by rw [← hc]; exact hq)
  · exact hout.nodup_iff.mpr k.once
  · intro i a ha hr
    exact hout.mem_iff.mpr (k.waiting i a ha hr)
  · intro id i hi'
    exact k.registered id i (by rw [← hi]; exact hi')
  · intro i a ha
    obtain ⟨hmem, hstored, hread, hreq⟩ := k.delivered i a ha
    show _ ∧ (∃ e, (i, e) ∈ f.history.stored) ∧ _ ∧ ∀ req, _ → _ ∧ f.Placed i
    rw [hst]
    refine ⟨hmem, hstored, fun hr => ?_, fun req hr => ⟨?_, hpl i (hreq req hr).2⟩⟩
    · show (f.entry i).flags.remoteWrite = true
      rw [he]
      exact hread hr
    · show (f.entry i).flags = req.flags
      rw [he]
      exact (hreq req hr).1
  · exact k.left

end Contexts

/-! ## The step lemma -/

theorem EfaStepOk.not_running (hok : EfaStepOk code s s') :
    ∀ me l rest h k, s.stack = (me, l) :: rest → code l = .await h k → h ∉ s.running :=
  fun _ _ _ _ _ hstack hop => hok.owned.await _ (awaiting_eq hstack hop)

/-- What a step destroys, nothing refers to. -/
theorem EfaStepOk.unreferenced (hok : EfaStepOk code s s') (t : Table none s)
    (hh : (s.coros h).isSome) (hgone : s'.coros h = none) : Unreferenced s s' h := by
  obtain ⟨c, hc⟩ := Option.isSome_iff_exists.mp hh
  exact hok.owned.destroy h (t.fresh h c hc) hh (by rw [hgone]; rfl)

/-- The table's conditions on a step, with the contexts known. -/
theorem EfaStepOk.stepOk (hok : EfaStepOk code s s') (t : Table none s) (k : Contexts s) :
    StepOk efaWorld code s s' where
  clean h hh hgone := by
    have hu := hok.unreferenced t hh hgone
    exact ⟨List.count_eq_zero.mpr hu.queued, hu.running,
      fun i ci hi hl hf => hu.next i (t.fresh i ci hi) ci hi hl hf⟩
  await := hok.not_running
  events hr events x hpoll := by
    have hb := hok.batch hr
    obtain ⟨hhead, -⟩ := hr
    have tk := Fabric.taken_of_select hpoll
    rw [tk.events_eq]
    refine ⟨k.nodup_batch t hhead hb, fun i hi => ?_⟩
    obtain ⟨e, he, hc⟩ := List.mem_filterMap.mp hi
    obtain ⟨a, ha, -⟩ := k.suspended_of_batch t hhead he hc
    obtain ⟨c, hc, hp, hst⟩ := op_eq_some.mp ha
    exact ⟨c, hc, by rw [hp]; rfl, hst⟩

/-- Whatever waits for the fabric or the selector is there. -/
theorem isSome_of_op {a : ConnOp} {st : HandleState} (ha : s.op h = some (a, st)) :
    (s.coros h).isSome := by
  obtain ⟨c, hc, -⟩ := op_eq_some.mp ha
  rw [hc]
  rfl

namespace Contexts

section Kept

variable (t : Table none s) (k : Contexts s) (hok : EfaStepOk code s s')
include t k hok

/-- What the fabric refers to is not destroyed. -/
theorem op_of_outstanding (hh : h ∈ s.world.outstanding)
    (hkept : s'.coros h = none ∨ s'.op h = s.op h) : s'.op h = s.op h := by
  refine hkept.resolve_left fun hgone => ?_
  obtain ⟨a, req, ha, -⟩ := k.of_mem_outstanding hh
  exact absurd hh (hok.unreferenced t (isSome_of_op ha) hgone).outstanding

/-- Nor is what the selector refers to. -/
theorem op_of_registered {id : ℕ} (hh : s.world.immDataContexts id = some h)
    (hkept : s'.coros h = none ∨ s'.op h = s.op h) : s'.op h = s.op h := by
  refine hkept.resolve_left fun hgone => ?_
  obtain ⟨a, st, ha, -, hid⟩ := k.registered id h hh
  have hu := (hok.unreferenced t (isSome_of_op ha) hgone).registered (a, st) ha
  exact absurd (hid ▸ hh) hu

/-- The front of `ready_` takes its result. -/
theorem ended {a : ConnOp} (hop : s.op h = some (a, .kScheduled))
    (hw : (a.resume h s.world).2 = s'.world) (hop' : s'.op h = none)
    (hkept : ∀ i ≠ h, s'.coros i = none ∨ s'.op i = s.op i)
    (hready : ∀ i ≠ h, i ∈ s.ready.take s.left → i ∈ s'.ready.take s'.left)
    (hlen : s'.left ≤ s'.ready.length) : Contexts s' := by
  obtain ⟨hsnd, himm⟩ := ConnOp.resume_snd a h s.world
  rw [hw] at hsnd himm
  have hne : ∀ i ∈ s.world.outstanding, i ≠ h := by
    rintro i hi rfl
    obtain ⟨b, req, hb, -⟩ := k.of_mem_outstanding hi
    rw [hop] at hb
    cases hb
  refine k.of_op (fun i hi => k.op_of_outstanding t hok hi (hkept i (hne i hi)))
    (fun id i hi => ?_) (fun i => ?_)
    (by rw [hsnd]) (by rw [hsnd]) (by rw [hsnd]) (by rw [hsnd]) (by rw [hsnd])
    (fun i hi => ?_) hlen
  · -- a `Read` that ends takes its own registration back, which is its only one
    have hold : s.world.immDataContexts id = some i ∧ i ≠ h := by
      rw [himm] at hi
      split at hi
      · obtain ⟨hi, hid⟩ := Fabric.registered_of_unRegister hi
        refine ⟨hi, ?_⟩
        rintro rfl
        obtain ⟨b, st, hb, -, hbid⟩ := k.registered id i hi
        rw [hop] at hb
        cases hb
        exact hid hbid.symm
      · rename_i hn
        refine ⟨hi, ?_⟩
        rintro rfl
        obtain ⟨b, st, hb, hreq, -⟩ := k.registered id i hi
        rw [hop] at hb
        cases hb
        exact hn ⟨hreq, (k.delivered i a hop).2.2.1 hreq⟩
    exact ⟨hold.1, k.op_of_registered t hok hold.1 (hkept i hold.2)⟩
  · by_cases hi : i = h
    · exact Or.inl (by rw [hi, hop'])
    · exact (hkept i hi).imp op_of_gone id
  · refine hready i ?_
    rintro rfl
    exact hi hop'

/-- The front of `ready_` is in no operation before, nor after: the fabric and the selector
stay as they are. -/
theorem idle (hop : s.op h = none) (hop' : s'.op h = none)
    (hw : ∃ mem, s'.world = { s.world with mem := mem })
    (hkept : ∀ i ≠ h, s'.coros i = none ∨ s'.op i = s.op i)
    (hready : ∀ i ≠ h, i ∈ s.ready.take s.left → i ∈ s'.ready.take s'.left)
    (hlen : s'.left ≤ s'.ready.length) : Contexts s' := by
  obtain ⟨mem, hw⟩ := hw
  have hsame : ∀ i, s'.coros i = none ∨ s'.op i = s.op i := by
    intro i
    by_cases hi : i = h
    · exact Or.inr (by rw [hi, hop, hop'])
    · exact hkept i hi
  refine k.of_op (fun i hi => k.op_of_outstanding t hok hi (hsame i)) (fun id i hi => ?_)
    (fun i => (hsame i).imp op_of_gone id)
    (by rw [hw]) (by rw [hw]) (by rw [hw]) (by rw [hw]) (by rw [hw]) (fun i hi => ?_) hlen
  · rw [hw] at hi
    exact ⟨hi, k.op_of_registered t hok hi (hsame i)⟩
  · refine hready i ?_
    rintro rfl
    exact hi hop'

/-- **The front of `ready_`**, whatever it does to the world. -/
theorem front {c : Coro Loc ConnOp Val} (hmem : h ∈ s.queued) (hc : s.coros h = some c)
    (hfront : FrontStep efaWorld s s' h c)
    (hkept : ∀ i ≠ h, s'.coros i = none ∨ s'.op i = s.op i)
    (hready : ∀ i ≠ h, i ∈ s.ready.take s.left → i ∈ s'.ready.take s'.left)
    (hlen : s'.left ≤ s'.ready.length) : Contexts s' := by
  have hnone : c.point.op = none → s.op h = none := by
    intro hp
    rw [op_of_coros hc, Coro.op, hp]
    rfl
  cases hfront with
  | idle hp _ hw hop' =>
    exact k.idle t hok (hnone hp) hop' ⟨s.world.mem, hw⟩ hkept hready hlen
  | refused a e hp _ hw hop' =>
    exact k.idle t hok (hnone (by rw [hp]; rfl)) hop' ⟨s.world.mem, hw⟩ hkept hready hlen
  | failed a e x hp henter hpost hop' =>
    refine k.idle t hok (hnone (by rw [hp]; rfl)) hop' ?_ hkept hready hlen
    rw [ConnOp.post_error hpost]
    exact ConnOp.enter_ok henter
  | posted a x hp henter hpost hop' =>
    refine k.post hop' (hnone (by rw [hp]; rfl)) (ConnOp.enter_ok henter) hpost ?_
      (fun i hi => (hkept i hi).imp op_of_gone id) (fun i hi => hready i ?_) hlen
    · rintro i hi (hi' | ⟨id, hi'⟩)
      · exact k.op_of_outstanding t hok hi' (hkept i hi)
      · exact k.op_of_registered t hok hi' (hkept i hi)
    · rintro rfl
      exact hi (hnone (by rw [hp]; rfl))
  | ended a hp hw hop' =>
    obtain ⟨hst, -⟩ := t.of_mem_queued hc hmem
    have hop : s.op h = some (a, .kScheduled) := by
      rw [op_of_coros hc, Coro.op_eq_some]
      exact ⟨hp, hst⟩
    exact k.ended t hok hop hw.symm hop' hkept hready hlen

end Kept

/-- **One step keeps the table and the contexts.** -/
theorem step (t : Table none s) (k : Contexts s) (hs : Step efaWorld code s s')
    (hok : EfaStepOk code s s') : Table none s' ∧ Contexts s' := by
  refine ⟨t.step hs (hok.stepOk t k), ?_⟩
  cases hs.worldStep t hok.not_running with
  | exec r hstack hw hl hr hkept =>
    refine k.of_op (fun i hi => k.op_of_outstanding t hok hi (hkept i)) (fun id i hi => ?_)
      (fun i => (hkept i).imp op_of_gone id)
      (by rw [hw]) (by rw [hw]) (by rw [hw]) (by rw [hw]) (by rw [hw]) (fun i _ hi => ?_) ?_
    · rw [hw] at hi
      exact ⟨hi, k.op_of_registered t hok hi (hkept i)⟩
    · rw [hr, hl, List.take_append_of_le_length k.left]
      exact hi
    · rw [hr, hl, List.length_append]
      have := k.left
      omega
  | front h c q r hstack hleft hq hc hr hfront hkept =>
    have hlen := k.left
    rw [hq, hleft, List.length_cons] at hlen
    refine k.front t hok (by simp [queued, hq]) hc hfront hkept (fun i hi hmem => ?_) ?_
    · rw [hq, hleft, List.take_succ_cons, List.mem_cons] at hmem
      rw [hr, List.take_append_of_le_length (by omega)]
      exact hmem.resolve_left hi
    · rw [hr, List.length_append]
      omega
  | round events due hhead hpoll hr hl _ hop =>
    exact k.round t hhead (Fabric.taken_of_select hpoll) hr hl hop
  | env henv hs' =>
    obtain ⟨m, hm⟩ := henv
    obtain ⟨hmoved, hi, he, -⟩ := Fabric.moved_of_move hm
    rw [hs']
    exact k.moved hmoved hi he

end Contexts

/-! ## Along runs -/

/-- Nothing is posted and nothing is registered. -/
structure Fabric.Idle (f : Fabric) : Prop where
  immDataContexts : ∀ id, f.immDataContexts id = none
  inflight : f.inflight = []
  completions : ∀ q ∈ f.completions, q.2.operation = none

theorem Fabric.Idle.outstanding {f : Fabric} (hf : f.Idle) : f.outstanding = [] := by
  rw [Fabric.outstanding, hf.inflight, List.map_nil, List.nil_append, List.filterMap_eq_nil_iff]
  exact hf.completions

/-- The loop as `Run` starts it. -/
def Started (isVoid : Bool) (l : Loc) (g : G) (s : Loop Loc G ConnOp Fabric Val) : Prop :=
  ∃ f : Fabric, f.Idle ∧ s = boot isVoid l g f

/-- The loop that `Run` starts waits for nothing. -/
theorem Contexts.boot (isVoid : Bool) (l : Loc) (g : G) {f : Fabric} (hf : f.Idle) :
    Contexts (Loop.boot isVoid l g f : Loop Loc G ConnOp Fabric Val) := by
  have hop : ∀ i, (Loop.boot isVoid l g f : Loop Loc G ConnOp Fabric Val).op i = none := by
    intro i
    rw [Loop.op, boot_eq]
    by_cases hi : i = 0
    · subst hi
      rfl
    · simp [hi]
  have hw : (Loop.boot isVoid l g f : Loop Loc G ConnOp Fabric Val).world = f := by rw [boot_eq]
  have hout := hf.outstanding
  constructor
  · intro p hp
    rw [hw, hf.inflight] at hp
    cases hp
  · intro q hq i hi
    rw [hw] at hq
    rw [hf.completions q hq] at hi
    cases hi
  · rw [hw, hout]
    exact List.nodup_nil
  · intro i a ha
    rw [hop] at ha
    cases ha
  · intro id i hi
    rw [hw, hf.immDataContexts] at hi
    cases hi
  · intro i a ha
    rw [hop] at ha
    cases ha
  · exact Nat.zero_le _

end EfaExamples
