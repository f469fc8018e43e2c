import Mathlib.Data.List.Perm.Lattice
import Mathlib.Data.List.TakeWhile
import EfaExamples.Efa.Model.Conn
/-!
# What the selector and the fabric do

`Selector::Select` takes a batch of completions, stores each in its context,
and has the contexts for events: `Taken` says so, and is all later files know
of it. A move of the fabric leaves alone whatever the code holds, and
`Fabric.move_cases` lists what it changes.
-/

namespace EfaExamples

namespace Fabric

variable {V : Type} {f f' : Fabric} {h cq n : ℕ} {e : Entry} {es : List Entry}
variable {events : List ℕ}

/-! ## Reading a queue -/

/-- Reading neither loses nor invents an entry. -/
theorem cqRead_perm (cq n : ℕ) (q : List (ℕ × Entry)) :
    ((cqRead cq n q).1 ++ (cqRead cq n q).2.map Prod.snd).Perm (q.map Prod.snd) := by
  induction q generalizing n with
  | nil => cases n <;> simp [cqRead]
  | cons p q ih =>
    obtain ⟨i, e⟩ := p
    cases n with
    | zero => simp [cqRead]
    | succ n =>
      rw [cqRead]
      split
      · exact (ih n).cons e
      · exact (List.perm_middle).trans ((ih (n + 1)).cons e)

/-- What `Select` takes from the queues, and what it leaves, where no queue has
an error. -/
def drain : List ℕ → List (ℕ × Entry) → List Entry × List (ℕ × Entry)
  | [], q => ([], q)
  | cq :: cqs, q =>
    ((cqRead cq kMaxCQEntries q).1 ++ (drain cqs (cqRead cq kMaxCQEntries q).2).1,
      (drain cqs (cqRead cq kMaxCQEntries q).2).2)

/-- The completions the next `Select` takes. -/
def batch (f : Fabric) : List Entry := (drain f.cqs f.completions).1

theorem drain_perm (cqs : List ℕ) (q : List (ℕ × Entry)) :
    ((drain cqs q).1 ++ (drain cqs q).2.map Prod.snd).Perm (q.map Prod.snd) := by
  induction cqs generalizing q with
  | nil => simp [drain]
  | cons cq cqs ih =>
    rw [drain, List.append_assoc]
    exact ((ih _).append_left _).trans (cqRead_perm cq kMaxCQEntries q)

/-! ## The context of a completion -/

/-- A completion goes by what is registered, and by nothing else of the state. -/
theorem context_congr (hf : f'.immDataContexts = f.immDataContexts) : f'.context = f.context := by
  funext e
  rw [context, context, hf]

/-- The completion of an operation has the operation's context. -/
theorem context_of_operation (hh : e.operation = some h) : f.context e = some h := by
  unfold Entry.operation at hh
  split at hh
  · cases hh
  · rename_i he
    rw [context, if_neg he, hh]

/-- A completion that has a context is of an operation, or finds one registered. -/
theorem operation_or_registered (hh : f.context e = some h) :
    e.operation = some h ∨
      e.flags.remoteWrite = true ∧ e.immData ≠ 0 ∧ f.immDataContexts e.immData = some h := by
  unfold context at hh
  split at hh
  · rename_i he
    split at hh
    · cases hh
    · exact Or.inr ⟨he, ‹_›, hh⟩
  · rename_i he
    exact Or.inl (by rw [Entry.operation, if_neg he, hh])

/-! ## Select -/

/-- **The completions `es` are stored**: `events` are their contexts, and only
the entries of these contexts change. -/
structure Stored (f : Fabric) (es : List Entry) (events : List ℕ) (f' : Fabric) : Prop where
  eq : f' = { f with
    entry := f'.entry
    history := { f.history with
      stored := f.history.stored ++ es.filterMap fun e => (f.context e).map (·, e) } }
  events_eq : events = es.filterMap f.context
  entry : ∀ h, f'.entry h = f.entry h ∧ h ∉ events ∨
    ∃ e ∈ es, f.context e = some h ∧ f'.entry h = e

/-- `HandleCompletion` gives every completion to its context. -/
theorem handleCompletion_stored (es : List Entry) (f : Fabric) :
    Stored f es (f.handleCompletion es).1 (f.handleCompletion es).2 := by
  induction es generalizing f with
  | nil => exact ⟨by simp [handleCompletion], rfl, fun h => Or.inl ⟨rfl, by simp [handleCompletion]⟩⟩
  | cons e es ih =>
    rw [handleCompletion]
    cases hctx : f.context e with
    | none =>
      obtain ⟨heq, hev, hentry⟩ := ih f
      refine ⟨by simpa [hctx] using heq, by simpa [hctx] using hev, fun h => ?_⟩
      refine (hentry h).imp id ?_
      rintro ⟨e', he', hc, hs⟩
      exact ⟨e', List.mem_cons_of_mem _ he', hc, hs⟩
    | some ctx =>
      have hsame : (f.store ctx e).context = f.context := context_congr rfl
      obtain ⟨heq, hev, hentry⟩ := ih (f.store ctx e)
      rw [hsame] at heq hev hentry
      refine ⟨?_, by simp [hctx, hev], fun h => ?_⟩
      · rw [heq]
        simp [store, hctx, List.append_assoc]
      · rcases hentry h with ⟨hs, hn⟩ | ⟨e', he', hc, hs⟩
        · by_cases hh : h = ctx
          · exact Or.inr ⟨e, List.mem_cons_self, by rw [hh]; exact hctx, hs.trans (if_pos hh)⟩
          · exact Or.inl ⟨hs.trans (if_neg hh), by simp [hh, hn]⟩
        · exact Or.inr ⟨e', List.mem_cons_of_mem _ he', hc, hs⟩

/-- **The completions `es` are taken** from the queues and stored. -/
structure Taken (f : Fabric) (es : List Entry) (events : List ℕ) (f' : Fabric) : Prop where
  eq : f' = { f with
    completions := f'.completions
    entry := f'.entry
    history := { f.history with
      taken := f.history.taken ++ es
      stored := f.history.stored ++ es.filterMap fun e => (f.context e).map (·, e) } }
  events_eq : events = es.filterMap f.context
  perm : (es ++ f'.completions.map Prod.snd).Perm (f.completions.map Prod.snd)
  entry : ∀ h, f'.entry h = f.entry h ∧ h ∉ events ∨
    ∃ e ∈ es, f.context e = some h ∧ f'.entry h = e

namespace Taken

theorem immDataContexts (t : Taken f es events f') : f'.immDataContexts = f.immDataContexts := by
  rw [t.eq]

theorem inflight (t : Taken f es events f') : f'.inflight = f.inflight := by rw [t.eq]

theorem placed (t : Taken f es events f') : f'.history.placed = f.history.placed := by rw [t.eq]

theorem stored (t : Taken f es events f') : f'.history.stored =
    f.history.stored ++ es.filterMap fun e => (f.context e).map (·, e) := by rw [t.eq]

/-- What is taken and what is left are the operations there were. -/
theorem outstanding_perm (t : Taken f es events f') :
    (es.filterMap Entry.operation ++ f'.outstanding).Perm f.outstanding := by
  have hp := t.perm.filterMap Entry.operation
  rw [List.filterMap_append, List.filterMap_map, List.filterMap_map] at hp
  rw [outstanding, outstanding, t.inflight]
  exact (List.perm_append_comm_assoc _ _ _).trans (hp.append_left _)

/-- What is left was there. -/
theorem mem_completions {q : ℕ × Entry} (t : Taken f es events f') (hq : q ∈ f'.completions) :
    ∃ cq, (cq, q.2) ∈ f.completions := by
  have hmem : q.2 ∈ f.completions.map Prod.snd :=
    t.perm.subset (List.mem_append_right _ (List.mem_map_of_mem hq))
  obtain ⟨q', hq', heq⟩ := List.mem_map.mp hmem
  exact ⟨q'.1, by rw [← heq]; exact hq'⟩

end Taken

/-- What two readings take. -/
theorem Taken.trans {f₁ f₂ : Fabric} {es₁ es₂ : List Entry} {events₁ events₂ : List ℕ}
    (t₁ : Taken f es₁ events₁ f₁) (t₂ : Taken f₁ es₂ events₂ f₂) :
    Taken f (es₁ ++ es₂) (events₁ ++ events₂) f₂ := by
  have hsame : f₁.context = f.context := context_congr (by rw [t₁.eq])
  refine ⟨?_, ?_, ?_, fun h => ?_⟩
  · refine t₂.eq.trans ?_
    rw [hsame, t₁.eq]
    simp [List.append_assoc]
  · rw [t₁.events_eq, t₂.events_eq, hsame, List.filterMap_append]
  · rw [List.append_assoc]
    exact (t₂.perm.append_left es₁).trans t₁.perm
  · rcases t₂.entry h with ⟨hs₂, hn₂⟩ | ⟨e, he, hc, hs₂⟩
    · rcases t₁.entry h with ⟨hs₁, hn₁⟩ | ⟨e, he, hc, hs₁⟩
      · exact Or.inl ⟨hs₂.trans hs₁, by simp [hn₁, hn₂]⟩
      · exact Or.inr ⟨e, List.mem_append_left _ he, hc, hs₂.trans hs₁⟩
    · exact Or.inr ⟨e, List.mem_append_right _ he, by rw [← hsame]; exact hc, hs₂⟩

/-- One queue is read and its completions stored. -/
theorem taken_cqRead (cq : ℕ) (f : Fabric) :
    let r := cqRead cq kMaxCQEntries f.completions
    let f₁ : Fabric := { f with
      completions := r.2
      history := { f.history with taken := f.history.taken ++ r.1 } }
    Taken f r.1 (f₁.handleCompletion r.1).1 (f₁.handleCompletion r.1).2 ∧
      (f₁.handleCompletion r.1).2.completions = r.2 := by
  intro r f₁
  obtain ⟨heq, hev, hentry⟩ := handleCompletion_stored r.1 f₁
  have hsame : f₁.context = f.context := context_congr rfl
  rw [hsame] at heq hev hentry
  refine ⟨⟨?_, hev, ?_, hentry⟩, by rw [heq]⟩
  · rw [heq]
  · rw [heq]
    exact cqRead_perm cq kMaxCQEntries f.completions

/-- The queues visited before the first that has an error. -/
def sound (f : Fabric) (cqs : List ℕ) : List ℕ := cqs.takeWhile fun cq => (f.fault cq).isNone

/-- **Select**, to its end or to the first queue with an error: what it has read by then is stored,
and it returns exactly if there is no such queue. -/
theorem taken_select (cqs : List ℕ) (f : Fabric) : ∃ events,
    Taken f (drain (f.sound cqs) f.completions).1 events
      (f.select cqs : Except (Exn V) (List ℕ) × Fabric).2 ∧
    ((∀ cq ∈ cqs, f.fault cq = none) ∧ (f.select cqs).1 = (.ok events : Except (Exn V) (List ℕ)) ∨
      (¬ ∀ cq ∈ cqs, f.fault cq = none) ∧
        ∃ x, (f.select cqs).1 = (.error x : Except (Exn V) (List ℕ))) := by
  have hnil : ∀ f : Fabric, Taken f [] [] f := fun f =>
    ⟨by simp, rfl, by simp, fun h => Or.inl ⟨rfl, by simp⟩⟩
  induction cqs generalizing f with
  | nil => exact ⟨[], hnil f, Or.inl ⟨by simp, rfl⟩⟩
  | cons cq cqs ih =>
    rw [select, sound, List.takeWhile_cons]
    cases hfault : f.fault cq with
    | some fault =>
      refine ⟨[], ?_, Or.inr ⟨fun h => ?_, ?_⟩⟩
      · cases fault <;> simpa [drain] using hnil f
      · rw [h cq List.mem_cons_self] at hfault
        cases hfault
      · cases fault <;> exact ⟨_, rfl⟩
    | none =>
      obtain ⟨t, hleft⟩ := taken_cqRead cq f
      dsimp only at t hleft ⊢
      generalize handleCompletion _ _ = r at t hleft ⊢
      have hsame : r.2.fault = f.fault := by rw [t.eq]
      obtain ⟨events, t₂, hcase⟩ := ih r.2
      rw [sound, hsame, hleft, ← sound] at t₂
      rw [hsame] at hcase
      refine ⟨r.1 ++ events, ?_, ?_⟩
      · have ht : Taken f (drain (f.sound (cq :: cqs)) f.completions).1 (r.1 ++ events)
            (r.2.select cqs : Except (Exn V) (List ℕ) × Fabric).2 := by
          rw [sound, List.takeWhile_cons, hfault]
          exact t.trans t₂
        rw [sound, List.takeWhile_cons, hfault] at ht
        refine cast (congrArg (Taken f _ _) ?_) ht
        split <;> simp_all
      · refine hcase.imp ?_ ?_
        · rintro ⟨hall, hok⟩
          refine ⟨fun cq' hcq' => ?_, ?_⟩
          · rcases List.mem_cons.mp hcq' with rfl | hcq'
            · exact hfault
            · exact hall cq' hcq'
          · split <;> simp_all
        · rintro ⟨hnot, x, herr⟩
          refine ⟨fun h => hnot fun cq' hcq' => h cq' (List.mem_cons_of_mem _ hcq'), x, ?_⟩
          split <;> simp_all

/-- **A `Select` that returns takes its batch.** -/
theorem taken_of_select (hs : f.select f.cqs = ((.ok events : Except (Exn V) (List ℕ)), f')) :
    Taken f f.batch events f' := by
  obtain ⟨events', t, hcase⟩ := taken_select (V := V) f.cqs f
  rw [hs] at t hcase
  rcases hcase with ⟨hall, hok⟩ | ⟨-, x, herr⟩
  · have hsound : f.sound f.cqs = f.cqs :=
      List.takeWhile_eq_self_iff.mpr fun cq hcq => by rw [hall cq hcq]; rfl
    rw [hsound] at t
    cases hok
    exact t
  · cases herr

/-! ## The awaiters -/

/-- A context registered after a registration was so before, or is the new one. -/
theorem registered_of_register {id id' ctx : ℕ}
    (hr : (f.register id' ctx).immDataContexts id = some h) :
    f.immDataContexts id = some h ∨ id = id' ∧ h = ctx := by
  simp only [register] at hr
  split at hr
  · rename_i hid
    cases hi : f.immDataContexts id with
    | none =>
      rw [hi, Option.none_or, Option.some.injEq] at hr
      exact Or.inr ⟨hid, hr.symm⟩
    | some i =>
      rw [hi, Option.some_or] at hr
      exact Or.inl hr
  · exact Or.inl hr

/-- A context registered after the registration of `id'` is taken back was
registered before, and not under `id'`. -/
theorem registered_of_unRegister {id id' : ℕ}
    (hr : (f.unRegister id').immDataContexts id = some h) :
    f.immDataContexts id = some h ∧ id ≠ id' := by
  simp only [unRegister] at hr
  split at hr
  · cases hr
  · exact ⟨hr, ‹_›⟩

end Fabric

namespace ConnOp

variable {a : ConnOp} {f f' : Fabric} {h : ℕ} {e : Exn Val}

/-- The body of one of the connection's coroutines may write memory before it
posts, and does nothing else. -/
theorem enter_ok (hs : a.enter f = .ok f') : ∃ mem, f' = { f with mem := mem } := by
  cases a with
  | send conn data sz =>
    rw [enter] at hs
    split at hs
    · cases hs
    · split at hs
      · cases hs
      · cases hs
        exact ⟨_, rfl⟩
  | recv conn sz | write conn data sz addr key immData | read conn immData =>
    rw [enter] at hs
    split at hs
    · cases hs
    · cases hs
      exact ⟨_, rfl⟩

/-- A post that succeeds is in flight, or is a registration. -/
theorem post_ok (hs : a.post h f = (none, f')) :
    (∃ req, a.request = some req ∧ f' = { f with
      inflight := f.inflight ++ [⟨h, req⟩]
      history := { f.history with posted := f.history.posted ++ [⟨h, req⟩] } }) ∨
      a.request = none ∧ f' = f.register a.awaitedImm h := by
  rw [post] at hs
  split at hs
  · rename_i req hreq
    rw [Fabric.submit] at hs
    split at hs
    · simp only [Prod.mk.injEq, true_and] at hs
      exact Or.inl ⟨req, hreq, hs.symm⟩
    · simp at hs
  · rename_i hreq
    simp only [Prod.mk.injEq, true_and] at hs
    exact Or.inr ⟨hreq, hs.symm⟩

/-- A post that fails leaves nothing. -/
theorem post_error (hs : a.post h f = (some e, f')) : f' = f := by
  rw [post] at hs
  split at hs
  · rw [Fabric.submit] at hs
    split at hs
    · simp at hs
    · simp only [Prod.mk.injEq] at hs
      exact hs.2.symm
  · simp at hs

/-- `await_resume` takes a registration back, and is noted. -/
theorem resume_snd (a : ConnOp) (h : ℕ) (f : Fabric) :
    (a.resume h f).2 = { f with
      immDataContexts := (a.resume h f).2.immDataContexts
      history := { f.history with resumed := f.history.resumed ++ [h] } } ∧
      (a.resume h f).2.immDataContexts =
        if a.request = none ∧ (f.entry h).flags.remoteWrite = true then
          (f.unRegister a.awaitedImm).immDataContexts
        else f.immDataContexts := by
  cases a with
  | read conn immData =>
    cases hf : (f.entry h).flags.remoteWrite with
    | false => simp [resume, hf]
    | true =>
      simp only [resume, hf, request, awaitedImm, if_true, and_self]
      exact ⟨rfl, trivial⟩
  | recv conn sz | send conn data sz | write conn data sz addr key immData =>
    simp [resume, request]

end ConnOp

namespace Fabric

variable {f f' : Fabric}

/-! ## Moves of the fabric -/

/-- **What a move of the fabric changes**: an operation's bytes are copied, an
operation is completed, an entry of no operation comes in, or none of the
three. -/
inductive Moved (f f' : Fabric) : Prop
  | placed (p : Posted) (bs : List UInt8) : p ∈ f.inflight → ¬ f.Placed p.ctx →
      f'.inflight = f.inflight → f'.completions = f.completions →
      f'.history = { f.history with placed := f.history.placed ++ [(p, bs)] } → Moved f f'
  | completed (cq : ℕ) (p : Posted) (len : ℕ) : p ∈ f.inflight → f.Placed p.ctx →
      f'.inflight = f.inflight.erase p →
      f'.completions = f.completions ++
        [(cq, { opContext := some p.ctx, flags := p.req.flags, len := len })] →
      f'.history = f.history → Moved f f'
  | notified (cq : ℕ) (e : Entry) : e.flags.remoteWrite = true ∨ e.opContext = none →
      f'.inflight = f.inflight → f'.completions = f.completions ++ [(cq, e)] →
      f'.history = f.history → Moved f f'
  | still : f'.inflight = f.inflight → f'.completions = f.completions →
      f'.history = f.history → Moved f f'

/-- A copy writes memory, and is noted. -/
theorem copy_eq (p : Posted) (msg : List UInt8) (f : Fabric) :
    ∃ mem remote bs, f.copy p msg = { f with
      mem := mem
      remote := remote
      history := { f.history with placed := f.history.placed ++ [(p, bs)] } } := by
  unfold copy
  split <;> exact ⟨_, _, _, rfl⟩

namespace Moved

/-- A move may note that bytes were copied, and nothing else. -/
theorem history (m : Moved f f') : f'.history = { f.history with placed := f'.history.placed } := by
  cases m with
  | placed p bs _ _ _ _ hh => rw [hh]
  | completed cq p len _ _ _ _ hh => rw [hh]
  | notified cq e _ _ _ hh => rw [hh]
  | still _ _ hh => rw [hh]

theorem stored (m : Moved f f') : f'.history.stored = f.history.stored := by rw [m.history]

theorem taken (m : Moved f f') : f'.history.taken = f.history.taken := by rw [m.history]

theorem resumed (m : Moved f f') : f'.history.resumed = f.history.resumed := by rw [m.history]

/-- What is copied stays so. -/
theorem placed_of_placed {ctx : ℕ} (m : Moved f f') (hp : f.Placed ctx) : f'.Placed ctx := by
  obtain ⟨p, hp, hctx⟩ := hp
  refine ⟨p, ?_, hctx⟩
  cases m with
  | placed _ bs _ _ _ _ hh => rw [hh]; exact List.mem_append_left _ hp
  | completed cq _ len _ _ _ _ hh => rw [hh]; exact hp
  | notified cq e _ _ _ hh => rw [hh]; exact hp
  | still _ _ hh => rw [hh]; exact hp

/-- The fabric neither takes on an operation of its own nor drops one. -/
theorem outstanding_perm (m : Moved f f') : f'.outstanding.Perm f.outstanding := by
  rw [outstanding, outstanding]
  cases m with
  | placed p bs _ _ hf hc _ => rw [hf, hc]
  | completed cq p len hp _ hf hc _ =>
    have hperm := (List.perm_cons_erase hp).map Posted.ctx
    have hflags : p.req.flags.remoteWrite = false := by cases p.req <;> rfl
    rw [hf, hc, List.filterMap_append]
    simp only [List.filterMap_cons, Entry.operation, hflags, List.filterMap_nil]
    refine List.Perm.trans ?_ (hperm.symm.append_right _)
    rw [List.map_cons, List.cons_append, ← List.append_assoc]
    exact List.perm_append_singleton _ _
  | notified cq e hne hf hc _ =>
    have hop : e.operation = none := by
      unfold Entry.operation
      rcases hne with hne | hne <;> simp [hne]
    rw [hf, hc, List.filterMap_append]
    simp [hop]
  | still hf hc _ => rw [hf, hc]

end Moved

theorem moved_of_move {m : Move} (hm : f.move m = some f') :
    Moved f f' ∧ f'.immDataContexts = f.immDataContexts ∧ f'.entry = f.entry ∧ f'.cqs = f.cqs := by
  cases m with
  | place ctx msg =>
    rw [move] at hm
    split at hm
    · rename_i p hp
      have hctx : p.ctx = ctx := by simpa using List.find?_some hp
      split at hm
      · cases hm
      · rename_i hn
        obtain ⟨mem, remote, bs, hcopy⟩ := copy_eq p msg f
        rw [Option.some.injEq, hcopy] at hm
        subst hm
        exact ⟨.placed p bs (List.mem_of_find?_eq_some hp) (hctx ▸ hn) rfl rfl rfl, rfl, rfl, rfl⟩
    · cases hm
  | complete cq ctx len =>
    rw [move] at hm
    split at hm
    · rename_i p hp
      have hctx : p.ctx = ctx := by simpa using List.find?_some hp
      split at hm
      · rename_i hpl
        rw [Option.some.injEq] at hm
        subst hm
        exact ⟨.completed cq p len (List.mem_of_find?_eq_some hp) (hctx ▸ hpl) rfl
          (by rw [hctx]) rfl, rfl, rfl, rfl⟩
      · cases hm
    · cases hm
  | notify cq e =>
    rw [move] at hm
    split at hm
    · rename_i he
      rw [Option.some.injEq] at hm
      subst hm
      exact ⟨.notified cq e he rfl rfl rfl, rfl, rfl, rfl⟩
    · cases hm
  | fail cq err =>
    rw [move, Option.some.injEq] at hm
    subst hm
    exact ⟨.still rfl rfl rfl, rfl, rfl, rfl⟩
  | setRc rc =>
    rw [move, Option.some.injEq] at hm
    subst hm
    exact ⟨.still rfl rfl rfl, rfl, rfl, rfl⟩

end Fabric

end EfaExamples
