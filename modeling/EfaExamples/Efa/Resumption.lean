import EfaExamples.Coro.Script
import EfaExamples.Efa.Contexts
/-!
# One resumption for one suspension

`IO::Select` calls the handle of every event, and `IO::Call` does not look at
the handle's state. What keeps a handle from being in `ready_` twice is
therefore not the loop. It is that every event is of a coroutine that waits
for it, and of one only, and this fails for a registration: it outlives the
completion that finds it, until the `Read` is resumed. Two remote writes of
one batch find the same one.
-/

namespace EfaExamples

open Loop

variable {Loc G : Type} {code : Loc → Op Loc G ConnOp Val}

/-- **The coroutine may be resumed**: it has not begun, or is suspended and what
it waits for has happened. -/
def Resumable (s : Loop Loc G ConnOp Fabric Val) (c : Coro Loc ConnOp Val) (h : ℕ) : Prop :=
  match c.point with
  | .initial _ | .initialIo _ => True
  | .await d _ => s.Over d
  | .sleep => h ∉ s.schedule.map Task.handle
  | .io _ => ∃ e, (h, e) ∈ s.world.history.stored
  | .running | .final => False

/-- Whoever is in `ready_` may be resumed. -/
theorem resumable_of_mem_ready {s : Loop Loc G ConnOp Fabric Val} {h : ℕ} (t : Table none s)
    (k : Contexts s) (hh : h ∈ s.ready) : ∃ c, s.coros h = some c ∧ Resumable s c h := by
  have hq : h ∈ s.queued := List.mem_append_left _ hh
  obtain ⟨c, hc⟩ := t.exists_of_mem_queued hq
  obtain ⟨hst, hone, hf, hr⟩ := t.of_mem_queued hc hq
  have hrow := t.row h c hc (by simp)
  refine ⟨c, hc, ?_⟩
  unfold Resumable
  cases hp : c.point with
  | initial l => trivial
  | initialIo a => trivial
  | await d k => exact t.over_of_mem_queued hc hp hq
  | sleep =>
    have hpos : 0 < s.ready.count h := List.count_pos_iff.mpr hh
    rw [queued, List.count_append] at hone
    exact List.count_eq_zero.mp (by omega)
  | io a => exact (k.delivered h a (op_eq_some.mpr ⟨c, hc, hp, hst⟩)).2.1
  | running => simp [hp, Point.isRunning] at hr
  | final => simp [hp, Point.isFinal] at hf

/-- **The queue of resumptions is right**: each handle is in `ready_` at most
once, and whatever is there, so whatever `Runone` runs, may be resumed. -/
structure SingleResumption (s : Loop Loc G ConnOp Fabric Val) : Prop where
  once : s.ready.Nodup
  resumable : ∀ h ∈ s.ready, ∃ c, s.coros h = some c ∧ Resumable s c h

/-- The events of a `Select` stay in `ready_` until `Runone` runs them, so a batch
that has one twice is seen there. -/
theorem distinct_of_nodup_ready {s s' : Loop Loc G ConnOp Fabric Val}
    (hr : RoundStep efaWorld s s') (hnd : s'.ready.Nodup) : Distinct s.world := by
  obtain @⟨s₁, now, events, x, -, -, hpoll, hcall⟩ := hr
  obtain ⟨-, hready, -⟩ := callAll_fields hcall
  obtain ⟨due, -, hdue⟩ := Task.drain_eq_append (time now) s₁.schedule s₁.ready
  have hnd' : (s.ready ++ events ++ due.map Task.handle).Nodup := by
    rw [← show s₁.ready = s.ready ++ events from hready, ← hdue]
    exact hnd
  have hevents : events.Nodup :=
    (List.nodup_append.mp (List.nodup_append.mp hnd').1).2.1
  rw [(Fabric.taken_of_select hpoll).events_eq] at hevents
  exact hevents.sublist (List.filter_sublist.filterMap _)

/-- **No coroutine is resumed twice for one suspension, exactly if no `Select`
takes two remote writes of one context.** This is along runs that destroy
only what nothing refers to and await nothing that executes, of any program
and any behaviour of the fabric. -/
theorem single_resumption_iff {isVoid : Bool} {l : Loc} {g : G}
    {σ : ℕ → Loop Loc G ConnOp Fabric Val} {n : ℕ}
    (hrun : IsRun (Started isVoid l g) (Step efaWorld code) σ n)
    (ho : ∀ i < n, EfaOwned code (σ i) (σ (i + 1))) :
    (∀ i ≤ n, SingleResumption (σ i)) ↔
      ∀ i < n, RoundStep efaWorld (σ i) (σ (i + 1)) → Distinct (σ i).world := by
  have hrun' : IsRun (Started isVoid l g)
      (fun s s' => Step efaWorld code s s' ∧ EfaOwned code s s') σ n :=
    ⟨hrun.start, fun i hi => ⟨hrun.next i hi, ho i hi⟩⟩
  refine hrun'.forall_iff_forall_guard (fun s => Table none s ∧ Contexts s) SingleResumption
    (fun s s' => RoundStep efaWorld s s' → Distinct s.world) ?_ ?_ ?_ ?_
  · rintro s ⟨f, hf, rfl⟩
    exact ⟨Table.boot isVoid l g f, Contexts.boot isVoid l g hf⟩
  · rintro s s' ⟨t, k⟩ ⟨hs, ho⟩ hb
    exact k.step t hs ⟨ho, hb⟩
  · rintro s ⟨t, k⟩
    exact ⟨(List.nodup_append.mp t.scheduler.once).1, fun h => resumable_of_mem_ready t k⟩
  · rintro s s' - - hgood hr
    exact distinct_of_nodup_ready hr hgood.once

/-! ## A run with two notifications in one batch -/

/-- A connection whose buffers are at 1000, 2000, 3000 and 4000. -/
def conn : Conn := ⟨1, 1000, 2000, 3000, 4000⟩

/-- A body that reads twice from the connection. The second half of a location
is the handle of the `Read`. -/
def readCode : ℕ × ℕ → Op (ℕ × ℕ) Unit ConnOp Val
  | (0, _) => .io (.read conn 0x123) fun h => (1, h)
  | (1, h) => .await h fun _ => (2, h)
  | (2, h) => .destroy h (3, h)
  | (3, _) => .io (.read conn 0x123) fun h => (4, h)
  | (4, h) => .await h fun _ => (5, h)
  | (5, h) => .destroy h (6, h)
  | _ => .ret (.ok none)

/-- One completion queue, and nothing in it. -/
def quiet : Fabric where
  cqs := [0]
  immDataContexts _ := none
  entry _ := {}
  mem _ := 0
  remote _ _ := 0
  inflight := []
  completions := []
  fault _ := none
  rc := 0
  strerror _ := ""
  history := {}

theorem quiet_idle : quiet.Idle := ⟨fun _ => rfl, rfl, fun q hq => by cases hq⟩

/-- A peer's write with immediate 0x123 has arrived. -/
def arrival : Fabric.Move := .notify 0 { flags := { remoteWrite := true }, data := 0x123 }

theorem efaWorld_move (m : Fabric.Move) (f f' : Fabric) (h : f.move m = some f') :
    efaWorld.env f f' := ⟨m, h⟩

/-- The first `Read` waits, and one write arrives. -/
def oneArrival : ℕ → Loop (ℕ × ℕ) Unit ConnOp Fabric Val :=
  states efaWorld readCode Fabric.move (boot true (0, 0) () quiet)
    [.round 0, .resume, .exec 0, .exec 0, .round 0, .resume, .env arrival, .round 0, .resume,
      .round 0, .resume]

/-- The first `Read` waits, and two writes arrive. -/
def twoArrivals : ℕ → Loop (ℕ × ℕ) Unit ConnOp Fabric Val :=
  states efaWorld readCode Fabric.move (boot true (0, 0) () quiet)
    [.round 0, .resume, .exec 0, .exec 0, .round 0, .resume, .env arrival, .env arrival, .round 0,
      .resume]

theorem oneArrival_isRun :
    IsRun (Started true (0, 0) ()) (Step efaWorld readCode) oneArrival 11 :=
  isRun_states efaWorld_move ⟨quiet, quiet_idle, rfl⟩ (by decide +kernel)

theorem twoArrivals_isRun :
    IsRun (Started true (0, 0) ()) (Step efaWorld readCode) twoArrivals 10 :=
  isRun_states efaWorld_move ⟨quiet, quiet_idle, rfl⟩ (by decide +kernel)

/-- The one notification resumes the `Read` once, and its `Select` finds it. -/
theorem single_resumption_iff_oneArrival :
    (∀ i ≤ 11, SingleResumption (oneArrival i)) ∧ (oneArrival 8).ready = [1] :=
  ⟨(single_resumption_iff oneArrival_isRun (by decide +kernel)).mpr
    fun i hi _ => (by decide +kernel : ∀ i < 11, Distinct (oneArrival i).world) i hi,
    by decide +kernel⟩

/-- **Two notifications of one batch resume one `Read` twice**: the `Select`
that takes them queues its handle twice, and the second time the handle is
at the front of `ready_` its coroutine is done. -/
theorem twoArrivals_twice :
    IsRun (Started true (0, 0) ()) (Step efaWorld readCode) twoArrivals 10 ∧
      ¬ (twoArrivals 9).ready.Nodup ∧
      (∃ q, (twoArrivals 10).stack = [] ∧ (twoArrivals 10).left ≠ 0 ∧
        (twoArrivals 10).ready = 1 :: q) ∧
      ¬ ∃ c, (twoArrivals 10).coros 1 = some c ∧ Resumable (twoArrivals 10) c 1 := by
  refine ⟨twoArrivals_isRun, by decide +kernel,
    ⟨[0], by decide +kernel, by decide +kernel, by decide +kernel⟩, ?_⟩
  rintro ⟨c, hc, hr⟩
  have hf : ((twoArrivals 10).coros 1).map (fun c => c.point.isFinal) = some true := by
    decide +kernel
  rw [hc, Option.map_some, Option.some.injEq] at hf
  rw [Resumable, Point.eq_final hf] at hr
  exact hr

end EfaExamples
