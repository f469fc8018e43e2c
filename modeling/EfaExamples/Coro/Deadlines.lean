import EfaExamples.Coro.Clock
import EfaExamples.Coro.Script
/-!
# Sleepers wake in the order of their deadlines

What the rounds have moved so far, followed by `schedule_`, is one sorted list.
A round moves the boundary only. A `Sleep` puts a task in behind the boundary: its
deadline is not before a reading that all moved tasks were due at, and its handle is
new. That is so if the sum of the reading and the delay fits in 64 bits: a deadline that
overflows is before all others.
-/

namespace EfaExamples

namespace Task

/-- A task that is not before any task of the front goes in behind it. -/
theorem pairwise_push {t : Task} {front schedule : List Task}
    (h : (front ++ schedule).Pairwise le) (ht : ∀ u ∈ front, le u t) :
    (front ++ push t schedule).Pairwise le := by
  obtain ⟨hfront, hsched, hcross⟩ := List.pairwise_append.mp h
  refine List.pairwise_append.mpr ⟨hfront, hsched.orderedInsert t _, fun u hu v hv => ?_⟩
  rcases (List.mem_orderedInsert _).mp hv with rfl | hv
  · exact ht u hu
  · exact hcross u hu v hv

end Task

namespace Loop

variable {Loc G A X V : Type} {w : World A X V} {code : Loc → Op Loc G A V}
variable {s s' : Loop Loc G A X V} {now r : ℤ} {moved gone : List Task}

/-- **The tasks in the order of time**: those that are gone, none of them due after the reading
`r`, and those that `schedule_` has. -/
structure Timeline (gone : List Task) (r : ℤ) (s : Loop Loc G A X V) : Prop where
  sorted : (gone ++ s.schedule).Pairwise Task.le
  handle : ∀ t ∈ gone ++ s.schedule, t.handle < s.seq
  past : ∀ t ∈ gone, t.when ≤ r

/-- **One step.** The reading does not go back, a delay is not negative, and a deadline does not
overflow. -/
theorem Timeline.step (ht : Timeline gone r s) (hs : StepAt w code now moved s s')
    (hr : r ≤ time now) (hdelay : ∀ delay, s.Sleeps code delay → 0 ≤ delay.toMilliseconds)
    (hfits : ∀ delay, s.Sleeps code delay → FitsInt64 (time now + delay.toMilliseconds)) :
    Timeline (gone ++ moved) (time now) s' := by
  have hseq : s.seq ≤ s'.seq := (step_iff_stepAt.mpr ⟨now, moved, hs⟩).seq_le
  rcases hs.schedule with ⟨delay, hsleeps, rfl, hseq', hsched⟩ | ⟨hsched, hdue⟩
  · -- a task with a deadline from now on, and a new handle
    have h0 := hdelay delay hsleeps
    have hsum := deadline_of_fits (hfits delay hsleeps)
    rw [List.append_nil]
    refine ⟨?_, fun t hmem => ?_, fun t hmem => ?_⟩
    · rw [hsched]
      refine Task.pairwise_push ht.sorted fun u hu => ?_
      have hpast := ht.past u hu
      have hhandle := ht.handle u (List.mem_append_left _ hu)
      unfold Task.le
      dsimp only
      omega
    · rw [hsched] at hmem
      rcases List.mem_append.mp hmem with hmem | hmem
      · have := ht.handle t (List.mem_append_left _ hmem)
        omega
      · rcases (List.mem_orderedInsert _).mp hmem with rfl | hmem
        · show s.seq < s'.seq
          omega
        · have := ht.handle t (List.mem_append_right _ hmem)
          omega
    · have := ht.past t hmem
      omega
  · -- the boundary moves, and nothing else
    have hlist : gone ++ moved ++ s'.schedule = gone ++ s.schedule := by
      rw [hsched, List.append_assoc]
    refine ⟨hlist ▸ ht.sorted, fun t hmem => ?_, fun t hmem => ?_⟩
    · rw [hlist] at hmem
      have := ht.handle t hmem
      omega
    · rcases List.mem_append.mp hmem with hmem | hmem
      · have := ht.past t hmem
        omega
      · exact hdue t hmem

/-- What is pending is gone or pending later. -/
theorem StepAt.mem_schedule {t : Task} (hs : StepAt w code now moved s s')
    (ht : t ∈ s.schedule) : t ∈ moved ∨ t ∈ s'.schedule := by
  rcases hs.schedule with ⟨delay, -, -, -, hsched⟩ | ⟨hsched, -⟩
  · rw [hsched]
    exact Or.inr ((List.mem_orderedInsert _).mpr (Or.inr ht))
  · rw [hsched] at ht
    exact List.mem_append.mp ht

/-- What is moved was pending, and is due. -/
theorem StepAt.of_mem_moved {t : Task} (hs : StepAt w code now moved s s') (ht : t ∈ moved) :
    t ∈ s.schedule ∧ t.when ≤ time now := by
  rcases hs.schedule with ⟨delay, -, hnil, -⟩ | ⟨hsched, hdue⟩
  · rw [hnil] at ht
    cases ht
  · rw [hsched]
    exact ⟨List.mem_append_left _ ht, hdue t ht⟩

/-- Only a round takes tasks off `schedule_`. -/
theorem StepAt.keeps_of_not_round (hs : StepAt w code now moved s s')
    (hr : ¬ RoundAt w now moved s s') : moved = [] ∧ ∀ t ∈ s.schedule, t ∈ s'.schedule := by
  have hnil : moved = [] := by
    by_contra hm
    exact hr (hs.round_of_ne_nil hm)
  refine ⟨hnil, fun t ht => (hs.mem_schedule ht).resolve_left fun hmem => ?_⟩
  rw [hnil] at hmem
  cases hmem

section Run

variable {σ : ℕ → Loop Loc G A X V} {clock : ℕ → ℤ} {moves : ℕ → List Task} {n : ℕ}

/-- **A run**, as far as it goes. -/
theorem timeline_of_run (hstart : (σ 0).schedule = [])
    (hstep : ∀ i < n, StepAt w code (clock i) (moves i) (σ i) (σ (i + 1)))
    (hclock : ∀ i j, i ≤ j → j < n → time (clock i) ≤ time (clock j))
    (hdelay : ∀ i < n, ∀ delay, (σ i).Sleeps code delay → 0 ≤ delay.toMilliseconds)
    (hfits : ∀ i < n, ∀ delay, (σ i).Sleeps code delay →
      FitsInt64 (time (clock i) + delay.toMilliseconds)) :
    ∀ i ≤ n, ∃ r, (∀ j, i ≤ j → j < n → r ≤ time (clock j)) ∧
      Timeline ((List.range i).flatMap moves) r (σ i) := by
  intro i
  induction i with
  | zero =>
    refine fun _ => ⟨time (clock 0), fun j hj hjn => hclock 0 j hj hjn, ?_⟩
    refine ⟨?_, ?_, ?_⟩ <;> simp [hstart]
  | succ i ih =>
    intro hi
    obtain ⟨r, hr, ht⟩ := ih (by omega)
    refine ⟨time (clock i), fun j hj hjn => hclock i j (by omega) hjn, ?_⟩
    rw [List.range_succ, List.flatMap_append, List.flatMap_singleton]
    exact ht.step (hstep i hi) (hr i (by omega) hi) (hdelay i hi) (hfits i hi)

/-- What is pending at one time is gone or pending at the end. -/
theorem mem_timeline (hstep : ∀ i < n, StepAt w code (clock i) (moves i) (σ i) (σ (i + 1)))
    {i : ℕ} (hi : i ≤ n) {t : Task} (ht : t ∈ (σ i).schedule) :
    t ∈ (List.range n).flatMap moves ++ (σ n).schedule := by
  obtain ⟨m, rfl⟩ := Nat.exists_eq_add_of_le hi
  clear hi
  induction m with
  | zero => exact List.mem_append_right _ ht
  | succ m ih =>
    have hmem := ih fun j hj => hstep j (by omega)
    rw [← Nat.add_assoc, List.range_succ, List.flatMap_append, List.flatMap_singleton,
      List.append_assoc]
    rcases List.mem_append.mp hmem with hmem | hmem
    · exact List.mem_append_left _ hmem
    · exact List.mem_append_right _ (List.mem_append.mpr
        ((hstep (i + m) (by omega)).mem_schedule hmem))

/-- **Sleepers wake in the order of their deadlines.** Along a run of the loop in which the
readings of the clock do not go back, no delay is negative and no deadline overflows: the
deadlines of the tasks moved to `ready_` do not decrease; of two tasks pending together with one
deadline the one with the smaller handle is moved first; nothing is moved before it is due; a
round leaves nothing that is; and what is moved leaves `schedule_` and enters `ready_`, in that
order, and nothing else leaves `schedule_`. -/
theorem sleepers_in_order (hstart : (σ 0).schedule = [])
    (hstep : ∀ i < n, StepAt w code (clock i) (moves i) (σ i) (σ (i + 1)))
    (hclock : ∀ i j, i ≤ j → j < n → time (clock i) ≤ time (clock j))
    (hdelay : ∀ i < n, ∀ delay, (σ i).Sleeps code delay → 0 ≤ delay.toMilliseconds)
    (hfits : ∀ i < n, ∀ delay, (σ i).Sleeps code delay →
      FitsInt64 (time (clock i) + delay.toMilliseconds)) :
    ((List.range n).flatMap moves).Pairwise (fun a b => a.when ≤ b.when) ∧
    (∀ i ≤ n, ∀ a ∈ (σ i).schedule, ∀ b ∈ (σ i).schedule,
      a.when = b.when → a.handle < b.handle →
      ∀ before after, (List.range n).flatMap moves = before ++ b :: after → a ∈ before) ∧
    (∀ i < n, ∀ t ∈ moves i, t.when ≤ time (clock i)) ∧
    (∀ i < n, RoundAt w (clock i) (moves i) (σ i) (σ (i + 1)) →
      (σ i).schedule = moves i ++ (σ (i + 1)).schedule ∧
      (∃ events x, w.poll (σ i).world = (.ok events, x) ∧
        (σ (i + 1)).ready = (σ i).ready ++ events ++ (moves i).map Task.handle) ∧
      ∀ t ∈ (σ (i + 1)).schedule, time (clock i) < t.when) ∧
    ∀ i < n, ¬ RoundAt w (clock i) (moves i) (σ i) (σ (i + 1)) →
      moves i = [] ∧ ∀ t ∈ (σ i).schedule, t ∈ (σ (i + 1)).schedule := by
  have hline := timeline_of_run hstart hstep hclock hdelay hfits
  obtain ⟨_, -, hend⟩ := hline n (le_refl n)
  refine ⟨?_, ?_, fun i hi t ht => ((hstep i hi).of_mem_moved ht).2,
    fun i hi hround => ?_, fun i hi hr => (hstep i hi).keeps_of_not_round hr⟩
  · refine (List.pairwise_append.mp hend.sorted).1.imp fun {a b} hab => ?_
    unfold Task.le at hab
    omega
  · intro i hi a ha b hb hwhen hhandle before after heq
    have hmem := mem_timeline hstep hi ha
    have hsorted := hend.sorted
    rw [heq, List.append_assoc, List.cons_append] at hmem hsorted
    rcases List.mem_append.mp hmem with hmem | hmem
    · exact hmem
    · -- behind `b` there is nothing before it
      rcases List.mem_cons.mp hmem with rfl | hmem
      · omega
      · have hba := (List.pairwise_cons.mp (List.pairwise_append.mp hsorted).2.1).1 a hmem
        unfold Task.le at hba
        omega
  · obtain ⟨hfront, hready, -, hhead⟩ := hround.moves
    refine ⟨hfront, hready, fun t ht => ?_⟩
    -- the first that is left is not due, and the others come later
    obtain ⟨_, -, hnext⟩ := hline (i + 1) hi
    have hsorted := (List.pairwise_append.mp hnext.sorted).2.1
    cases hsched : (σ (i + 1)).schedule with
    | nil =>
      rw [hsched] at ht
      cases ht
    | cons u rest =>
      rw [hsched] at ht hhead hsorted
      have hu := hhead u rfl
      rcases List.mem_cons.mp ht with rfl | ht
      · exact hu
      · have hut := (List.pairwise_cons.mp hsorted).1 t ht
        unfold Task.le at hut
        omega

end Run

end Loop

/-! ## A run with three sleepers -/

/-- The reading fits the choice of the step. -/
def Act.Reads {M : Type} (now : ℤ) : Act M → Prop
  | .exec t | .round t => now = t
  | .resume | .env _ => True

instance {M : Type} (now : ℤ) : DecidablePred (Act.Reads (M := M) now)
  | .exec t | .round t => inferInstanceAs (Decidable (now = t))
  | .resume | .env _ => inferInstanceAs (Decidable True)

/-- The tasks that the step moves. -/
def Act.moves {M Loc G A X V : Type} (now : ℤ) (s : Loop Loc G A X V) : Act M → List Task
  | .round _ => Task.due (time now) s.schedule
  | .exec _ | .resume | .env _ => []

namespace Loop

variable {Loc G A X V M : Type} {w : World A X V} {code : Loc → Op Loc G A V}
variable {move : M → X → Option X} {s s' : Loop Loc G A X V} {now : ℤ}

/-- What `act` performs is a step at its reading. -/
theorem stepAt_of_act (hmove : ∀ m x x', move m x = some x' → w.env x x') {a : Act M}
    (h : s.act w code move a = some s') (hnow : a.Reads now) :
    StepAt w code now (a.moves now s) s s' := by
  cases a with
  | exec t =>
    obtain rfl : now = t := hnow
    exact .exec h
  | resume =>
    rw [act] at h
    split at h
    · rename_i hs
      exact .resume (List.isEmpty_iff.mp hs) h
    · cases h
  | round t =>
    obtain rfl : now = t := hnow
    rw [act] at h
    split at h
    · rename_i hs
      simp only [Bool.and_eq_true, List.isEmpty_iff, beq_iff_eq, Bool.not_eq_true'] at hs
      split at h
      · rename_i events x hpoll
        obtain ⟨s₁, h₁, rfl⟩ := Option.map_eq_some_iff.mp h
        obtain ⟨-, -, hsched⟩ := callAll_fields h₁
        rw [Act.moves, show s.schedule = s₁.schedule from hsched.symm]
        exact .round ⟨hs.1, hs.2, hpoll, h₁⟩
      · cases h
    · cases h
  | env m =>
    rw [act] at h
    obtain ⟨x, hx, rfl⟩ := Option.map_eq_some_iff.mp h
    exact .env (hmove m _ x hx)

/-- Each step of a script that does not fail is one at its reading. -/
theorem stepAt_states (hmove : ∀ m x x', move m x = some x' → w.env x x') {acts : List (Act M)}
    {clock : ℕ → ℤ} (htrace : (s.trace w code move acts).isSome)
    (hreads : ∀ i, (hi : i < acts.length) → acts[i].Reads (clock i)) {i : ℕ}
    (hi : i < acts.length) :
    StepAt w code (clock i)
      ((acts.getD i .resume).moves (clock i) (s.states w code move acts i))
      (s.states w code move acts i) (s.states w code move acts (i + 1)) := by
  have hget : acts.getD i .resume = acts[i] := by
    rw [List.getD_eq_getElem?_getD, List.getElem?_eq_getElem hi, Option.getD_some]
  rw [hget]
  exact stepAt_of_act hmove (act_states htrace hi) (hreads i hi)

end Loop

namespace Naps

/-- A body that starts three sleeps, of 5, 3 and 3 ms, and awaits the first. -/
def code : ℕ → Op ℕ Unit Empty Unit
  | 0 => .sleep ⟨5, 1, 1000⟩ fun _ => 1
  | 1 => .sleep ⟨3, 1, 1000⟩ fun _ => 2
  | 2 => .sleep ⟨3, 1, 1000⟩ fun _ => 3
  | 3 => .await 1 fun _ => 4
  | _ => .ret (.ok none)

/-- The second and the third sleeper are due at 4 ms, the first at 6. -/
def acts : List (Act Empty) :=
  [.round 0, .resume, .exec 0, .exec 0, .exec 0, .exec 0, .round 4000000, .resume, .resume,
    .round 6000000]

def run : ℕ → Loop ℕ Unit Empty Unit Unit :=
  Loop.states coroWorld code Empty.elim (Loop.boot true 0 () ()) acts

def clock (i : ℕ) : ℤ := if i < 6 then 0 else if i < 9 then 4000000 else 6000000

def moves (i : ℕ) : List Task := (acts.getD i .resume).moves (clock i) (run i)

theorem stepAt : ∀ i < 10, Loop.StepAt coroWorld code (clock i) (moves i) (run i) (run (i + 1)) :=
  fun _ hi => Loop.stepAt_states (fun m => m.elim) (by decide +kernel) (by decide) hi

theorem sleeps {i : ℕ} {delay : Duration} (h : (run i).Sleeps code delay) :
    0 ≤ delay.toMilliseconds ∧ delay.toMilliseconds < 6 := by
  obtain ⟨me, l, rest, k, -, hcode⟩ := h
  unfold code at hcode
  split at hcode <;> cases hcode <;> decide +kernel

theorem clock_mono : ∀ i j, i ≤ j → j < 10 → time (clock i) ≤ time (clock j) := by
  have hle : ∀ j < 10, ∀ i ≤ j, time (clock i) ≤ time (clock j) := by decide
  exact fun i j hij hj => hle j hj i hij

theorem sleepers_in_order_naps :
    ((List.range 10).flatMap moves).Pairwise (fun a b => a.when ≤ b.when) ∧
      ∀ t ∈ (run 7).schedule, time 4000000 < t.when := by
  have hbound : ∀ i < 10, 0 ≤ time (clock i) ∧ time (clock i) < 7 := by decide
  have h := Loop.sleepers_in_order (n := 10) rfl stepAt clock_mono (fun i _ _ hs => (sleeps hs).1)
    fun i hi delay hs => by
      have hnow := hbound i hi
      have hlen := sleeps hs
      unfold FitsInt64
      omega
  have hround := (stepAt 6 (by decide)).round_of_ne_nil (by decide +kernel)
  exact ⟨h.1, (h.2.2.2.1 6 (by decide) hround).2.2⟩

end Naps

/-! ## A deadline that overflows -/

namespace Overflow

/-- A body that sleeps for 1 ms and then for `milliseconds::max()`. -/
def code : ℕ → Op ℕ Unit Empty Unit
  | 0 => .sleep ⟨1, 1, 1000⟩ fun _ => 1
  | 1 => .await 1 fun _ => 2
  | 2 => .sleep ⟨2 ^ 63 - 1, 1, 1000⟩ fun _ => 3
  | 3 => .await 2 fun _ => 4
  | _ => .ret (.ok none)

/-- It calls the second `Sleep` at 1 ms. -/
def acts : List (Act Empty) :=
  [.round 0, .resume, .exec 0, .exec 0, .round 1000000, .resume, .round 1000000, .resume,
    .exec 1000000, .exec 1000000, .round 1000000]

def run : ℕ → Loop ℕ Unit Empty Unit Unit :=
  Loop.states coroWorld code Empty.elim (Loop.boot true 0 () ()) acts

def clock (i : ℕ) : ℤ := if i < 4 then 0 else 1000000

def moves (i : ℕ) : List Task := (acts.getD i .resume).moves (clock i) (run i)

theorem stepAt : ∀ i < 11, Loop.StepAt coroWorld code (clock i) (moves i) (run i) (run (i + 1)) :=
  fun _ hi => Loop.stepAt_states (fun m => m.elim) (by decide +kernel) (by decide) hi

/-- **The second deadline is -2^63**, so the next round moves it, after the one of 1 ms. -/
theorem not_in_order :
    (run 0).schedule = [] ∧
    (∀ i < 11, Loop.StepAt coroWorld code (clock i) (moves i) (run i) (run (i + 1))) ∧
    (∀ i j, i ≤ j → j < 11 → time (clock i) ≤ time (clock j)) ∧
    (∀ i < 11, ∀ delay, (run i).Sleeps code delay → 0 ≤ delay.toMilliseconds) ∧
    (List.range 11).flatMap moves = [⟨1, 1⟩, ⟨-2 ^ 63, 2⟩] ∧
    ¬ ((List.range 11).flatMap moves).Pairwise (fun a b => a.when ≤ b.when) := by
  have hmoves : (List.range 11).flatMap moves = [⟨1, 1⟩, ⟨-2 ^ 63, 2⟩] := by decide +kernel
  have hle : ∀ j < 11, ∀ i ≤ j, time (clock i) ≤ time (clock j) := by decide
  refine ⟨rfl, stepAt, fun i j hij hj => hle j hj i hij, ?_, hmoves, ?_⟩
  · rintro i hi delay ⟨me, l, rest, k, -, hcode⟩
    unfold code at hcode
    split at hcode <;> cases hcode <;> decide +kernel
  · rw [hmoves]
    simp

end Overflow

end EfaExamples
