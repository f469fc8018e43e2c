import Mathlib.Algebra.Order.Ring.Int
import Mathlib.Data.List.Sort
import Mathlib.Data.List.TakeWhile
import EfaExamples.Coro.Model.Handle
/-!
# Time and the timer queue

`timer.h` and the time half of `io.h`. A clock reading is in nanoseconds
since the loop's `start_`, which is the resolution of `system_clock`, and
both it and every delay are cut to milliseconds before they are compared.
All of these are `int64_t`, and so are the sums and products of them.
`schedule_` is a `std::priority_queue` ordered by `std::greater`, here the
list of its tasks in the order it would pop them.
-/

namespace EfaExamples

/-- The values of an `int64_t`. -/
def FitsInt64 (n : ℤ) : Prop := -2 ^ 63 ≤ n ∧ n < 2 ^ 63

instance : DecidablePred FitsInt64 := fun _ => inferInstanceAs (Decidable (_ ∧ _))

/-- What 64 bits hold of the result `n` of a signed operation. A result that does not fit is
undefined in C++; this is what the machine is left with. -/
def int64 (n : ℤ) : ℤ := n.bmod (2 ^ 64)

theorem int64_fits (n : ℤ) : FitsInt64 (int64 n) := by
  have hlo := Int.le_bmod (x := n) (m := 2 ^ 64) (by decide)
  have hhi := Int.bmod_lt (x := n) (m := 2 ^ 64) (by decide)
  unfold FitsInt64 int64
  omega

theorem int64_of_fits {n : ℤ} (h : FitsInt64 n) : int64 n = n := by
  unfold FitsInt64 at h
  exact Int.bmod_eq_of_le_mul_two (by omega) (by omega)

/-- **Overflow** ends far below. -/
theorem int64_le_of_overflow {n : ℤ} (h : 2 ^ 63 ≤ n) : int64 n ≤ n - 2 ^ 64 := by
  rw [int64, Int.bmod_def]
  split <;> omega

/-- A `std::chrono::duration`: `count` ticks of `num / den` seconds, `count` being an integer of
at most 64 bits. -/
structure Duration where
  count : ℤ
  num : ℕ
  den : ℕ
  deriving DecidableEq, Repr

namespace Duration

/-- `ratio_divide<Period, milli>`, in lowest terms. -/
def toMilli (d : Duration) : ℕ × ℕ :=
  let g := Nat.gcd (d.num * 1000) d.den
  (d.num * 1000 / g, d.den / g)

/-- `duration_cast<milliseconds>`, which multiplies and then truncates towards zero. -/
def toMilliseconds (d : Duration) : ℤ := (int64 (d.count * d.toMilli.1)).tdiv d.toMilli.2

end Duration

/-- `IO::Time`, of a clock reading in nanoseconds. -/
def time (now : ℤ) : ℤ := now.tdiv 1000000

theorem time_of_nonneg {now : ℤ} (h : 0 ≤ now) : time now = now / 1000000 :=
  Int.tdiv_eq_ediv_of_nonneg h

theorem time_of_nonpos {now : ℤ} (h : now ≤ 0) : time now = -(-now / 1000000) := by
  rw [← time_of_nonneg (Int.neg_nonneg.mpr h), time, time, Int.neg_tdiv, Int.neg_neg]

/-- What fits in nanoseconds is far from not fitting in milliseconds. -/
theorem time_bounds {now : ℤ} (h : FitsInt64 now) : -2 ^ 44 < time now ∧ time now < 2 ^ 44 := by
  unfold FitsInt64 at h
  rcases le_total 0 now with h0 | h0
  · rw [time_of_nonneg h0]
    omega
  · rw [time_of_nonpos h0]
    omega

/-- The deadline of `IO::Call(delay, handle)` at a clock reading: a sum of `int64_t`. -/
def deadline (now : ℤ) (delay : Duration) : ℤ := int64 (time now + delay.toMilliseconds)

theorem deadline_of_fits {now : ℤ} {delay : Duration}
    (h : FitsInt64 (time now + delay.toMilliseconds)) :
    deadline now delay = time now + delay.toMilliseconds := int64_of_fits h

/-- `milliseconds::max()` from 1 ms on is over at once. -/
example : deadline 1000000 ⟨2 ^ 63 - 1, 1, 1000⟩ = -2 ^ 63 := by decide +kernel

/-- `IO::task_type`, with the deadline as `deadline` leaves it. -/
structure Task where
  when : ℤ
  handle : ℕ
  deriving DecidableEq, Repr

namespace Task

/-- The order of the tuples `(when, id, handle)`; the id determines the
handle. -/
def le (a b : Task) : Prop := a.when < b.when ∨ a.when = b.when ∧ a.handle ≤ b.handle

instance : DecidableRel le := fun _ _ => inferInstanceAs (Decidable (_ ∨ _))

theorem le_total (a b : Task) : le a b ∨ le b a := by
  unfold le
  omega

theorem le_trans {a b c : Task} (hab : le a b) (hbc : le b c) : le a c := by
  unfold le at *
  omega

instance : Std.Total le := ⟨le_total⟩

instance : IsTrans Task le := ⟨fun _ _ _ => le_trans⟩

/-- `priority_queue::push`. -/
def push (t : Task) (schedule : List Task) : List Task := schedule.orderedInsert le t

/-- The timer loop of `IO::Runone`: the tasks that are due move to the ready
queue, in the order they are popped. -/
def drain (now : ℤ) : List Task → List ℕ → List Task × List ℕ
  | [], ready => ([], ready)
  | t :: schedule, ready =>
    if t.when > now then (t :: schedule, ready) else drain now schedule (ready ++ [t.handle])

/-- The tasks that the timer loop of `Runone` moves, in order. -/
def due (now : ℤ) (schedule : List Task) : List Task :=
  schedule.takeWhile fun t => t.when ≤ now

/-- **The timer loop**: it cuts the due tasks off the front of `schedule_`, and their handles go
to the end of `ready_`. -/
theorem drain_eq (now : ℤ) (schedule : List Task) (ready : List ℕ) :
    drain now schedule ready =
      (schedule.dropWhile fun t => t.when ≤ now, ready ++ (due now schedule).map handle) := by
  induction schedule generalizing ready with
  | nil => simp [drain, due]
  | cons t schedule ih =>
    rw [drain, due, List.dropWhile_cons, List.takeWhile_cons]
    by_cases h : t.when ≤ now
    · rw [if_neg (by omega), ih, due]
      simp [h]
    · rw [if_pos (by omega)]
      simp [h]

/-- Moving due tasks neither loses nor duplicates a handle. -/
theorem drain_perm (now : ℤ) (schedule : List Task) (ready : List ℕ) :
    ((drain now schedule ready).2 ++ (drain now schedule ready).1.map handle).Perm
      (ready ++ schedule.map handle) := by
  rw [drain_eq, List.append_assoc, ← List.map_append, due, List.takeWhile_append_dropWhile]

/-- What stays in the timer queue was there. -/
theorem mem_of_mem_drain {now : ℤ} {schedule : List Task} {ready : List ℕ} {t : Task}
    (h : t ∈ (drain now schedule ready).1) : t ∈ schedule := by
  rw [drain_eq] at h
  exact (List.dropWhile_sublist _).subset h

/-- The ready queue is only appended to, by handles of due tasks. -/
theorem drain_eq_append (now : ℤ) (schedule : List Task) (ready : List ℕ) :
    ∃ due : List Task, (∀ t ∈ due, t ∈ schedule) ∧
      (drain now schedule ready).2 = ready ++ due.map handle :=
  ⟨due now schedule, fun _ ht => (List.takeWhile_sublist _).subset ht, by rw [drain_eq]⟩

end Task

end EfaExamples
