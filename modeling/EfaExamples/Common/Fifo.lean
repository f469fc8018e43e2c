import Mathlib.Data.List.Infix
import Mathlib.Data.Nat.Notation
import Mathlib.Tactic.TypeStar
/-!
# First in, first out

What happens to a queue is a list of events, and only the front may leave. As
far as the events can be replayed, what has left and what is still there make
up what was there and what has entered, in that order.
-/

namespace EfaExamples

namespace Fifo

/-- What happens to a queue. -/
inductive Event (α : Type*)
  | enter (a : α)
  | leave (a : α)
  deriving DecidableEq, Repr

variable {α : Type*}

/-- What enters, in order. -/
def entered (es : List (Event α)) : List α :=
  es.filterMap fun
    | .enter a => some a
    | .leave _ => none

/-- What leaves, in order. -/
def left (es : List (Event α)) : List α :=
  es.filterMap fun
    | .enter _ => none
    | .leave a => some a

/-- The events can happen to the queue `q`, and leave `q'`. -/
inductive Replay : List α → List (Event α) → List α → Prop
  | nil {q : List α} : Replay q [] q
  | enter {a : α} {q q' : List α} {es : List (Event α)} :
      Replay (q ++ [a]) es q' → Replay q (.enter a :: es) q'
  /-- only the front leaves -/
  | leave {a : α} {q q' : List α} {es : List (Event α)} :
      Replay q es q' → Replay (a :: q) (.leave a :: es) q'

variable {es fs : List (Event α)} {q q' l : List α} {a : α}

@[simp] theorem entered_nil : entered ([] : List (Event α)) = [] := rfl

@[simp] theorem left_nil : left ([] : List (Event α)) = [] := rfl

@[simp] theorem entered_enter : entered (.enter a :: es) = a :: entered es := rfl

@[simp] theorem entered_leave : entered (.leave a :: es) = entered es := rfl

@[simp] theorem left_enter : left (.enter a :: es) = left es := rfl

@[simp] theorem left_leave : left (.leave a :: es) = a :: left es := rfl

@[simp] theorem entered_append : entered (es ++ fs) = entered es ++ entered fs :=
  List.filterMap_append

@[simp] theorem left_append : left (es ++ fs) = left es ++ left fs := List.filterMap_append

@[simp] theorem entered_map_enter : entered (l.map .enter) = l := by
  induction l with
  | nil => rfl
  | cons a l ih => rw [List.map_cons, entered_enter, ih]

@[simp] theorem left_map_enter : left (l.map (.enter : α → Event α)) = [] := by
  induction l with
  | nil => rfl
  | cons a l ih => rw [List.map_cons, left_enter, ih]

namespace Replay

theorem append {q'' : List α} (h : Replay q es q') (h' : Replay q' fs q'') :
    Replay q (es ++ fs) q'' := by
  induction h with
  | nil => exact h'
  | enter _ ih => exact .enter (ih h')
  | leave _ ih => exact .leave (ih h')

/-- What could happen could happen up to any point. -/
theorem take {p : List (Event α)} (h : Replay q es q') (hp : p <+: es) : ∃ q'', Replay q p q'' := by
  induction h generalizing p with
  | nil =>
    obtain rfl := List.prefix_nil.mp hp
    exact ⟨_, .nil⟩
  | enter _ ih =>
    rcases List.prefix_cons_iff.mp hp with rfl | ⟨p', rfl, hp'⟩
    · exact ⟨_, .nil⟩
    · obtain ⟨q'', h''⟩ := ih hp'
      exact ⟨q'', .enter h''⟩
  | leave _ ih =>
    rcases List.prefix_cons_iff.mp hp with rfl | ⟨p', rfl, hp'⟩
    · exact ⟨_, .nil⟩
    · obtain ⟨q'', h''⟩ := ih hp'
      exact ⟨q'', .leave h''⟩

theorem map_enter (q l : List α) : Replay q (l.map .enter) (q ++ l) := by
  induction l generalizing q with
  | nil => simpa using Replay.nil (q := q)
  | cons a l ih =>
    have := ih (q ++ [a])
    rw [List.append_assoc] at this
    exact .enter this

/-- **Along a run**, with the events of each step. -/
theorem flatMap_range {queue : ℕ → List α} {log : ℕ → List (Event α)} (n : ℕ)
    (h : ∀ i < n, Replay (queue i) (log i) (queue (i + 1))) :
    Replay (queue 0) ((List.range n).flatMap log) (queue n) := by
  induction n with
  | zero => exact .nil
  | succ n ih =>
    rw [List.range_succ, List.flatMap_append, List.flatMap_singleton]
    exact (ih fun i hi => h i (by omega)).append (h n (by omega))

/-- **First in, first out.** -/
theorem left_append_eq (h : Replay q es q') : left es ++ q' = q ++ entered es := by
  induction h with
  | nil => simp
  | enter _ ih =>
    rw [left_enter, ih, entered_enter, List.append_assoc]
    rfl
  | leave _ ih => rw [left_leave, List.cons_append, ih, entered_leave, List.cons_append]

/-- **Those who were there leave first**: once as many have left, they have, and those who have
entered since are there, in the order in which they did. -/
theorem left_eq_of_length (h : Replay q es q') (hlen : (left es).length = q.length) :
    left es = q ∧ q' = entered es :=
  List.append_inj h.left_append_eq hlen

end Replay

end Fifo

end EfaExamples
