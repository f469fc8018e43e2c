import EfaExamples.Common.Run
import EfaExamples.Coro.Model.Exec
/-!
# Runs from a script

`Step` as a function: `act` performs a chosen step and fails where there is
none, and `states` are the states along a list of choices. A concrete run is
its script, evaluated; `isRun_states` turns it into an `IsRun`. The world's
moves are given as a function of their own, `move`.
-/

namespace EfaExamples

/-- A choice of the next step. -/
inductive Act (M : Type)
  /-- the executing body goes on, at the clock reading `now` -/
  | exec (now : ℤ)
  /-- `Runone` runs the next handle -/
  | resume
  /-- `Run` goes round, at the clock reading `now` -/
  | round (now : ℤ)
  /-- the world makes the move `m` -/
  | env (m : M)

namespace Loop

variable {Loc G A X V M : Type} (w : World A X V) (code : Loc → Op Loc G A V)
variable (move : M → X → Option X)

/-- Perform a step. -/
def act : Act M → Loop Loc G A X V → Option (Loop Loc G A X V)
  | .exec now, s => s.exec code now
  | .resume, s => if s.stack.isEmpty then s.resume w else none
  | .round now, s =>
    if s.stack.isEmpty && s.left == 0 && !s.stopped w then
      match w.poll s.world with
      | (.ok events, x) => ({ s with world := x }.callAll events).map (Loop.runone now)
      | (.error _, _) => none
    else none
  | .env m, s => (move m s.world).map fun x => { s with world := x }

/-- The state a script ends in. -/
def trace : List (Act M) → Loop Loc G A X V → Option (Loop Loc G A X V)
  | [], s => some s
  | a :: as, s => (s.act w code move a).bind (trace as)

/-- The states along a script. -/
def states (s : Loop Loc G A X V) (acts : List (Act M)) (i : ℕ) : Loop Loc G A X V :=
  (s.trace w code move (acts.take i)).getD s

variable {w code move} {s s' : Loop Loc G A X V}
variable (hmove : ∀ m x x', move m x = some x' → w.env x x')

include hmove in
/-- What `act` performs is a step, as far as the world's moves are its own. -/
theorem step_of_act {a : Act M} (h : s.act w code move a = some s') : Step w code s s' := by
  cases a with
  | exec now => exact .exec now h
  | resume =>
    rw [act] at h
    split at h
    · rename_i hs
      exact .resume (List.isEmpty_iff.mp hs) h
    · cases h
  | round now =>
    rw [act] at h
    split at h
    · rename_i hs
      simp only [Bool.and_eq_true, List.isEmpty_iff, beq_iff_eq, Bool.not_eq_true'] at hs
      split at h
      · rename_i events x hpoll
        obtain ⟨s₁, h₁, rfl⟩ := Option.map_eq_some_iff.mp h
        exact .round ⟨hs.1, hs.2, hpoll, h₁⟩
      · cases h
    · cases h
  | env m =>
    rw [act] at h
    obtain ⟨x, hx, rfl⟩ := Option.map_eq_some_iff.mp h
    exact .env (hmove m _ x hx)

include hmove in
/-- A script that does not fail leads to the state it ends in. -/
theorem reflTransGen_of_trace {acts : List (Act M)} (h : s.trace w code move acts = some s') :
    Relation.ReflTransGen (Step w code) s s' := by
  induction acts generalizing s with
  | nil =>
    cases h
    exact .refl
  | cons a acts ih =>
    obtain ⟨s₁, h₁, h₂⟩ := Option.bind_eq_some_iff.mp h
    exact (ih h₂).head (step_of_act hmove h₁)

theorem trace_append (as bs : List (Act M)) :
    s.trace w code move (as ++ bs) = (s.trace w code move as).bind (trace w code move bs) := by
  induction as generalizing s with
  | nil => rfl
  | cons a as ih =>
    rw [List.cons_append, trace, trace, Option.bind_assoc]
    congr 1
    funext s₁
    exact ih

/-- Each act of a script that does not fail leads from a state of it to the next. -/
theorem act_states {acts : List (Act M)} (h : (s.trace w code move acts).isSome) {i : ℕ}
    (hi : i < acts.length) : (s.states w code move acts i).act w code move acts[i] =
      some (s.states w code move acts (i + 1)) := by
  -- a script that does not fail has a state after each of its beginnings
  have hsome : ∀ j, ∃ s₁, s.trace w code move (acts.take j) = some s₁ := by
    intro j
    rw [← List.take_append_drop j acts, trace_append] at h
    cases hj : s.trace w code move (acts.take j) with
    | none => rw [hj] at h; cases h
    | some s₁ => exact ⟨s₁, rfl⟩
  obtain ⟨s₁, h₁⟩ := hsome i
  obtain ⟨s₂, h₂⟩ := hsome (i + 1)
  have hact : s₁.act w code move acts[i] = some s₂ := by
    rw [List.take_succ_eq_append_getElem hi, trace_append, h₁] at h₂
    simpa [trace] using h₂
  have hi₁ : s.states w code move acts i = s₁ := by rw [states, h₁]; rfl
  have hi₂ : s.states w code move acts (i + 1) = s₂ := by rw [states, h₂]; rfl
  rw [hi₁, hi₂]
  exact hact

include hmove in
/-- **A script that does not fail is a run.** -/
theorem isRun_states {init : Loop Loc G A X V → Prop} {acts : List (Act M)} (hs : init s)
    (h : (s.trace w code move acts).isSome) :
    IsRun init (Step w code) (s.states w code move acts) acts.length where
  start := hs
  next _ hi := step_of_act hmove (act_states h hi)

end Loop

end EfaExamples
