import EfaExamples.Common.Run
import EfaExamples.Coro.Rows
/-!
# What is gone and queued nowhere

Whatever a step puts into a queue exists. So a handle whose coroutine is gone
and which stands in neither queue comes back into neither: ids are given out
once. This is of any program, whether or not it has left something dangling
before.
-/

namespace EfaExamples

open Loop

variable {Loc G A X V : Type} {w : World A X V} {code : Loc → Op Loc G A V}
variable {s s' : Loop Loc G A X V} {h d : ℕ}

/-- Whatever the step puts into a queue exists after it. -/
def Calls (s s' : Loop Loc G A X V) : Prop :=
  ∀ h ∈ s'.queued, h ∈ s.queued ∨ (s'.coros h).isSome = true

theorem Calls.of_queued (hq : s'.queued = s.queued) : Calls s s' := by
  intro h hh
  rw [hq] at hh
  exact Or.inl hh

/-- `IO::Call`, of a coroutine that exists. -/
theorem calls_call (hd : (s.coros d).isSome = true) : Calls s (s.call d) := by
  intro h hh
  have hh : h ∈ (s.ready ++ [d]) ++ s.schedule.map Task.handle := hh
  simp only [List.mem_append, List.mem_singleton] at hh
  rcases hh with (hh | rfl) | hh
  · exact Or.inl (List.mem_append_left _ hh)
  · right
    rw [call_coros, setState, modify_coros_isSome]
    exact hd
  · exact Or.inl (List.mem_append_right _ hh)

theorem calls_schedule : Calls s (Handle.schedule d s) := by
  unfold Handle.schedule
  split
  · rename_i c hc
    split
    · exact calls_call (by rw [hc]; rfl)
    · exact .of_queued rfl
  · exact .of_queued rfl

theorem calls_finish {o : Outcome V} (hf : s.finish d o = some s') : Calls s s' := by
  obtain ⟨c, -, s₁, he, -, ⟨-, rfl⟩ | ⟨p, cp, -, hcp, rfl⟩⟩ := finish_cases hf
  · exact .of_queued he.queued
  · have hp : ((s₁.modify d fun c =>
        { c with point := .final, result := some o, locals := [] }).coros p).isSome = true := by
      rw [modify_coros_isSome, hcp]
      rfl
    intro h hh
    refine (calls_call hp h hh).imp_left fun hq => ?_
    rw [← he.queued]
    exact hq

theorem calls_callAll : ∀ {events : List ℕ} {s : Loop Loc G A X V},
    s.callAll events = some s' → Calls s s' := by
  intro events
  induction events with
  | nil =>
    intro s hs
    rw [callAll, Option.some.injEq] at hs
    exact .of_queued (by rw [hs])
  | cons e events ih =>
    intro s hs
    rw [callAll] at hs
    split at hs
    · rename_i he
      intro h hh
      rcases ih hs h hh with hq | hsome
      · refine (calls_call he h hq).imp_right fun hsome => ?_
        by_contra hn
        have hnone := Option.not_isSome_iff_eq_none.mp hn
        rw [call_coros, setState, modify_coros_isSome] at hsome
        obtain ⟨c, hc⟩ := Option.isSome_iff_exists.mp hsome
        have hrow := callAll_row hs (c := if h = e then { c with state := .kScheduled } else c) (by
          rw [call_coros, setState, modify_coros, hc]
          split <;> rfl)
        rw [hrow] at hnone
        cases hnone
      · exact Or.inr hsome
    · cases hs

/-- **Whatever a step puts into a queue exists.** -/
theorem Loop.Step.calls (hs : Step w code s s') : Calls s s' := by
  cases hs with
  | exec now hs =>
    obtain ⟨me, l, rest, -, hop⟩ := operation_of_exec hs
    cases hop with
    | step f _ he | keep d k c _ _ _ _ he | got d k c _ _ _ he | done d k c _ _ he
    | release d k _ _ he =>
      subst he
      exact .of_queued rfl
    | spawn c sched inner l' hmade he =>
      subst he
      intro h hh
      rcases List.mem_append.mp hh with hh | hh
      · exact Or.inl (List.mem_append_left _ hh)
      · obtain ⟨tk, htk, rfl⟩ := List.mem_map.mp hh
        rcases hmade.mem_schedule htk with htk | ⟨htk, -⟩
        · exact Or.inl (List.mem_append_right _ (List.mem_map_of_mem htk))
        · right
          show ((Loop.addLocal me s.seq (s.spawn c)).coros _).isSome = true
          rw [htk, addLocal, modify_coros_isSome, spawn_coros, if_pos rfl]
          rfl
    | future d k c _ _ _ _ he =>
      subst he
      exact (calls_schedule (s := s) :)
    | suspend d k c _ _ _ he =>
      subst he
      exact (calls_schedule :)
    | destroy d k _ _ he =>
      subst he
      exact .of_queued (erased_destroy _ _ _).queued
    | ret o _ hf => exact (calls_finish hf :)
  | resume hstack hs =>
    obtain ⟨d, n, q, c, -, hready, -, hit⟩ := iteration_of_resume hs
    have hcalls : Calls (s.popped d n q) s' := by
      cases hit with
      | initial l _ he | await e k cd _ _ he | posted a x x' _ _ _ he =>
        subst he
        exact .of_queued rfl
      | refused a e _ _ hf | failed a e x x' _ _ _ hf | sleep _ hf | io a _ hf =>
        exact (calls_finish hf :)
    -- the front has left `ready_`, and what follows calls only what exists
    intro h hh
    refine (hcalls h hh).imp_left fun hq => ?_
    rw [queued, hready]
    exact List.mem_cons_of_mem d hq
  | round hs =>
    obtain @⟨s₁, now, events, x, -, -, -, hcall⟩ := hs
    intro h hh
    rw [runone_queued_perm.mem_iff] at hh
    exact (calls_callAll hcall h hh :)
  | env hs => exact .of_queued rfl

/-- **The handle was given out, and nothing is left of its coroutine.** -/
structure Forgotten (s : Loop Loc G A X V) (h : ℕ) : Prop where
  given : h < s.seq
  gone : s.coros h = none
  queued : h ∉ s.queued

/-- What is forgotten stays so. -/
theorem Forgotten.step (hf : Forgotten s h) (hs : Step w code s s') : Forgotten s' h := by
  have hgone : s'.coros h = none := by
    cases hc : s'.coros h with
    | none => rfl
    | some c =>
      have := (hs.fresh_row hf.gone hc).1
      have := hf.given
      omega
  refine ⟨hf.given.trans_le hs.seq_le, hgone, fun hq => ?_⟩
  rcases hs.calls h hq with hq | hsome
  · exact hf.queued hq
  · rw [hgone] at hsome
    cases hsome

end EfaExamples
