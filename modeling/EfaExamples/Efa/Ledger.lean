import Mathlib.Data.Finset.Card
import Mathlib.Data.List.Dedup
import Mathlib.Data.Finset.Dedup
import EfaExamples.Efa.Contexts
/-!
# What has come and what has been taken

A coroutine whose event has come is pending until `Runone` runs it. Between
two `Select`s the pending coroutines and those resumed are together always as
many (`ledger_step`), and what is done is referred to by nothing, so that
its destruction is always allowed (`unreferenced_of_final`).
-/

namespace EfaExamples

open Loop

variable {Loc G : Type} {code : Loc → Op Loc G ConnOp Val}
variable {s s' : Loop Loc G ConnOp Fabric Val} {h : ℕ} {c : Coro Loc ConnOp Val}

/-- The coroutines that wait in `ready_` to take the result of their operation. -/
def Loop.pending (s : Loop Loc G ConnOp Fabric Val) : Finset ℕ :=
  s.ready.toFinset.filter fun h => (s.op h).isSome

/-- The pending coroutines are those in an operation that are scheduled. -/
theorem Contexts.mem_pending (k : Contexts s) (t : Table none s) :
    h ∈ s.pending ↔ ∃ a, s.op h = some (a, .kScheduled) := by
  rw [Loop.pending, Finset.mem_filter, List.mem_toFinset]
  constructor
  · rintro ⟨hh, hop⟩
    obtain ⟨⟨a, st⟩, ha⟩ := Option.isSome_iff_exists.mp hop
    obtain ⟨c, hc, hp, hst⟩ := op_eq_some.mp ha
    have := (t.of_mem_queued hc (List.mem_append_left _ hh)).1
    exact ⟨a, by rw [ha, ← hst, this]⟩
  · rintro ⟨a, ha⟩
    exact ⟨List.mem_of_mem_take (k.delivered h a ha).1, by rw [ha]; rfl⟩

/-- At the head of the loop nothing is pending. -/
theorem Contexts.pending_of_head (k : Contexts s) (t : Table none s) (hhead : s.AtHead) :
    s.pending = ∅ := by
  refine Finset.eq_empty_of_forall_notMem fun h hh => ?_
  obtain ⟨a, ha⟩ := (k.mem_pending t).mp hh
  have := (k.delivered h a ha).1
  rw [hhead.2] at this
  cases this

/-- Nothing refers to a coroutine that is done. -/
theorem Contexts.unreferenced_of_final (k : Contexts s) (t : Table none s)
    (hc : s.coros h = some c) (hf : c.point.isFinal = true) : Unreferenced s s' h := by
  have hop : s.op h = none := by
    rw [op_of_coros hc, Coro.op, Point.eq_final hf]
    rfl
  constructor
  · intro hq
    have := (t.of_mem_queued hc hq).2.2.1
    rw [hf] at this
    cases this
  · intro hr
    obtain ⟨c', hc', hrun⟩ := (t.onStack h (by simp)).mp hr
    rw [hc, Option.some.injEq] at hc'
    rw [← hc', Point.eq_final hf] at hrun
    cases hrun
  · intro i _ ci hci _ hfi hn
    obtain ⟨cp, hcp, haw, -⟩ := t.next i ci h hci hfi hn
    rw [hc, Option.some.injEq] at hcp
    rw [← hcp, Point.eq_final hf] at haw
    cases haw
  · intro hout
    obtain ⟨a, req, ha, -⟩ := k.of_mem_outstanding hout
    rw [hop] at ha
    cases ha
  · intro p hp
    rw [hop] at hp
    cases hp

/-- A step that destroys only what is done takes away nothing that is in use. -/
theorem Contexts.owned_of_final (k : Contexts s) (t : Table none s)
    (hgone : ∀ h c, s.coros h = some c → s'.coros h = none → c.point.isFinal = true)
    (hawait : ∀ p ∈ s.awaiting code, p.2 ∉ s.running) : EfaOwned code s s' where
  destroy h _ hh hg := by
    obtain ⟨c, hc⟩ := Option.isSome_iff_exists.mp hh
    exact k.unreferenced_of_final t hc (hgone h c hc (Option.isNone_iff_eq_none.mp hg))
  await := hawait

/-- **Between two `Select`s**, whatever stops being pending has been resumed. -/
theorem ledger_step (t : Table none s) (k : Contexts s) (hs : Step efaWorld code s s')
    (hok : EfaStepOk code s s') (hn : ¬ RoundStep efaWorld s s') :
    s'.world.history.taken = s.world.history.taken ∧
      s'.world.history.resumed.length + s'.pending.card =
        s.world.history.resumed.length + s.pending.card := by
  obtain ⟨t', k'⟩ := k.step t hs hok
  have hsame : (∀ i a, s'.op i = some (a, .kScheduled) ↔ s.op i = some (a, .kScheduled)) →
      s'.pending = s.pending := by
    intro hop
    ext i
    rw [k.mem_pending t, k'.mem_pending t']
    simp only [hop]
  -- what is pending is queued, so it is not destroyed
  have hkept : ∀ i, s'.coros i = none ∨ s'.op i = s.op i →
      ∀ a, s'.op i = some (a, .kScheduled) ↔ s.op i = some (a, .kScheduled) := by
    rintro i (hg | hi) a
    · rw [op_of_gone hg]
      refine ⟨fun ha => absurd ha (by simp), fun ha => ?_⟩
      obtain ⟨c, hc, -⟩ := op_eq_some.mp ha
      refine absurd ?_ (hok.unreferenced t (by rw [hc]; rfl) hg).queued
      exact List.mem_append_left _ (List.mem_of_mem_take (k.delivered i a ha).1)
    · rw [hi]
  have hmoved : ∀ x, efaWorld.env s.world x → s' = { s with world := x } →
      s'.world.history.taken = s.world.history.taken ∧
        s'.world.history.resumed.length + s'.pending.card =
          s.world.history.resumed.length + s.pending.card := by
    rintro x ⟨m, hm⟩ rfl
    have hmoved := (Fabric.moved_of_move hm).1
    refine ⟨hmoved.taken, ?_⟩
    show x.history.resumed.length + s.pending.card = _
    rw [hmoved.resumed]
  cases hs.worldStep t hok.not_running with
  | exec r hstack hw _ _ hop =>
    rw [hw, hsame fun i a => hkept i (hop i) a]
    exact ⟨rfl, rfl⟩
  | front h c q r hstack hleft hq hc hr hfront hop =>
    -- the front that was in no operation is in none that is scheduled after it
    have hidle : s.op h = none → (∀ a, s'.op h ≠ some (a, .kScheduled)) →
        s'.pending = s.pending := by
      intro h₁ h₂
      refine hsame fun i a => ?_
      by_cases hi : i = h
      · rw [hi, h₁]
        simp [h₂ a]
      · exact hkept i (hop i hi) a
    have hnone : c.point.op = none → s.op h = none := by
      intro hp
      rw [op_of_coros hc, Coro.op, hp]
      rfl
    cases hfront with
    | idle hp _ hw hop' =>
      rw [hw, hidle (hnone hp) (by simp [hop'])]
      exact ⟨rfl, rfl⟩
    | refused a e hp _ hw hop' =>
      rw [hw, hidle (hnone (by rw [hp]; rfl)) (by simp [hop'])]
      exact ⟨rfl, rfl⟩
    | failed a e x hp henter hpost hop' =>
      obtain ⟨mem, rfl⟩ := ConnOp.enter_ok henter
      rw [ConnOp.post_error hpost, hidle (hnone (by rw [hp]; rfl)) (by simp [hop'])]
      exact ⟨rfl, rfl⟩
    | posted a x hp henter hpost hop' =>
      obtain ⟨mem, rfl⟩ := ConnOp.enter_ok henter
      rw [hidle (hnone (by rw [hp]; rfl)) (by simp [hop'])]
      rcases ConnOp.post_ok hpost with ⟨req, -, hx⟩ | ⟨-, hx⟩
      · rw [hx]
        exact ⟨rfl, rfl⟩
      · rw [hx]
        exact ⟨rfl, rfl⟩
    | ended a hp hw hop' =>
      have hsch : s.op h = some (a, .kScheduled) := by
        rw [op_of_coros hc, Coro.op_eq_some]
        exact ⟨hp, (t.of_mem_queued hc (by simp [queued, hq])).1⟩
      have hins : s.pending = insert h s'.pending := by
        ext i
        rw [Finset.mem_insert, k.mem_pending t, k'.mem_pending t']
        by_cases hi : i = h
        · simp [hi, hsch]
        · simp only [hi, false_or, hkept i (hop i hi)]
      have hnot : h ∉ s'.pending := by
        rw [k'.mem_pending t', hop']
        simp
      rw [hw, hins, Finset.card_insert_of_notMem hnot,
        show efaWorld.resume a h s.world = a.resume h s.world from rfl, (ConnOp.resume_snd a h _).1]
      refine ⟨rfl, ?_⟩
      simp only [List.length_append, List.length_singleton]
      omega
  | round events due hhead hpoll hr hl _ hop =>
    -- this step is no `Select`, so it is a move of the world that changes nothing else
    cases hs with
    | exec now hs => simp [Loop.exec, hhead.1] at hs
    | resume _ hs => simp [Loop.resume, hhead.2] at hs
    | round hs => exact absurd hs hn
    | env henv => exact hmoved _ henv rfl
  | env henv hs' => exact hmoved _ henv hs'

end EfaExamples
