import EfaExamples.Coro.Model.Plain
/-!
# What the loop's operations change

The field lemmas of the operations of `Model/Loop.lean`, and what the
destruction of a frame does: it erases some coroutines and touches nothing
else, since `IO::Cancel` does nothing. `Erased` says so, and is all later
files know of `Coro::Destroy`.
-/

namespace EfaExamples

namespace Loop

variable {Loc G A X V : Type} {s s' s₁ s₂ : Loop Loc G A X V}
variable {h d i : ℕ} {f : Coro Loc A V → Coro Loc A V}

attribute [simp] setState setPoint addLocal dropLocal

/-! ## Fields -/

@[simp] theorem modify_seq : (s.modify h f).seq = s.seq := rfl
@[simp] theorem modify_ready : (s.modify h f).ready = s.ready := rfl
@[simp] theorem modify_schedule : (s.modify h f).schedule = s.schedule := rfl
@[simp] theorem modify_left : (s.modify h f).left = s.left := rfl
@[simp] theorem modify_stack : (s.modify h f).stack = s.stack := rfl
@[simp] theorem modify_mem : (s.modify h f).mem = s.mem := rfl
@[simp] theorem modify_world : (s.modify h f).world = s.world := rfl

theorem modify_coros : (s.modify h f).coros i = if i = h then (s.coros i).map f else s.coros i :=
  rfl

@[simp] theorem modify_coros_self : (s.modify h f).coros h = (s.coros h).map f := if_pos rfl

theorem modify_coros_of_ne (hne : i ≠ h) : (s.modify h f).coros i = s.coros i := if_neg hne

@[simp] theorem call_seq : (s.call h).seq = s.seq := rfl
@[simp] theorem call_ready : (s.call h).ready = s.ready ++ [h] := rfl
@[simp] theorem call_schedule : (s.call h).schedule = s.schedule := rfl
@[simp] theorem call_left : (s.call h).left = s.left := rfl
@[simp] theorem call_stack : (s.call h).stack = s.stack := rfl
@[simp] theorem call_mem : (s.call h).mem = s.mem := rfl
@[simp] theorem call_world : (s.call h).world = s.world := rfl

theorem call_coros : (s.call h).coros = (s.setState .kScheduled h).coros := rfl

@[simp] theorem spawn_seq {c : Coro Loc A V} : (s.spawn c).seq = s.seq + 1 := rfl
@[simp] theorem spawn_ready {c : Coro Loc A V} : (s.spawn c).ready = s.ready := rfl
@[simp] theorem spawn_schedule {c : Coro Loc A V} : (s.spawn c).schedule = s.schedule := rfl
@[simp] theorem spawn_stack {c : Coro Loc A V} : (s.spawn c).stack = s.stack := rfl

theorem spawn_coros {c : Coro Loc A V} :
    (s.spawn c).coros i = if i = s.seq then some c else s.coros i := rfl

/-! ## The coroutine under a handle after a write -/

/-- A coroutine after a write was there before it. -/
theorem modify_coros_eq_some {c : Coro Loc A V} :
    (s.modify h f).coros i = some c ↔
      i = h ∧ (∃ c₀, s.coros h = some c₀ ∧ f c₀ = c) ∨ i ≠ h ∧ s.coros i = some c := by
  rw [modify_coros]
  split
  · rename_i hi
    subst hi
    simp
  · rename_i hi
    simp [hi]

@[simp] theorem modify_coros_eq_none : (s.modify h f).coros i = none ↔ s.coros i = none := by
  rw [modify_coros]
  split <;> simp

@[simp] theorem modify_coros_isSome :
    ((s.modify h f).coros i).isSome = (s.coros i).isSome := by
  rw [modify_coros]
  split <;> simp

/-- A write is determined by what it makes of the coroutine that is there. -/
theorem modify_congr {f' : Coro Loc A V → Coro Loc A V} {c : Coro Loc A V}
    (hc : s.coros h = some c) (hf : f c = f' c) : s.modify h f = s.modify h f' := by
  unfold modify
  congr 1
  funext i
  split
  · rename_i hi
    rw [hi, hc, Option.map_some, Option.map_some, hf]
  · rfl

/-- A write acts on the coroutines alone. -/
theorem modify_coros_congr (hcoros : s.coros = s'.coros) :
    (s.modify h f).coros = (s'.modify h f).coros := by
  unfold modify
  rw [hcoros]

theorem modify_modify {g : Coro Loc A V → Coro Loc A V} :
    (s.modify h f).modify h g = s.modify h (g ∘ f) := by
  unfold modify
  simp only
  congr 1
  funext i
  split
  · rw [Option.map_map]
  · rfl

/-! ## The queues -/

@[simp] theorem modify_queued : (s.modify h f).queued = s.queued := rfl

@[simp] theorem spawn_queued {c : Coro Loc A V} : (s.spawn c).queued = s.queued := rfl

theorem count_queued_call :
    (s.call h).queued.count i = s.queued.count i + if i = h then 1 else 0 := by
  simp only [queued, call_ready, call_schedule, List.count_append, List.count_singleton]
  by_cases hi : i = h
  · simp [hi]; omega
  · simp [hi, Ne.symm hi]

/-- `Sleep`'s coroutine is made and put into `schedule_` at once. -/
theorem spawn_callAfter_coros {now : ℤ} {delay : Duration} {c : Coro Loc A V} :
    ((s.spawn c).callAfter now delay s.seq).coros =
      (s.spawn { c with state := .kScheduled }).coros := by
  funext i
  show ((s.spawn c).setState .kScheduled s.seq).coros i = _
  rw [setState, modify_coros, spawn_coros, spawn_coros]
  by_cases hi : i = s.seq
  · simp [hi]
  · simp [hi]

theorem runone_queued_perm {now : ℤ} : (s.runone now).queued.Perm s.queued :=
  Task.drain_perm _ _ _

/-! ## Destruction -/

/-- `s'` is `s` with some coroutines gone. -/
structure Erased (s s' : Loop Loc G A X V) : Prop where
  eq : s' = { s with coros := s'.coros }
  coros : ∀ i, s'.coros i = s.coros i ∨ s'.coros i = none

namespace Erased

theorem refl (s : Loop Loc G A X V) : Erased s s := ⟨rfl, fun _ => Or.inl rfl⟩

theorem trans (h₁ : Erased s s₁) (h₂ : Erased s₁ s₂) : Erased s s₂ where
  eq := by rw [h₂.eq, h₁.eq]
  coros i := by
    rcases h₂.coros i with h | h
    · rw [h]; exact h₁.coros i
    · exact Or.inr h

theorem erase (s : Loop Loc G A X V) (h : ℕ) : Erased s (s.erase h) where
  eq := rfl
  coros i := by
    by_cases hi : i = h
    · exact Or.inr (if_pos hi)
    · exact Or.inl (if_neg hi)

theorem seq (h : Erased s s') : s'.seq = s.seq := by rw [h.eq]
theorem ready (h : Erased s s') : s'.ready = s.ready := by rw [h.eq]
theorem schedule (h : Erased s s') : s'.schedule = s.schedule := by rw [h.eq]
theorem left (h : Erased s s') : s'.left = s.left := by rw [h.eq]
theorem stack (h : Erased s s') : s'.stack = s.stack := by rw [h.eq]
theorem mem (h : Erased s s') : s'.mem = s.mem := by rw [h.eq]
theorem world (h : Erased s s') : s'.world = s.world := by rw [h.eq]
theorem queued (h : Erased s s') : s'.queued = s.queued := by
  unfold Loop.queued; rw [h.ready, h.schedule]

/-- A coroutine that is left is the one that was there. -/
theorem coros_eq (h : Erased s s') {c : Coro Loc A V} (hc : s'.coros i = some c) :
    s.coros i = some c := by
  rcases h.coros i with he | he
  · rw [← he]; exact hc
  · rw [he] at hc; cases hc

end Erased

/-- `Handle::cancel` changes nothing, `IO::Cancel` having no body. -/
@[simp] theorem cancel_eq : Handle.cancel h s = s := by
  unfold Handle.cancel
  split
  · split <;> rfl
  · rfl

/-- **`Coro::Destroy` only erases.** -/
theorem erased_destroy (fuel : ℕ) : ∀ (h : ℕ) (s : Loop Loc G A X V),
    Erased s (s.destroy fuel h) := by
  induction fuel with
  | zero => intro h s; rw [destroy, cancel_eq]; exact Erased.erase s h
  | succ fuel ih =>
    intro h s
    rw [destroy]
    split
    · exact Erased.refl s
    · rename_i c _
      rw [cancel_eq]
      have hfold : ∀ (ds : List ℕ) (s₁ : Loop Loc G A X V),
          Erased s₁ (ds.foldl (fun s d => destroy fuel d s) s₁) := by
        intro ds
        induction ds with
        | nil => exact fun s₁ => Erased.refl s₁
        | cons d ds ihd => exact fun s₁ => (ih d s₁).trans (ihd _)
      exact (Erased.erase s h).trans (hfold c.locals _)

/-- A frame's locals going out of scope erases, and nothing else. -/
theorem erased_destroyLocals (ds : List ℕ) (s : Loop Loc G A X V) :
    Erased s (s.destroyLocals ds) := by
  unfold destroyLocals
  generalize s.seq = fuel
  induction ds generalizing s with
  | nil => exact Erased.refl s
  | cons d ds ih => exact (erased_destroy fuel d s).trans (ih _)

/-! ## The end of a body -/

/-- **What the end of a body does**: its locals go, it is final, and its
`next`, if it has one, is called. -/
theorem finish_cases {o : Outcome V} (hf : s.finish h o = some s') :
    ∃ c, s.coros h = some c ∧ ∃ s₁, Erased s s₁ ∧ s₁.coros h = some c ∧
      ((c.next = none ∧ s' = s₁.modify h fun c =>
          { c with point := .final, result := some o, locals := [] }) ∨
        ∃ p cp, c.next = some p ∧ s₁.coros p = some cp ∧
          s' = (s₁.modify h fun c =>
            { c with point := .final, result := some o, locals := [] }).call p) := by
  unfold finish at hf
  cases hc : s.coros h with
  | none => simp [hc] at hf
  | some c =>
    simp only [hc] at hf
    have he := erased_destroyLocals c.locals s
    refine ⟨c, rfl, s.destroyLocals c.locals, he, ?_⟩
    unfold finalSuspend at hf
    rcases he.coros h with h₁ | h₁
    · rw [hc] at h₁
      refine ⟨h₁, ?_⟩
      rw [modify_coros_self, h₁] at hf
      simp only [Option.map_some] at hf
      cases hn : c.next with
      | none =>
        simp only [hn, Option.some.injEq] at hf
        exact Or.inl ⟨rfl, hf.symm⟩
      | some p =>
        simp only [hn, modify_coros_isSome] at hf
        split at hf
        · rename_i hp
          obtain ⟨cp, hcp⟩ := Option.isSome_iff_exists.mp hp
          simp only [Option.some.injEq] at hf
          exact Or.inr ⟨p, cp, rfl, hcp, hf.symm⟩
        · cases hf
    · simp [h₁] at hf

/-! ## Frames without locals -/

/-- The destruction of a coroutine that holds no other. -/
theorem destroy_of_locals_nil {n : ℕ} {c : Coro Loc A V} (hc : s.coros h = some c)
    (hl : c.locals = []) : s.destroy n h = s.erase h := by
  cases n with
  | zero => rw [destroy, cancel_eq]
  | succ n =>
    rw [destroy]
    simp only [hc, hl, cancel_eq, List.foldl_nil]

/-- The end of a body that holds no other coroutine destroys nothing. -/
theorem finish_isSome {o : Outcome V} (hf : s.finish h o = some s')
    (hl : ∀ c, s.coros h = some c → c.locals = []) : (s'.coros i).isSome = (s.coros i).isSome := by
  unfold finish at hf
  cases hc : s.coros h with
  | none => simp [hc] at hf
  | some c =>
    simp only [hc, hl c hc, destroyLocals, List.foldl_nil, finalSuspend, modify_coros_self,
      Option.map_some] at hf
    split at hf
    · cases hf
      rw [modify_coros_isSome]
    · split at hf
      · cases hf
        rw [call_coros, setState, modify_coros_isSome, modify_coros_isSome]
      · cases hf

/-! ## The start -/

/-- The loop that `Run` starts: the root is in `ready_`, and there is nothing else. -/
theorem boot_eq (isVoid : Bool) (l : Loc) (g : G) (x : X) :
    (boot isVoid l g x : Loop Loc G A X V) =
      { seq := 1
        coros := fun i => if i = 0 then
          some { Coro.new (.initial l) isVoid none with state := .kScheduled } else none
        ready := [0]
        schedule := []
        left := 0
        stack := []
        mem := g
        world := x } := by
  rw [boot, Handle.schedule]
  simp only [if_true, Coro.new, call, setState, modify, List.nil_append]
  congr 1
  funext i
  split <;> rfl

@[simp] theorem boot_world (isVoid : Bool) (l : Loc) (g : G) (x : X) :
    (boot isVoid l g x : Loop Loc G A X V).world = x := by
  rw [boot_eq]

end Loop

end EfaExamples
