import EfaExamples.Coro.Rows
/-!
# Frames and the stack

What holds of every program, well behaved or not: a frame owns only
coroutines younger than its own, the library's coroutines own none, and the
executing coroutines exist and stand on the stack youngest first. So what a
body destroys is never executing.
-/

namespace EfaExamples

open Loop

variable {Loc G A X V : Type} {w : World A X V} {code : Loc → Op Loc G A V}
variable {s s' s₁ : Loop Loc G A X V} {h d i : ℕ} {c : Coro Loc A V}
variable {f : Coro Loc A V → Coro Loc A V}

/-- The coroutine's body is one of the library's, from its beginning to its end. -/
def Point.isLeaf : Point Loc A V → Bool
  | initialIo _ | sleep | io _ => true
  | _ => false

/-- **Frames and the stack.** -/
structure Frames (s : Loop Loc G A X V) : Prop where
  fresh : ∀ i c, s.coros i = some c → i < s.seq
  locals : ∀ i c, s.coros i = some c → ∀ d ∈ c.locals, i < d
  leaf : ∀ i c, s.coros i = some c → c.point.isLeaf = true → c.locals = []
  executing : ∀ i ∈ s.running, ∃ c, s.coros i = some c ∧ c.point.isRunning = true
  sorted : s.running.Pairwise (· > ·)

namespace Frames

/-! ## Destruction -/

/-- The destruction of a coroutine spares the older ones. -/
theorem destroy_coros_of_lt (n : ℕ) : ∀ (h : ℕ) (s : Loop Loc G A X V),
    (∀ i c, s.coros i = some c → ∀ d ∈ c.locals, i < d) →
    ∀ i < h, (s.destroy n h).coros i = s.coros i := by
  induction n with
  | zero =>
    intro h s _ i hi
    rw [destroy, cancel_eq]
    exact if_neg (Nat.ne_of_lt hi)
  | succ n ih =>
    intro h s hl i hi
    rw [destroy]
    cases hc : s.coros h with
    | none => rfl
    | some c =>
      simp only [cancel_eq]
      -- the coroutines it owns are younger still
      have hfold : ∀ (ds : List ℕ) (s₁ : Loop Loc G A X V), (∀ d ∈ ds, i < d) →
          (∀ j c, s₁.coros j = some c → ∀ d ∈ c.locals, j < d) →
          (ds.foldl (fun s d => destroy n d s) s₁).coros i = s₁.coros i := by
        intro ds
        induction ds with
        | nil => exact fun _ _ _ => rfl
        | cons d ds ihd =>
          intro s₁ hds hl₁
          rw [List.foldl_cons, ihd _ (fun e he => hds e (List.mem_cons_of_mem _ he)) ?_]
          · exact ih d s₁ hl₁ i (hds d List.mem_cons_self)
          · exact fun j c hc => hl₁ j c ((erased_destroy n d s₁).coros_eq hc)
      rw [hfold c.locals _ ?_ ?_]
      · exact if_neg (Nat.ne_of_lt hi)
      · exact fun d hd => lt_trans hi (hl h c hc d hd)
      · exact fun j c hc => hl j c ((Erased.erase s h).coros_eq hc)

/-- A frame's locals going out of scope spares whoever is older than all of them. -/
theorem destroyLocals_coros_of_lt {ds : List ℕ}
    (hl : ∀ i c, s.coros i = some c → ∀ d ∈ c.locals, i < d) (hi : ∀ d ∈ ds, i < d) :
    (s.destroyLocals ds).coros i = s.coros i := by
  unfold destroyLocals
  generalize s.seq = n
  induction ds generalizing s with
  | nil => rfl
  | cons d ds ih =>
    rw [List.foldl_cons, ih (fun j c hc => hl j c ((erased_destroy n d s).coros_eq hc))
      fun e he => hi e (List.mem_cons_of_mem _ he)]
    exact destroy_coros_of_lt n d s hl i (hi d List.mem_cons_self)

/-! ## The changes a step is made of -/

/-- Only the coroutines, `seq_` and the stack matter. -/
theorem of_fields (s' : Loop Loc G A X V) (fr : Frames s) (hseq : s'.seq = s.seq)
    (hcoros : s'.coros = s.coros) (hrunning : s'.running = s.running) : Frames s' where
  fresh := by rw [hseq, hcoros]; exact fr.fresh
  locals := by rw [hcoros]; exact fr.locals
  leaf := by rw [hcoros]; exact fr.leaf
  executing := by rw [hrunning, hcoros]; exact fr.executing
  sorted := by rw [hrunning]; exact fr.sorted

/-- One coroutine is written to. -/
theorem modify (fr : Frames s) (hlocals : ∀ c, s.coros h = some c → ∀ d ∈ (f c).locals, h < d)
    (hleaf : ∀ c, s.coros h = some c → (f c).point.isLeaf = true → (f c).locals = [])
    (hrun : h ∈ s.running → ∀ c, s.coros h = some c → (f c).point = c.point) :
    Frames (s.modify h f) where
  fresh i c hc := by
    rcases modify_coros_eq_some.mp hc with ⟨rfl, c₀, hc₀, -⟩ | ⟨-, hc⟩
    · exact fr.fresh i c₀ hc₀
    · exact fr.fresh i c hc
  locals i c hc := by
    rcases modify_coros_eq_some.mp hc with ⟨rfl, c₀, hc₀, rfl⟩ | ⟨-, hc⟩
    · exact hlocals c₀ hc₀
    · exact fr.locals i c hc
  leaf i c hc := by
    rcases modify_coros_eq_some.mp hc with ⟨rfl, c₀, hc₀, rfl⟩ | ⟨-, hc⟩
    · exact hleaf c₀ hc₀
    · exact fr.leaf i c hc
  executing i hi := by
    obtain ⟨c, hc, hr⟩ := fr.executing i hi
    by_cases hh : i = h
    · subst hh
      exact ⟨f c, by rw [modify_coros_self, hc]; rfl, by rw [hrun hi c hc]; exact hr⟩
    · exact ⟨c, by rw [modify_coros_of_ne hh]; exact hc, hr⟩
  sorted := fr.sorted

/-- A write that leaves locals and point. -/
theorem modify_of_same (fr : Frames s) (hl : ∀ c, (f c).locals = c.locals)
    (hp : ∀ c, (f c).point = c.point) : Frames (s.modify h f) :=
  fr.modify (fun c hc => by rw [hl]; exact fr.locals h c hc)
    (fun c hc => by rw [hl, hp]; exact fr.leaf h c hc) fun _ c _ => hp c

theorem call (fr : Frames s) : Frames (s.call h) :=
  (fr.modify_of_same (h := h) (f := fun c => { c with state := .kScheduled }) (fun _ => rfl)
    fun _ => rfl).of_fields _ rfl rfl rfl

theorem schedule (fr : Frames s) : Frames (Handle.schedule h s) := by
  unfold Handle.schedule
  split
  · split
    · exact fr.call
    · exact fr
  · exact fr

/-- Coroutines are erased, the executing ones not among them. -/
theorem erased (fr : Frames s) (he : Erased s s')
    (hrun : ∀ i ∈ s.running, s'.coros i = s.coros i) : Frames s' where
  fresh i c hc := by rw [he.seq]; exact fr.fresh i c (he.coros_eq hc)
  locals i c hc := fr.locals i c (he.coros_eq hc)
  leaf i c hc := fr.leaf i c (he.coros_eq hc)
  executing i hi := by
    have hi : i ∈ s.running := by
      unfold Loop.running at hi ⊢
      rw [← he.stack]
      exact hi
    rw [hrun i hi]
    exact fr.executing i hi
  sorted := by
    unfold Loop.running
    rw [he.stack]
    exact fr.sorted

/-- The innermost body leaves the stack. -/
theorem pop {me : ℕ} {l : Loc} {rest : List (ℕ × Loc)} (fr : Frames s)
    (hstack : s.stack = (me, l) :: rest) : Frames { s with stack := rest } where
  fresh := fr.fresh
  locals := fr.locals
  leaf := fr.leaf
  executing i hi := fr.executing i (by
    simp only [running, hstack, List.map_cons]
    exact List.mem_cons_of_mem _ hi)
  sorted := by
    have hs := fr.sorted
    simp only [running, hstack, List.map_cons] at hs
    exact hs.of_cons

/-- Whoever is below the innermost body on the stack is older. -/
theorem lt_of_mem_rest {me : ℕ} {l : Loc} {rest : List (ℕ × Loc)} (fr : Frames s)
    (hstack : s.stack = (me, l) :: rest) (hi : i ∈ rest.map Prod.fst) : i < me := by
  have hs := fr.sorted
  simp only [running, hstack, List.map_cons, List.pairwise_cons] at hs
  exact hs.1 i hi

/-- The innermost body may be at another location. -/
theorem goto {me : ℕ} {l : Loc} {rest : List (ℕ × Loc)} (fr : Frames s)
    (hstack : s.stack = (me, l) :: rest) (l' : Loc) : Frames { s with stack := (me, l') :: rest } :=
  fr.of_fields _ rfl rfl (by simp [running, hstack])

/-- A coroutine is made, and perhaps executes at once. -/
theorem spawn (fr : Frames s) (hl : c.locals = []) (hseq : s'.seq = s.seq + 1)
    (hcoros : ∀ i, s'.coros i = if i = s.seq then some c else s.coros i)
    (hrunning : s'.running = (if c.point.isRunning then [s.seq] else []) ++ s.running) :
    Frames s' where
  fresh i ci hci := by
    rw [hcoros] at hci
    rw [hseq]
    split at hci
    · omega
    · exact Nat.lt_succ_of_lt (fr.fresh i ci hci)
  locals i ci hci := by
    rw [hcoros] at hci
    split at hci
    · cases hci
      rw [hl]
      exact fun d hd => by cases hd
    · exact fr.locals i ci hci
  leaf i ci hci := by
    rw [hcoros] at hci
    split at hci
    · cases hci
      exact fun _ => hl
    · exact fr.leaf i ci hci
  executing i hi := by
    rw [hrunning] at hi
    rcases List.mem_append.mp hi with hi | hi
    · split at hi
      · rename_i hr
        rw [List.mem_singleton.mp hi]
        exact ⟨c, by rw [hcoros, if_pos rfl], hr⟩
      · cases hi
    · obtain ⟨ci, hci, hr⟩ := fr.executing i hi
      exact ⟨ci, by rw [hcoros, if_neg (Nat.ne_of_lt (fr.fresh i ci hci))]; exact hci, hr⟩
  sorted := by
    rw [hrunning]
    refine List.pairwise_append.mpr ⟨by split <;> simp, fr.sorted, fun a ha b hb => ?_⟩
    obtain ⟨cb, hcb, -⟩ := fr.executing b hb
    have := fr.fresh b cb hcb
    split at ha
    · rw [List.mem_singleton.mp ha]
      exact this
    · cases ha

theorem callAll : ∀ {events : List ℕ} {s : Loop Loc G A X V}, Frames s →
    s.callAll events = some s' → Frames s' := by
  intro events
  induction events with
  | nil =>
    intro s fr hs
    rw [Loop.callAll, Option.some.injEq] at hs
    rw [← hs]
    exact fr
  | cons e events ih =>
    intro s fr hs
    rw [Loop.callAll] at hs
    split at hs
    · exact ih fr.call hs
    · cases hs

/-- `await_suspend` of a body that has left the stack. -/
theorem awaitSuspend {me : ℕ} {k : Outcome V → Loc} (fr : Frames s) (hnot : me ∉ s.running) :
    Frames (s.awaitSuspend me d k) := by
  have fr₁ : Frames (s.setState .kSuspend me) := fr.modify_of_same (fun _ => rfl) fun _ => rfl
  have fr₂ : Frames ((s.setState .kSuspend me).setPoint (.await d k) me) :=
    fr₁.modify (fun c hc => fr₁.locals me c hc) (fun _ _ hlf => by cases hlf)
      fun hm => absurd hm hnot
  exact (fr₂.modify_of_same (h := d) (f := fun c => { c with next := some me }) (fun _ => rfl)
    fun _ => rfl).schedule

/-- The end of a body that is not on the stack, whose locals are younger than
whatever executes. -/
theorem finish {o : Outcome V} (fr : Frames s) (hf : s.finish h o = some s')
    (hyoung : ∀ i ∈ s.running, i < h) : Frames s' := by
  unfold Loop.finish at hf
  cases hc : s.coros h with
  | none => simp [hc] at hf
  | some c =>
    simp only [hc] at hf
    have fr₁ : Frames (s.destroyLocals c.locals) :=
      fr.erased (erased_destroyLocals _ _) fun i hi =>
        destroyLocals_coros_of_lt fr.locals fun d hd =>
          lt_trans (hyoung i hi) (fr.locals h c hc d hd)
    have hrun₁ : (s.destroyLocals c.locals).running = s.running := by
      unfold Loop.running
      rw [(erased_destroyLocals c.locals s).stack]
    have fr₂ := fr₁.modify (h := h)
      (f := fun c => { c with point := .final, result := some o, locals := [] })
      (fun _ _ d hd => by cases hd) (fun _ _ _ => rfl) (fun hm => by
        rw [hrun₁] at hm
        exact absurd (hyoung h hm) (lt_irrefl h))
    unfold finalSuspend at hf
    split at hf
    · cases hf
    · split at hf
      · cases hf
        exact fr₂
      · split at hf
        · cases hf
          exact fr₂.call
        · cases hf

end Frames

end EfaExamples
