import EfaExamples.Coro.Loop
/-!
# The scheduler's table

Every coroutine has a row: its suspension point, its `Handle::state_`, and
how often it occurs in `ready_` and `schedule_` taken together. `RowOk` lists
the rows the loop allows, and `Table` says that all rows are allowed and how
they hang together through `next`, the stack and the timers. `Table.step`
is the step lemma: one step keeps the table, provided that it calls no
executing coroutine, that what it destroys is referenced by nothing, and
that the events of a `Select` are distinct coroutines still waiting for one.

The steps pass through states where one coroutine is between two suspension
points, out of `ready_` and not yet suspended again. The table leaves that
coroutine's row open: it is the `e` of `Table e s`.
-/

namespace EfaExamples

open Loop

variable {Loc G A X V : Type}

/-- **The rows the loop allows.** `ended d` says that coroutine `d` has ended. -/
def RowOk (ended : ℕ → Prop) : Point Loc A V → HandleState → ℕ → Prop
  | .initial _, st, n | .initialIo _, st, n =>
    st = .kUnschedule ∧ n = 0 ∨ st = .kScheduled ∧ n = 1
  | .running, st, n => st = .kUnschedule ∧ n = 0
  | .await d _, st, n => st = .kSuspend ∧ n = 0 ∨ st = .kScheduled ∧ n = 1 ∧ ended d
  | .sleep, st, n => st = .kScheduled ∧ n = 1
  | .io _, st, n => st = .kSuspend ∧ n = 0 ∨ st = .kScheduled ∧ n = 1
  | .final, st, n => st ≠ .kScheduled ∧ n = 0

namespace RowOk

variable {ended ended' : ℕ → Prop} {p : Point Loc A V} {st : HandleState} {n : ℕ}

theorem mono (h : RowOk ended p st n) (hover : ∀ d, p.awaited = some d → ended d → ended' d) :
    RowOk ended' p st n := by
  cases p with
  | await d k => exact h.imp id fun ⟨hs, hn, ho⟩ => ⟨hs, hn, hover d rfl ho⟩
  | _ => exact h

/-- A handle is kScheduled exactly if it is queued, and queued at most once. -/
theorem scheduled_iff (h : RowOk ended p st n) : st = .kScheduled ↔ n = 1 := by
  cases p <;> grind [RowOk]

theorem le_one (h : RowOk ended p st n) : n ≤ 1 := by
  cases p <;> simp only [RowOk] at h <;> omega

theorem count_eq_zero (h : RowOk ended p st n) (hst : st ≠ .kScheduled) : n = 0 := by
  have := h.scheduled_iff
  have := h.le_one
  by_contra hn
  exact hst (h.scheduled_iff.mpr (by omega))

/-- A coroutine that has ended or is executing is not queued. -/
theorem count_eq_zero_of_point (h : RowOk ended p st n)
    (hp : p.isFinal = true ∨ p.isRunning = true) : n = 0 := by
  cases p with
  | running | final => exact h.2
  | _ => simp [Point.isFinal, Point.isRunning] at hp

/-- A coroutine that has not begun is not suspended. -/
theorem state_of_isInitial (h : RowOk ended p st n) (hp : p.isInitial = true) :
    st = .kUnschedule ∨ st = .kScheduled := by
  cases p with
  | initial l | initialIo a => exact h.imp And.left And.left
  | _ => cases hp

end RowOk

namespace Loop

/-- Coroutine `d` was made and has ended. It may be gone since. -/
def Over (s : Loop Loc G A X V) (d : ℕ) : Prop :=
  d < s.seq ∧ ∀ c, s.coros d = some c → c.point.isFinal = true

/-- The coroutines executing. -/
def running (s : Loop Loc G A X V) : List ℕ := s.stack.map Prod.fst

end Loop

/-- **The table.** -/
structure Table (e : Option ℕ) (s : Loop Loc G A X V) : Prop where
  row : ∀ h c, s.coros h = some c → e ≠ some h →
    RowOk s.Over c.point c.state (s.queued.count h)
  between : ∀ h, e = some h → ∃ c, s.coros h = some c ∧ c.state ≠ .kScheduled ∧
    c.point.isFinal = false ∧ s.queued.count h = 0 ∧ h ∉ s.running
  gone : ∀ h, s.coros h = none → s.queued.count h = 0
  fresh : ∀ h c, s.coros h = some c → h < s.seq
  onStack : ∀ h, e ≠ some h →
    (h ∈ s.running ↔ ∃ c, s.coros h = some c ∧ c.point.isRunning = true)
  sorted : s.running.Pairwise (· > ·)
  next : ∀ h c p, s.coros h = some c → c.point.isFinal = false → c.next = some p →
    ∃ cp, s.coros p = some cp ∧ cp.point.awaited = some h ∧ cp.state = .kSuspend
  timer : ∀ t ∈ s.schedule, ∃ c, s.coros t.handle = some c ∧ c.point.isSleep = true
  creator : ∀ h c p, s.coros h = some c → c.creator = some p → p < h
  locals : ∀ h c d, s.coros h = some c → d ∈ c.locals → h < d ∧ d < s.seq

namespace Table

variable {e : Option ℕ} {s s' : Loop Loc G A X V} {h d : ℕ} {c : Coro Loc A V}

/-- A coroutine with a `next` that still has to end has its `next` suspended, so
queued nowhere. -/
theorem next_ne_of_state (t : Table e s) (hc : s.coros h = some c) (hst : c.state ≠ .kSuspend)
    {i : ℕ} {ci : Coro Loc A V} (hi : s.coros i = some ci)
    (hf : ci.point.isFinal = false) : ci.next ≠ some h := by
  intro hn
  obtain ⟨cp, hcp, -, hsus⟩ := t.next i ci h hi hf hn
  rw [hc] at hcp
  cases hcp
  exact hst hsus

/-! ## Steps that change no row -/

/-- `s'` has the rows of `s`: the same coroutines at the same points, the same
queues and the same stack of handles. Frames may own other coroutines. -/
structure SameRows (s s' : Loop Loc G A X V) : Prop where
  seq : s'.seq = s.seq
  queued : s'.queued.Perm s.queued
  schedule : ∀ t ∈ s'.schedule, t ∈ s.schedule
  running : s'.running = s.running
  coros : ∀ i c', s'.coros i = some c' → ∃ c, s.coros i = some c ∧ c'.point = c.point ∧
    c'.state = c.state ∧ c'.next = c.next ∧ c'.creator = c.creator ∧
    ∀ d ∈ c'.locals, d ∈ c.locals ∨ i < d ∧ d < s.seq
  gone : ∀ i, s'.coros i = none → s.coros i = none

theorem of_sameRows (t : Table e s) (hs : SameRows s s') : Table e s' where
  row h c' hc' he := by
    obtain ⟨c, hc, hp, hst, -, -, -⟩ := hs.coros h c' hc'
    rw [hp, hst, hs.queued.count_eq]
    refine (t.row h c hc he).mono fun d _ ho => ⟨by rw [hs.seq]; exact ho.1, fun cd hcd => ?_⟩
    obtain ⟨cd', hcd', hpd, -⟩ := hs.coros d cd hcd
    rw [hpd]
    exact ho.2 cd' hcd'
  between h he := by
    obtain ⟨c, hc, hst, hf, hn, hr⟩ := t.between h he
    cases hc' : s'.coros h with
    | none => rw [hs.gone h hc'] at hc; cases hc
    | some c' =>
      obtain ⟨c₁, hc₁, hp, hst', -⟩ := hs.coros h c' hc'
      rw [hc] at hc₁
      cases hc₁
      exact ⟨c', rfl, by rw [hst']; exact hst, by rw [hp]; exact hf,
        by rw [hs.queued.count_eq]; exact hn, by rw [hs.running]; exact hr⟩
  gone h hc := by rw [hs.queued.count_eq]; exact t.gone h (hs.gone h hc)
  fresh h c' hc' := by
    obtain ⟨c, hc, -⟩ := hs.coros h c' hc'
    rw [hs.seq]
    exact t.fresh h c hc
  onStack h he := by
    rw [hs.running, t.onStack h he]
    constructor
    · rintro ⟨c, hc, hr⟩
      cases hc' : s'.coros h with
      | none => rw [hs.gone h hc'] at hc; cases hc
      | some c' =>
        obtain ⟨c₁, hc₁, hp, -⟩ := hs.coros h c' hc'
        rw [hc] at hc₁
        cases hc₁
        exact ⟨c', rfl, by rw [hp]; exact hr⟩
    · rintro ⟨c', hc', hr⟩
      obtain ⟨c, hc, hp, -⟩ := hs.coros h c' hc'
      exact ⟨c, hc, by rw [← hp]; exact hr⟩
  sorted := by rw [hs.running]; exact t.sorted
  next h c' p hc' hf hn := by
    obtain ⟨c, hc, hp, -, hnext, -⟩ := hs.coros h c' hc'
    obtain ⟨cp, hcp, haw, hsus⟩ := t.next h c p hc (by rw [← hp]; exact hf) (by rw [← hnext]; exact hn)
    cases hcp' : s'.coros p with
    | none => rw [hs.gone p hcp'] at hcp; cases hcp
    | some cp' =>
      obtain ⟨c₁, hc₁, hp', hst', -⟩ := hs.coros p cp' hcp'
      rw [hcp] at hc₁
      cases hc₁
      exact ⟨cp', rfl, by rw [hp']; exact haw, by rw [hst']; exact hsus⟩
  timer tk htk := by
    obtain ⟨c, hc, hsl⟩ := t.timer tk (hs.schedule tk htk)
    cases hc' : s'.coros tk.handle with
    | none => rw [hs.gone _ hc'] at hc; cases hc
    | some c' =>
      obtain ⟨c₁, hc₁, hp, -⟩ := hs.coros _ c' hc'
      rw [hc] at hc₁
      cases hc₁
      exact ⟨c', rfl, by rw [hp]; exact hsl⟩
  creator h c' p hc' hcr := by
    obtain ⟨c, hc, -, -, -, hcr', -⟩ := hs.coros h c' hc'
    exact t.creator h c p hc (by rw [← hcr']; exact hcr)
  locals h c' d hc' hd := by
    obtain ⟨c, hc, -, -, -, -, hl⟩ := hs.coros h c' hc'
    rw [hs.seq]
    rcases hl d hd with hd | hd
    · exact t.locals h c d hc hd
    · exact hd

/-! ## Destruction -/

/-- **What may be destroyed.** Every coroutine gone in `s'` was queued
nowhere, is not executing, and is the `next` of no coroutine that is left and
still has to end. -/
def Clean (s s' : Loop Loc G A X V) : Prop :=
  ∀ h, (s.coros h).isSome → s'.coros h = none →
    s.queued.count h = 0 ∧ h ∉ s.running ∧
      ∀ i c, s.coros i = some c → (s'.coros i).isSome → c.point.isFinal = false →
        c.next ≠ some h

theorem of_erased (t : Table e s) (he : Erased s s') (hclean : Clean s s')
    (hbet : ∀ h, e = some h → (s'.coros h).isSome) : Table e s' where
  row h c hc hne := by
    rw [he.queued]
    refine (t.row h c (he.coros_eq hc) hne).mono fun d _ ho => ⟨by rw [he.seq]; exact ho.1, ?_⟩
    exact fun cd hcd => ho.2 cd (he.coros_eq hcd)
  between h hh := by
    obtain ⟨c, hc, hst, hf, hn, hr⟩ := t.between h hh
    obtain ⟨c', hc'⟩ := Option.isSome_iff_exists.mp (hbet h hh)
    have := he.coros_eq hc'
    rw [hc] at this
    cases this
    refine ⟨c, hc', hst, hf, by rw [he.queued]; exact hn, ?_⟩
    unfold Loop.running
    rw [he.stack]
    exact hr
  gone h hc := by
    rw [he.queued]
    cases hc₀ : s.coros h with
    | none => exact t.gone h hc₀
    | some c => exact (hclean h (by simp [hc₀]) hc).1
  fresh h c hc := by rw [he.seq]; exact t.fresh h c (he.coros_eq hc)
  onStack h hne := by
    have hr : s'.running = s.running := by unfold Loop.running; rw [he.stack]
    rw [hr, t.onStack h hne]
    constructor
    · rintro ⟨c, hc, hrun⟩
      rcases he.coros h with h₁ | h₁
      · exact ⟨c, by rw [h₁]; exact hc, hrun⟩
      · exact absurd ((t.onStack h hne).mpr ⟨c, hc, hrun⟩) (hclean h (by simp [hc]) h₁).2.1
    · rintro ⟨c, hc, hrun⟩
      exact ⟨c, he.coros_eq hc, hrun⟩
  sorted := by unfold Loop.running; rw [he.stack]; exact t.sorted
  next h c p hc hf hn := by
    obtain ⟨cp, hcp, haw, hsus⟩ := t.next h c p (he.coros_eq hc) hf hn
    rcases he.coros p with h₁ | h₁
    · exact ⟨cp, by rw [h₁]; exact hcp, haw, hsus⟩
    · exact absurd hn ((hclean p (by simp [hcp]) h₁).2.2 h c (he.coros_eq hc) (by simp [hc]) hf)
  timer tk htk := by
    rw [he.schedule] at htk
    obtain ⟨c, hc, hsl⟩ := t.timer tk htk
    rcases he.coros tk.handle with h₁ | h₁
    · exact ⟨c, by rw [h₁]; exact hc, hsl⟩
    · have hzero := (hclean tk.handle (by simp [hc]) h₁).1
      have hmem : tk.handle ∈ s.queued :=
        List.mem_append_right _ (List.mem_map_of_mem htk)
      exact absurd hmem (List.count_eq_zero.mp hzero)
  creator h c p hc hcr := t.creator h c p (he.coros_eq hc) hcr
  locals h c d hc hd := by rw [he.seq]; exact t.locals h c d (he.coros_eq hc) hd

/-! ## New coroutines -/

/-- A new coroutine, whose handle is the next id, with a row the loop allows. -/
theorem of_spawn (t : Table none s) {me : ℕ} {n : ℕ} (hme : me < s.seq)
    (hseq : s'.seq = s.seq + 1)
    (hcoros : ∀ i, s'.coros i = if i = s.seq then some c else s.coros i)
    (hqueued : ∀ i, s'.queued.count i = s.queued.count i + if i = s.seq then n else 0)
    (hschedule : ∀ tk ∈ s'.schedule, tk ∈ s.schedule ∨
      tk.handle = s.seq ∧ c.point.isSleep = true)
    (hrunning : s'.running = (if c.point.isRunning then [s.seq] else []) ++ s.running)
    (hrow : RowOk s.Over c.point c.state n) (hnext : c.next = none)
    (hcreator : c.creator = some me) (hlocals : c.locals = [])
    (hawait : c.point.awaited = none) : Table none s' where
  row h ch hch _ := by
    rw [hcoros] at hch
    rw [hqueued]
    split at hch
    · rename_i hh
      subst hh
      cases hch
      have hzero : s.queued.count s.seq = 0 := t.gone _ (by
        cases hs : s.coros s.seq with
        | none => rfl
        | some c => exact absurd (t.fresh _ c hs) (lt_irrefl _))
      simp only [hzero, if_true, Nat.zero_add]
      exact hrow.mono fun d hd => by rw [hawait] at hd; cases hd
    · rename_i hh
      simp only [hh, if_false, Nat.add_zero]
      refine (t.row h ch hch (by simp)).mono fun d _ ho => ⟨by rw [hseq]; exact Nat.lt_succ_of_lt ho.1, ?_⟩
      intro cd hcd
      rw [hcoros, if_neg (Nat.ne_of_lt ho.1)] at hcd
      exact ho.2 cd hcd
  between h he := by cases he
  gone h hc := by
    rw [hcoros] at hc
    split at hc
    · cases hc
    · rename_i hh
      rw [hqueued, if_neg hh, Nat.add_zero]
      exact t.gone h hc
  fresh h ch hch := by
    rw [hcoros] at hch
    rw [hseq]
    split at hch
    · rename_i hh
      omega
    · exact Nat.lt_succ_of_lt (t.fresh h ch hch)
  onStack h _ := by
    rw [hrunning, hcoros, List.mem_append, t.onStack h (by simp)]
    by_cases hh : h = s.seq
    · subst hh
      have hnot : ¬ ∃ c, s.coros s.seq = some c ∧ c.point.isRunning = true := by
        rintro ⟨c, hc, -⟩
        exact absurd (t.fresh _ c hc) (lt_irrefl _)
      cases hr : c.point.isRunning <;> simp_all
    · cases hr : c.point.isRunning <;> simp [hh]
  sorted := by
    rw [hrunning]
    refine List.pairwise_append.mpr ⟨by split <;> simp, t.sorted, ?_⟩
    intro a ha b hb
    obtain ⟨cb, hcb, -⟩ := (t.onStack b (by simp)).mp hb
    have := t.fresh b cb hcb
    split at ha
    · rw [List.mem_singleton.mp ha]
      exact this
    · cases ha
  next h ch p hch hf hn := by
    rw [hcoros] at hch
    split at hch
    · cases hch
      rw [hnext] at hn
      cases hn
    · obtain ⟨cp, hcp, haw, hsus⟩ := t.next h ch p hch hf hn
      exact ⟨cp, by rw [hcoros, if_neg (Nat.ne_of_lt (t.fresh p cp hcp))]; exact hcp, haw, hsus⟩
  timer tk htk := by
    rcases hschedule tk htk with htk | ⟨htk, hsl⟩
    · obtain ⟨ct, hct, hsl⟩ := t.timer tk htk
      exact ⟨ct, by rw [hcoros, if_neg (Nat.ne_of_lt (t.fresh _ ct hct))]; exact hct, hsl⟩
    · exact ⟨c, by rw [hcoros, if_pos htk], hsl⟩
  creator h ch p hch hcr := by
    rw [hcoros] at hch
    split at hch
    · rename_i hh
      cases hch
      rw [hcreator] at hcr
      cases hcr
      rw [hh]
      exact hme
    · exact t.creator h ch p hch hcr
  locals h ch d hch hd := by
    rw [hcoros] at hch
    rw [hseq]
    split at hch
    · cases hch
      rw [hlocals] at hd
      cases hd
    · obtain ⟨h₁, h₂⟩ := t.locals h ch d hch hd
      exact ⟨h₁, Nat.lt_succ_of_lt h₂⟩

/-! ## One row changes -/

/-- **One coroutine is written to**, and perhaps queued, unqueued, pushed or
popped. Its new row is one the loop allows, or it is now the one between
suspension points. -/
theorem of_update {e' : Option ℕ} (c' : Coro Loc A V) (t : Table e s)
    (he : e = none ∨ e = some h) (hc : s.coros h = some c)
    (hseq : s'.seq = s.seq)
    (hcoros : ∀ i, s'.coros i = if i = h then some c' else s.coros i)
    (hqueued : ∀ i ≠ h, s'.queued.count i = s.queued.count i)
    (hschedule : ∀ tk ∈ s'.schedule, tk ∈ s.schedule ∧ tk.handle ≠ h ∨
      tk.handle = h ∧ c'.point.isSleep = true)
    (hrunning : ∀ i ≠ h, (i ∈ s'.running ↔ i ∈ s.running))
    (hsorted : s'.running.Pairwise (· > ·))
    (hfinal : c.point.isFinal = true → c'.point.isFinal = true)
    (hin : ∀ i ci, i ≠ h → s.coros i = some ci → ci.point.isFinal = false →
      ci.next = some h → c'.point.awaited = some i ∧ c'.state = .kSuspend)
    (hout : ∀ p, c'.point.isFinal = false → c'.next = some p →
      ∃ cp, s'.coros p = some cp ∧ cp.point.awaited = some h ∧ cp.state = .kSuspend)
    (hrow : e' = none ∧ RowOk s'.Over c'.point c'.state (s'.queued.count h) ∧
        (h ∈ s'.running ↔ c'.point.isRunning = true) ∨
      e' = some h ∧ c'.state ≠ .kScheduled ∧ c'.point.isFinal = false ∧
        s'.queued.count h = 0 ∧ h ∉ s'.running)
    (hcreator : c'.creator = c.creator) (hlocals : ∀ d ∈ c'.locals, d ∈ c.locals) :
    Table e' s' where
  row i ci hci hne := by
    have hover : ∀ d, s.Over d → s'.Over d := by
      refine fun d ho => ⟨by rw [hseq]; exact ho.1, fun cd hcd => ?_⟩
      rw [hcoros] at hcd
      split at hcd
      · rename_i hd
        subst hd
        cases hcd
        exact hfinal (ho.2 c hc)
      · exact ho.2 cd hcd
    by_cases hi : i = h
    · subst hi
      rw [hcoros, if_pos rfl] at hci
      cases hci
      rcases hrow with ⟨-, hr, -⟩ | ⟨he', -⟩
      · exact hr
      · exact absurd he' hne
    · rw [hcoros, if_neg hi] at hci
      rw [hqueued i hi]
      exact (t.row i ci hci (by rcases he with rfl | rfl <;> simp [Ne.symm hi])).mono
        fun d _ => hover d
  between i hi := by
    rcases hrow with ⟨he', -⟩ | ⟨he', hst, hf, hn, hr⟩
    · rw [he'] at hi; cases hi
    · rw [he'] at hi
      cases hi
      exact ⟨c', by rw [hcoros, if_pos rfl], hst, hf, hn, hr⟩
  gone i hi := by
    by_cases hh : i = h
    · rw [hcoros, if_pos hh] at hi; cases hi
    · rw [hcoros, if_neg hh] at hi
      rw [hqueued i hh]
      exact t.gone i hi
  fresh i ci hci := by
    rw [hseq]
    rw [hcoros] at hci
    split at hci
    · rename_i hi
      rw [hi]
      exact t.fresh h c hc
    · exact t.fresh i ci hci
  onStack i hne := by
    by_cases hi : i = h
    · subst hi
      rw [hcoros, if_pos rfl]
      rcases hrow with ⟨-, -, hr⟩ | ⟨he', -⟩
      · rw [hr]
        simp
      · exact absurd he' hne
    · rw [hrunning i hi, hcoros, if_neg hi]
      exact t.onStack i (by rcases he with rfl | rfl <;> simp [Ne.symm hi])
  sorted := hsorted
  next i ci p hci hf hn := by
    by_cases hi : i = h
    · subst hi
      rw [hcoros, if_pos rfl] at hci
      cases hci
      exact hout p hf hn
    · rw [hcoros, if_neg hi] at hci
      obtain ⟨cp, hcp, haw, hsus⟩ := t.next i ci p hci hf hn
      by_cases hp : p = h
      · subst hp
        obtain ⟨h₁, h₂⟩ := hin i ci hi hci hf hn
        exact ⟨c', by rw [hcoros, if_pos rfl], h₁, h₂⟩
      · exact ⟨cp, by rw [hcoros, if_neg hp]; exact hcp, haw, hsus⟩
  timer tk htk := by
    rcases hschedule tk htk with ⟨htk, hne⟩ | ⟨htk, hsl⟩
    · obtain ⟨ct, hct, hsl⟩ := t.timer tk htk
      exact ⟨ct, by rw [hcoros, if_neg hne]; exact hct, hsl⟩
    · exact ⟨c', by rw [hcoros, if_pos htk], hsl⟩
  creator i ci p hci hcr := by
    rw [hcoros] at hci
    split at hci
    · rename_i hi
      cases hci
      rw [hi]
      exact t.creator h c p hc (by rw [← hcreator]; exact hcr)
    · exact t.creator i ci p hci hcr
  locals i ci d hci hd := by
    rw [hseq]
    rw [hcoros] at hci
    split at hci
    · rename_i hi
      cases hci
      rw [hi]
      exact t.locals h c d hc (hlocals d hd)
    · exact t.locals i ci d hci hd

/-- A queued coroutine is scheduled, queued once, not executing and has not ended. -/
theorem of_mem_queued (t : Table none s) (hc : s.coros h = some c) (hq : h ∈ s.queued) :
    c.state = .kScheduled ∧ s.queued.count h = 1 ∧ c.point.isFinal = false ∧
      c.point.isRunning = false := by
  have hrow := t.row h c hc (by simp)
  have hpos : 0 < s.queued.count h := List.count_pos_iff.mpr hq
  have hone : s.queued.count h = 1 := by have := hrow.le_one; omega
  refine ⟨hrow.scheduled_iff.mpr hone, hone, ?_, ?_⟩
  · by_contra hf
    have := hrow.count_eq_zero_of_point (Or.inl (by simpa using hf))
    omega
  · by_contra hf
    have := hrow.count_eq_zero_of_point (Or.inr (by simpa using hf))
    omega

/-- What a queued coroutine awaits has ended: it waits no longer. -/
theorem over_of_mem_queued {d : ℕ} {k : Outcome V → Loc} (t : Table none s)
    (hc : s.coros h = some c) (hp : c.point = .await d k) (hq : h ∈ s.queued) : s.Over d := by
  have hrow := t.row h c hc (by simp)
  rw [hp, (t.of_mem_queued hc hq).1] at hrow
  rcases hrow with ⟨hst, -⟩ | ⟨-, -, hover⟩
  · cases hst
  · exact hover

/-- Whoever is queued exists. -/
theorem exists_of_mem_queued (t : Table e s) (hq : h ∈ s.queued) :
    ∃ c, s.coros h = some c := by
  cases hc : s.coros h with
  | some c => exact ⟨c, rfl⟩
  | none => exact absurd hq (List.count_eq_zero.mp (t.gone h hc))

/-- A timer's coroutine is not the one between suspension points, unless that
one sleeps and has left the queue. -/
theorem handle_ne_of_count_eq_zero (hn : s.queued.count h = 0) {tk : Task}
    (htk : tk ∈ s.schedule) : tk.handle ≠ h := by
  intro hh
  have hmem : tk.handle ∈ s.queued := List.mem_append_right _ (List.mem_map_of_mem htk)
  exact absurd (hh ▸ hmem) (List.count_eq_zero.mp hn)

/-- **`IO::Call`** of a coroutine that is queued nowhere, is not executing and
is the `next` of nothing that has to end: the new row must be allowed. -/
theorem call (t : Table none s) (hc : s.coros h = some c) (hn : s.queued.count h = 0)
    (hr : c.point.isRunning = false)
    (hin : ∀ i ci, s.coros i = some ci → ci.point.isFinal = false → ci.next ≠ some h)
    (hrow : RowOk s.Over c.point .kScheduled 1) : Table none (s.call h) := by
  have hcoros : ∀ i, (s.call h).coros i =
      if i = h then some { c with state := .kScheduled } else s.coros i := by
    intro i
    rw [call_coros, setState, modify_coros]
    split
    · rename_i hi
      rw [hi, hc]
      rfl
    · rfl
  have hover : ∀ d, s.Over d → (s.call h).Over d := by
    refine fun d ho => ⟨ho.1, fun cd hcd => ?_⟩
    rw [hcoros] at hcd
    split at hcd
    · rename_i hd
      subst hd
      cases hcd
      exact ho.2 c hc
    · exact ho.2 cd hcd
  have hnot : h ∉ s.running := fun hmem => by
    obtain ⟨c', hc', hrun⟩ := (t.onStack h (by simp)).mp hmem
    rw [hc] at hc'
    cases hc'
    rw [hr] at hrun
    cases hrun
  refine t.of_update { c with state := .kScheduled } (Or.inl rfl) hc rfl hcoros ?_ ?_ (fun i _ => Iff.rfl) t.sorted id ?_ ?_
    (Or.inl ⟨rfl, ?_, ?_⟩) rfl fun d hd => hd
  · intro i hi
    rw [count_queued_call, if_neg hi, Nat.add_zero]
  · intro tk htk
    exact Or.inl ⟨htk, handle_ne_of_count_eq_zero hn htk⟩
  · intro i ci _ hci hf hnx
    exact absurd hnx (hin i ci hci hf)
  · intro p hf hnx
    obtain ⟨cp, hcp, haw, hsus⟩ := t.next h c p hc hf hnx
    by_cases hp : p = h
    · subst hp
      exact absurd hnx (hin p c hc hf)
    · exact ⟨cp, by rw [hcoros, if_neg hp]; exact hcp, haw, hsus⟩
  · rw [count_queued_call, hn, if_pos rfl]
    exact hrow.mono fun d _ => hover d
  · exact ⟨fun hmem => absurd hmem hnot, fun hrun => by rw [hr] at hrun; cases hrun⟩

/-- `Handle::schedule` of a coroutine that is neither executing nor at its end: what
it queues has not begun. -/
theorem schedule (t : Table none s) (hc : s.coros h = some c) (hr : h ∉ s.running)
    (hf : c.point.isFinal = false) : Table none (Handle.schedule h s) := by
  unfold Handle.schedule
  simp only [hc]
  split
  · rename_i hst
    have hrow := t.row h c hc (by simp)
    have hrun : c.point.isRunning = false := by
      by_contra hrun
      exact hr ((t.onStack h (by simp)).mpr ⟨c, hc, by simpa using hrun⟩)
    refine t.call hc (hrow.count_eq_zero (by rw [hst]; decide)) hrun ?_ ?_
    · exact fun i ci hi hfi => t.next_ne_of_state hc (by rw [hst]; decide) hi hfi
    · cases hp : c.point <;> rw [hp, hst] at hrow <;>
        simp_all [RowOk, Point.isFinal, Point.isRunning]
  · exact t

/-! ## Leaving and reaching a suspension point -/

/-- The executing body leaves the stack: it is between suspension points. -/
theorem pop_stack {me : ℕ} {l : Loc} {rest : List (ℕ × Loc)} (t : Table none s)
    (hst : s.stack = (me, l) :: rest) : Table (some me) { s with stack := rest } := by
  have hrun : s.running = me :: rest.map Prod.fst := by simp [running, hst]
  obtain ⟨c, hc, hcr⟩ := (t.onStack me (by simp)).mp (by rw [hrun]; exact List.mem_cons_self)
  have hrow := t.row me c hc (by simp)
  have hzero := hrow.count_eq_zero_of_point (Or.inr hcr)
  have hsorted := t.sorted
  rw [hrun, List.pairwise_cons] at hsorted
  have hnot : me ∉ rest.map Prod.fst := fun hmem => lt_irrefl me (hsorted.1 me hmem)
  refine t.of_update c (Or.inl rfl) hc rfl ?_ (fun _ _ => rfl) ?_ ?_ hsorted.2 id ?_ ?_
    (Or.inr ⟨rfl, ?_, ?_, hzero, hnot⟩) rfl fun d hd => hd
  · intro i
    split
    · rename_i hi
      rw [hi]
      exact hc
    · rfl
  · exact fun tk htk => Or.inl ⟨htk, handle_ne_of_count_eq_zero hzero htk⟩
  · intro i hi
    rw [hrun, List.mem_cons]
    exact ⟨Or.inr, fun h => h.resolve_left hi⟩
  · intro i ci _ hci hf hn
    obtain ⟨cp, hcp, haw, hsus⟩ := t.next i ci me hci hf hn
    rw [hc] at hcp
    cases hcp
    exact ⟨haw, hsus⟩
  · exact fun p hf hn => t.next me c p hc hf hn
  · intro hs
    have := hrow.scheduled_iff.mp hs
    omega
  · cases hp : c.point <;> rw [hp] at hcr <;> simp_all [Point.isFinal, Point.isRunning]

/-- `Runone` takes the front of `ready_`: its coroutine is between suspension
points. -/
theorem pop_ready {q : List ℕ} {n : ℕ} (t : Table none s) (hq : s.ready = h :: q)
    (hc : s.coros h = some c) :
    Table (some h) (Loop.setState .kUnschedule h { s with left := n, ready := q }) := by
  have hmem : h ∈ s.queued := by simp [queued, hq]
  obtain ⟨hst, hone, hf, hr⟩ := t.of_mem_queued hc hmem
  have hcount : ∀ i, s.queued.count i = (q ++ s.schedule.map Task.handle).count i +
      if i = h then 1 else 0 := by
    intro i
    simp only [queued, hq, List.cons_append, List.count_cons]
    by_cases hi : i = h
    · simp [hi]
    · simp [hi, Ne.symm hi]
  have hzero : (q ++ s.schedule.map Task.handle).count h = 0 := by
    have := hcount h
    rw [hone, if_pos rfl] at this
    omega
  refine t.of_update { c with state := .kUnschedule } (Or.inl rfl) hc rfl ?_ ?_ ?_
    (fun _ _ => Iff.rfl) t.sorted id ?_ ?_ (Or.inr ⟨rfl, by simp, hf, hzero, ?_⟩) rfl fun d hd => hd
  · intro i
    rw [setState, modify_coros]
    split
    · rename_i hi
      rw [hi, hc]
      rfl
    · rfl
  · intro i hi
    rw [hcount i, if_neg hi]
    rfl
  · intro tk htk
    refine Or.inl ⟨htk, fun hh => ?_⟩
    have hin : tk.handle ∈ q ++ s.schedule.map Task.handle :=
      List.mem_append_right _ (List.mem_map_of_mem htk)
    exact absurd (hh ▸ hin) (List.count_eq_zero.mp hzero)
  · intro i ci _ hci hfi hn
    exact absurd hn (t.next_ne_of_state hc (by rw [hst]; decide) hci hfi)
  · intro p _ hn
    obtain ⟨cp, hcp, haw, hsus⟩ := t.next h c p hc hf hn
    by_cases hp : p = h
    · subst hp
      rw [hc] at hcp
      cases hcp
      rw [hst] at hsus
      cases hsus
    · exact ⟨cp, by rw [setState, modify_coros_of_ne hp]; exact hcp, haw, hsus⟩
  · intro hmem
    obtain ⟨c', hc', hrun⟩ := (t.onStack h (by simp)).mp hmem
    rw [hc] at hc'
    cases hc'
    rw [hr] at hrun
    cases hrun

/-- The coroutine between suspension points reaches one, or goes on
executing, with its row given. -/
theorem settle (c' : Coro Loc A V) (stack : List (ℕ × Loc)) (x : X) (t : Table (some h) s)
    (hc : s.coros h = some c)
    (hstack : ∀ i ≠ h, (i ∈ stack.map Prod.fst ↔ i ∈ s.running))
    (hsorted : (stack.map Prod.fst).Pairwise (· > ·))
    (hawait : ∀ i ci, s.coros i = some ci → ci.point.isFinal = false → ci.next ≠ some h)
    (hout : ∀ p, c'.point.isFinal = false → c'.next = some p → c.next = some p)
    (hrun : h ∈ stack.map Prod.fst ↔ c'.point.isRunning = true)
    (hrow : RowOk s.Over c'.point c'.state 0) (hcreator : c'.creator = c.creator)
    (hlocals : ∀ d ∈ c'.locals, d ∈ c.locals) :
    Table none (Loop.modify h (fun _ => c') { s with stack := stack, world := x }) := by
  obtain ⟨c₀, hc₀, -, hf, hzero, -⟩ := t.between h rfl
  rw [hc] at hc₀
  cases hc₀
  refine t.of_update c' (Or.inr rfl) hc rfl ?_ (fun _ _ => rfl) ?_ hstack hsorted ?_ ?_ ?_
    (Or.inl ⟨rfl, ?_, hrun⟩) hcreator hlocals
  · intro i
    rw [modify_coros]
    split
    · rename_i hi
      rw [hi, show Loop.coros { s with stack := stack, world := x } h = some c from hc]
      rfl
    · rfl
  · exact fun tk htk => Or.inl ⟨htk, handle_ne_of_count_eq_zero hzero htk⟩
  · rw [hf]
    exact fun hff => absurd hff (by simp)
  · exact fun i ci _ hci hfi hn => absurd hn (hawait i ci hci hfi)
  · intro p hf' hn
    have hcn := hout p hf' hn
    obtain ⟨cp, hcp, haw, hsus⟩ := t.next h c p hc hf hcn
    have hp : p ≠ h := fun hp => hawait h c hc hf (hp ▸ hcn)
    exact ⟨cp, by rw [modify_coros_of_ne hp]; exact hcp, haw, hsus⟩
  · show RowOk _ _ _ (s.queued.count h)
    rw [hzero]
    refine hrow.mono fun d _ ho => ⟨ho.1, fun cd hcd => ?_⟩
    rcases modify_coros_eq_some.mp hcd with ⟨hd, c₁, hc₁, hcd⟩ | ⟨-, hcd⟩
    · subst hd
      have := ho.2 c hc
      rw [hf] at this
      cases this
    · exact ho.2 cd hcd

end Table

end EfaExamples
