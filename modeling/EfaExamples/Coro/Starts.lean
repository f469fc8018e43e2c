import EfaExamples.Coro.Scheduler
import EfaExamples.Coro.Waiting
/-!
# Coroutines that have not begun

The connection's coroutines begin when `Runone` gets to them, so those that
wait for it stand in `ready_` in the order they were scheduled in. `line_step`
says what a step does to that queue: its front may begin, and whoever is
scheduled comes last.
-/

namespace EfaExamples

open Loop

variable {Loc G A X V : Type} {w : World A X V} {code : Loc → Op Loc G A V}
variable {s s' : Loop Loc G A X V} {h : ℕ} {c c' : Coro Loc A V}

/-- The initial suspension point of one of the connection's coroutines. -/
def Point.isInitialIo : Point Loc A V → Bool
  | initialIo _ => true
  | _ => false

namespace Loop

/-- The coroutine is one of the connection's, and has not begun. -/
def unstarted (s : Loop Loc G A X V) (h : ℕ) : Bool := (s.coros h).any (·.point.isInitialIo)

/-- Those of them that are in `ready_`, in order. -/
def line (s : Loop Loc G A X V) : List ℕ := s.ready.filter s.unstarted

theorem unstarted_iff :
    s.unstarted h = true ↔ ∃ c a, s.coros h = some c ∧ c.point = .initialIo a := by
  unfold unstarted
  cases s.coros h with
  | none => simp
  | some c =>
    cases hp : c.point <;> simp [Point.isInitialIo, hp]

theorem unstarted_of_coros (hc : s.coros h = some c) : s.unstarted h = c.point.isInitialIo := by
  simp [unstarted, hc]

end Loop

/-- A coroutine begins only at the front of `ready_`. -/
theorem RowStep.isInitialIo (hr : RowStep w code s s' h c c') (t : Table none s)
    (hc : s.coros h = some c) : (c'.point.isInitialIo = true → c.point.isInitialIo = true) ∧
      (c.point.isInitialIo = true → c'.point.isInitialIo = true ∨
        s.stack = [] ∧ ∃ q, s.ready = h :: q) := by
  have hrunning : h ∈ s.running → c.point.isInitialIo = false := by
    intro hm
    obtain ⟨c₁, hc₁, hrun⟩ := (t.onStack h (by simp)).mp hm
    rw [hc, Option.some.injEq] at hc₁
    rw [hc₁, Point.eq_running hrun]
    rfl
  cases hr.pointStep with
  | kept hp _ _ =>
    rw [hp]
    exact ⟨id, Or.inl⟩
  | suspended l rest d k hstack _ _ hp' =>
    rw [hp']
    have hp := hrunning (by simp [running, hstack])
    exact ⟨fun hn => absurd hn Bool.false_ne_true, fun hi => absurd hi (by simp [hp])⟩
  | ended o hends hp' _ =>
    rw [hp']
    refine ⟨fun hn => absurd hn Bool.false_ne_true, fun hi => ?_⟩
    cases hends with
    | ret l rest hstack _ =>
      rw [hrunning (by simp [running, hstack])] at hi
      cases hi
    | sleep q hstack hready _ _ | io q a hstack hready _ _ => exact Or.inr ⟨hstack, q, hready⟩
    | enterIo q a hstack hready _ _ _ => exact Or.inr ⟨hstack, q, hready⟩
  | resumed q l hstack hready _ _ hp' | posted q a hstack hready _ hp' =>
    rw [hp']
    exact ⟨fun hn => absurd hn Bool.false_ne_true, fun _ => Or.inr ⟨hstack, q, hready⟩⟩

section Step

variable (t : Table none s) (hs : Step w code s s')
variable (hawait : ∀ me l rest h k, s.stack = (me, l) :: rest → code l = .await h k → h ∉ s.running)
include t hs hawait

/-- Who has not begun after a step had not begun before, or is new and not scheduled. -/
theorem unstarted_of_step (hu : s'.unstarted h = true) : s.unstarted h = true ∨
    s.coros h = none ∧ ∃ c', s'.coros h = some c' ∧ c'.state = .kUnschedule := by
  obtain ⟨c', a, hc', hp⟩ := unstarted_iff.mp hu
  cases hc : s.coros h with
  | none =>
    obtain ⟨-, me, l, rest, p, isVoid, st, -, -, hst, ls, rfl⟩ := hs.fresh_row hc hc'
    refine Or.inr ⟨rfl, _, hc', ?_⟩
    rcases hst with ⟨-, hst⟩ | ⟨-, hst⟩ | ⟨hsl, -⟩
    · exact hst
    · exact hst
    · rw [show p = .initialIo a from hp] at hsl
      cases hsl
  | some c =>
    left
    rw [unstarted_of_coros hc]
    refine ((hs.row t hawait hc hc').isInitialIo t hc).1 ?_
    rw [← unstarted_of_coros hc']
    exact hu

/-- Who has not begun begins at the front of `ready_`, or has still not begun. -/
theorem unstarted_kept (hu : s.unstarted h = true) : s'.coros h = none ∨ s'.unstarted h = true ∨
    s.stack = [] ∧ ∃ q, s.ready = h :: q := by
  obtain ⟨c, a, hc, -⟩ := unstarted_iff.mp hu
  rw [unstarted_of_coros hc] at hu
  refine (hs.rowStep t hawait hc).imp_right ?_
  rintro ⟨c', hc', hrow⟩
  rw [unstarted_of_coros hc']
  exact (hrow.isInitialIo t hc).2 hu

/-- **What a step does to the queue of those who have not begun.** Nobody among
them is destroyed, and whoever begins is then no longer among them. -/
theorem line_step (t' : Table none s') (hgone : ∀ h, s.unstarted h = true → s'.coros h ≠ none)
    (hfront : ∀ h c, s.coros h = some c → FrontStep w s s' h c → c.point.isInitialIo = true →
      s'.unstarted h = false) :
    ∃ new, new.Nodup ∧ (∀ d ∈ new, s.unstarted d = true ∧ d ∉ s.ready) ∧
      (s'.line = s.line ++ new ∨
        ∃ h q rest c, s.ready = h :: q ∧ s.coros h = some c ∧ s.line = h :: rest ∧
          s'.line = rest ++ new ∧ FrontStep w s s' h c) := by
  have hnodup : s'.ready.Nodup := (List.nodup_append.mp t'.scheduler.once).1
  -- what is kept of the queue keeps its members that have not begun
  have hsame : ∀ l : List ℕ, (∀ h ∈ l, h ∈ s.ready) →
      (∀ h ∈ l, s.unstarted h = true → s'.unstarted h = true) →
      l.filter s'.unstarted = l.filter s.unstarted := by
    intro l hl hkept
    refine List.filter_congr fun h hh => Bool.eq_iff_iff.mpr ⟨fun hu => ?_, hkept h hh⟩
    refine (unstarted_of_step t hs hawait hu).resolve_right fun hn => ?_
    obtain ⟨c, hc⟩ := t.exists_of_mem_queued (h := h) (List.mem_append_left _ (hl h hh))
    rw [hn.1] at hc
    cases hc
  -- what is added has been scheduled just now
  have hnew : ∀ base r : List ℕ, s'.ready = base ++ r →
      (∀ d ∈ s.ready, d ∉ base → s'.unstarted d = false) →
      (r.filter s'.unstarted).Nodup ∧
        ∀ d ∈ r.filter s'.unstarted, s.unstarted d = true ∧ d ∉ s.ready := by
    intro base r hr hbase
    rw [hr] at hnodup
    obtain ⟨-, hrn, hdisj⟩ := List.nodup_append.mp hnodup
    refine ⟨hrn.filter _, fun d hd => ?_⟩
    obtain ⟨hdr, hu⟩ := List.mem_filter.mp hd
    refine ⟨(unstarted_of_step t hs hawait hu).resolve_right ?_, fun hmem => ?_⟩
    · rintro ⟨-, c', hc', hst⟩
      have hq : d ∈ s'.queued := List.mem_append_left _ (hr ▸ List.mem_append_right _ hdr)
      have := (t'.of_mem_queued hc' hq).1
      rw [hst] at this
      cases this
    · by_cases hdb : d ∈ base
      · exact hdisj d hdb d hdr rfl
      · rw [hbase d hmem hdb] at hu
        cases hu
  -- where no point changes
  have hpoints : ∀ r, s'.ready = s.ready ++ r → (∀ h ∈ s.ready, s.unstarted h = true →
      s'.unstarted h = true) → ∃ new, new.Nodup ∧ (∀ d ∈ new, s.unstarted d = true ∧ d ∉ s.ready) ∧
      s'.line = s.line ++ new := by
    intro r hr hkept
    obtain ⟨hn, hd⟩ := hnew s.ready r hr fun d hd hnd => absurd hd hnd
    refine ⟨_, hn, hd, ?_⟩
    rw [line, hr, List.filter_append, hsame s.ready (fun _ => id) hkept, line]
  have hstay : (s.stack = [] → False) → ∀ h, s.unstarted h = true → s'.unstarted h = true :=
    fun hstack h hu => ((unstarted_kept t hs hawait hu).resolve_left (hgone h hu)).resolve_right
      fun hf => hstack hf.1
  have hcases := hs
  cases hcases with
  | exec now he =>
    obtain ⟨-, -, r, hr⟩ := exec_appends he
    have hstack : s.stack = [] → False := fun hstack => by simp [exec, hstack] at he
    obtain ⟨new, hn, hd, hline⟩ := hpoints r hr fun h _ => hstay hstack h
    exact ⟨new, hn, hd, Or.inl hline⟩
  | resume hstack he =>
    obtain ⟨h, c, q, r, -, hready, hc, hr, hf⟩ := Loop.frontStep he
    have hq : h ∉ q := by
      have := (List.nodup_append.mp t.scheduler.once).1
      rw [hready] at this
      exact (List.nodup_cons.mp this).1
    have hkept : ∀ i ∈ q, s.unstarted i = true → s'.unstarted i = true := by
      intro i hi hu
      refine ((unstarted_kept t hs hawait hu).resolve_left (hgone i hu)).resolve_right ?_
      rintro ⟨-, q', hq'⟩
      rw [hready] at hq'
      cases hq'
      exact hq hi
    have hq' := hsame q (fun i hi => hready ▸ List.mem_cons_of_mem _ hi) hkept
    have hbegun : s'.unstarted h = false := by
      by_contra hu
      have hu := by simpa using hu
      rcases unstarted_of_step t hs hawait hu with hold | hn
      · rw [unstarted_of_coros hc] at hold
        rw [hfront h c hc hf hold] at hu
        cases hu
      · rw [hn.1] at hc
        cases hc
    obtain ⟨hn, hd⟩ := hnew q r hr fun d hd hnd => by
      rw [hready] at hd
      rw [(List.mem_cons.mp hd).resolve_right hnd]
      exact hbegun
    refine ⟨_, hn, hd, ?_⟩
    have hline' : s'.line = q.filter s.unstarted ++ r.filter s'.unstarted := by
      rw [line, hr, List.filter_append, hq']
    cases hu : s.unstarted h with
    | true =>
      right
      exact ⟨h, q, _, c, hready, hc, by rw [line, hready, List.filter_cons_of_pos hu], hline', hf⟩
    | false =>
      left
      rw [hline', line, hready, List.filter_cons_of_neg (by simp [hu])]
  | round hr =>
    obtain ⟨events, due, -, -, hready, -⟩ := hr.world
    obtain @⟨s₁, now, events', x, -, -, -, hcall⟩ := hr
    obtain ⟨new, hn, hd, hline⟩ := hpoints (events ++ due) (by rw [hready, List.append_assoc])
      fun h _ hu => by
        obtain ⟨c, a, hc, hp⟩ := unstarted_iff.mp hu
        have hrow := callAll_row hcall (s := { s with world := x }) hc
        refine unstarted_iff.mpr ⟨_, a, hrow, ?_⟩
        split <;> exact hp
    exact ⟨new, hn, hd, Or.inl hline⟩
  | env _ => exact ⟨[], List.nodup_nil, by simp, Or.inl (List.append_nil _).symm⟩

end Step

end EfaExamples
