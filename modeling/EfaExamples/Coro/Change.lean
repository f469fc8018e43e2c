import EfaExamples.Coro.Rows
/-!
# How a coroutine came to its point

For every program, well behaved or not: whoever is there after a step was there
before, at the same point and with the same result, or one of a few things has
happened to it (`Step.change`). And whatever a body does next, the step before
led it there (`Step.stack_cases`).
-/

namespace EfaExamples

open Loop

variable {Loc G A X V : Type} {w : World A X V} {code : Loc → Op Loc G A V}
variable {s s' s₁ : Loop Loc G A X V} {h : ℕ} {c c' : Coro Loc A V}

/-- The coroutine was there before, at the same point and with the same result. -/
def Loop.Kept (s : Loop Loc G A X V) (h : ℕ) (c' : Coro Loc A V) : Prop :=
  ∃ c, s.coros h = some c ∧ c'.point = c.point ∧ c'.get = c.get

/-- **How a coroutine came to its point** in a step. -/
inductive Change (w : World A X V) (code : Loc → Op Loc G A V) (s s' : Loop Loc G A X V) (h : ℕ)
    (c' : Coro Loc A V) : Prop
  | kept : s.Kept h c' → Change w code s s' h c'
  | made (now : ℤ) (me : ℕ) (l : Loc) (rest : List (ℕ × Loc)) (c : Coro Loc A V)
      (sched : List Task) (inner : List (ℕ × Loc)) (l' : Loc) : s.stack = (me, l) :: rest →
      Made code now me l s c sched inner l' → h = s.seq → s'.seq = s.seq + 1 →
      c'.point = c.point → c'.get = c.get → Change w code s s' h c'
  /-- its body suspends -/
  | suspended (c : Coro Loc A V) (l : Loc) (rest : List (ℕ × Loc)) (d : ℕ)
      (k : Outcome V → Loc) : s.coros h = some c → s.stack = (h, l) :: rest → code l = .await d k →
      c'.point = .await d k → c'.get = c.get → Change w code s s' h c'
  /-- its body goes on -/
  | running (c : Coro Loc A V) : s.coros h = some c → c'.point = .running → c'.get = c.get →
      Change w code s s' h c'
  /-- it begins, and waits for its operation -/
  | posted (c : Coro Loc A V) (q : List ℕ) (a : A) : s.coros h = some c → s.stack = [] →
      s.ready = h :: q → c.point = .initialIo a → c'.point = .io a → c'.get = c.get →
      Change w code s s' h c'
  | ended (c : Coro Loc A V) (o : Outcome V) : s.coros h = some c → Ends w code s h c o →
      c'.point = .final → c'.get = o → Change w code s s' h c'

namespace Loop.Kept

theorem of_eq (hc : s.coros h = some c) : s.Kept h c := ⟨c, hc, rfl, rfl⟩

/-- What keeps point and result of a coroutine, keeps it. -/
theorem modify {i : ℕ} {f : Coro Loc A V → Coro Loc A V}
    (hc : (s.modify i f).coros h = some c') (hp : ∀ c, (f c).point = c.point)
    (hg : ∀ c, (f c).get = c.get) : s.Kept h c' := by
  rcases modify_coros_eq_some.mp hc with ⟨rfl, c₀, hc₀, rfl⟩ | ⟨-, hc₀⟩
  · exact ⟨c₀, hc₀, hp c₀, hg c₀⟩
  · exact .of_eq hc₀

theorem trans (hk : s₁.Kept h c') (hs : ∀ c, s₁.coros h = some c → s.Kept h c) : s.Kept h c' := by
  obtain ⟨c₁, hc₁, hp₁, hg₁⟩ := hk
  obtain ⟨c, hc, hp, hg⟩ := hs c₁ hc₁
  exact ⟨c, hc, hp₁.trans hp, hg₁.trans hg⟩

theorem schedule {d : ℕ} (hc : (Handle.schedule d s).coros h = some c') : s.Kept h c' := by
  cases hs : s.coros h with
  | none =>
    rw [schedule_gone hs] at hc
    cases hc
  | some c =>
    rw [schedule_row hs, Option.some.injEq] at hc
    subst hc
    refine ⟨c, hs, ?_, ?_⟩ <;> split <;> rfl

end Loop.Kept

/-! ## The steps -/

/-- The end of a body. -/
theorem change_of_finish {me : ℕ} {o : Outcome V} (hf : s.finish me o = some s')
    (hc' : s'.coros h = some c') : s.Kept h c' ∨
      h = me ∧ (∃ c, s.coros h = some c) ∧ c'.point = .final ∧ c'.get = o := by
  cases hc : s.coros h with
  | none =>
    rw [finish_gone hf hc] at hc'
    cases hc'
  | some c =>
    rcases finish_row hf hc with hnone | ⟨c₁, hc₁, hcase⟩
    · rw [hnone] at hc'
      cases hc'
    · rw [hc', Option.some.injEq] at hc₁
      subst hc₁
      rcases hcase with ⟨-, rfl⟩ | ⟨hh, ⟨st, rfl⟩, -⟩ | ⟨-, -, rfl⟩
      · exact Or.inl (.of_eq hc)
      · exact Or.inr ⟨hh, ⟨c, rfl⟩, rfl, rfl⟩
      · exact Or.inl ⟨c, hc, rfl, rfl⟩

theorem change_of_exec {now : ℤ} (hs : s.exec code now = some s') (hc' : s'.coros h = some c') :
    Change w code s s' h c' := by
  obtain ⟨me, l, rest, hstack, hop⟩ := operation_of_exec hs
  have hdrop : ∀ {d : ℕ} {k : Loc}, (Loop.dropLocal me d
      { s with stack := (me, k) :: rest }).coros h = some c' → s.Kept h c' := fun hc =>
    Kept.modify hc (fun _ => rfl) fun _ => rfl
  cases hop with
  | step f _ he | keep d k cd _ _ _ _ he | got d k cd _ _ _ he | done d k cd _ _ he =>
    subst he
    exact .kept (.of_eq hc')
  | spawn c sched inner l' hmade he =>
    subst he
    have hc' : ((s.spawn c).modify me fun c => { c with locals := s.seq :: c.locals }).coros h =
      some c' := hc'
    obtain ⟨c₁, hc₁, hp, hg⟩ := Kept.modify hc' (fun _ => rfl) fun _ => rfl
    rw [spawn_coros] at hc₁
    split at hc₁
    · rename_i hh
      cases hc₁
      exact .made now me l rest c sched inner l' hstack hmade hh rfl hp hg
    · exact .kept ⟨c₁, hc₁, hp, hg⟩
  | future d k cd _ _ _ _ he =>
    subst he
    exact .kept (.schedule hc')
  | suspend d k cd hop _ _ he =>
    subst he
    obtain ⟨c₁, hc₁, hp₁, hg₁⟩ := Kept.schedule hc'
    obtain ⟨c₂, hc₂, hp₂, hg₂⟩ := Kept.modify hc₁ (fun _ => rfl) fun _ => rfl
    rcases modify_coros_eq_some.mp hc₂ with ⟨rfl, c₃, hc₃, rfl⟩ | ⟨-, hc₃⟩
    · obtain ⟨c, hc, -, hg⟩ := Kept.modify hc₃ (fun _ => rfl) fun _ => rfl
      exact .suspended c l rest d k hc hstack hop (hp₁.trans hp₂) (hg₁.trans (hg₂.trans hg))
    · refine .kept (Kept.trans ⟨c₂, hc₃, hp₁.trans hp₂, hg₁.trans hg₂⟩ fun c hc => ?_)
      exact Kept.modify hc (fun _ => rfl) fun _ => rfl
  | destroy d k _ _ he =>
    subst he
    exact .kept (hdrop ((erased_destroy _ _ _).coros_eq hc'))
  | release d k _ _ he =>
    subst he
    exact .kept (hdrop hc')
  | ret o hop hs =>
    rcases change_of_finish hs hc' with hk | ⟨rfl, ⟨c, hc⟩, hp, hg⟩
    · exact .kept hk
    · exact .ended c o hc (.ret l rest hstack hop) hp hg

theorem change_of_resume (hstack : s.stack = []) (hs : s.resume w = some s')
    (hc' : s'.coros h = some c') : Change w code s s' h c' := by
  obtain ⟨i, n, q, ci, -, hready, hci, hit⟩ := iteration_of_resume hs
  have hpop : ∀ {c}, (s.popped i n q).coros h = some c → s.Kept h c := fun hc =>
    Kept.modify hc (fun _ => rfl) fun _ => rfl
  -- the front's body goes on
  have hgo : ∀ {l}, s' = { (s.popped i n q).setPoint .running i with stack := [(i, l)] } →
      Change w code s s' h c' := by
    rintro l rfl
    rcases modify_coros_eq_some.mp hc' with ⟨rfl, c₁, hc₁, rfl⟩ | ⟨-, hc₁⟩
    · obtain ⟨c, hc, -, hg⟩ := hpop hc₁
      exact .running c hc rfl hg
    · exact .kept (hpop hc₁)
  -- or ends
  have hend : ∀ {o : Outcome V} {r : Loop Loc G A X V}, r.finish i o = some s' →
      (∀ c, r.coros h = some c → s.Kept h c) → Ends w code s i ci o → Change w code s s' h c' := by
    intro o r hf hk hends
    rcases change_of_finish hf hc' with hk' | ⟨rfl, -, hp, hg⟩
    · exact .kept (hk'.trans hk)
    · exact .ended ci o hci hends hp hg
  cases hit with
  | initial l _ he | await d k cd _ _ he => exact hgo he
  | refused a e hp henter hf =>
    exact hend hf (fun _ => hpop) (.enterIo q a hstack hready hp ⟨e, rfl⟩ (Or.inl ⟨e, henter⟩))
  | failed a e x x' hp henter hpost hf =>
    refine hend hf (fun c hc => ?_) (.enterIo q a hstack hready hp ⟨e, rfl⟩
      (Or.inr ⟨x, e, x', henter, hpost⟩))
    exact (Kept.modify hc (fun _ => rfl) fun _ => rfl).trans fun _ => hpop
  | posted a x x' hp _ _ he =>
    subst he
    rcases modify_coros_eq_some.mp hc' with ⟨rfl, c₁, hc₁, rfl⟩ | ⟨-, hc₁⟩
    · obtain ⟨c, hc, hcp, hg⟩ :=
        (Kept.modify hc₁ (fun _ => rfl) fun _ => rfl).trans fun _ => hpop
      rw [hci, Option.some.injEq] at hc
      subst hc
      exact .posted ci q a hci hstack hready hp rfl hg
    · exact .kept ((Kept.modify hc₁ (fun _ => rfl) fun _ => rfl).trans fun _ => hpop)
  | sleep hp hf => exact hend hf (fun _ => hpop) (.sleep q hstack hready hp rfl)
  | io a hp hf =>
    exact hend (r := { s.popped i n q with world := _ }) hf (fun _ => hpop)
      (.io q a hstack hready hp rfl)

theorem callAll_stack : ∀ {events : List ℕ} {s : Loop Loc G A X V},
    s.callAll events = some s' → s'.stack = s.stack := by
  intro events
  induction events with
  | nil =>
    intro s hs
    rw [callAll, Option.some.injEq] at hs
    rw [← hs]
  | cons e events ih =>
    intro s hs
    rw [callAll] at hs
    split at hs
    · exact (ih hs).trans rfl
    · cases hs

/-- **Whoever is there after a step** came to its point in one of these ways. -/
theorem Loop.Step.change (hs : Step w code s s') (hc' : s'.coros h = some c') :
    Change w code s s' h c' := by
  cases hs with
  | exec now hs => exact change_of_exec hs hc'
  | resume hstack hs => exact change_of_resume hstack hs hc'
  | round hr =>
    obtain @⟨s₁, now, events, x, -, -, -, hcall⟩ := hr
    cases hc : s.coros h with
    | none =>
      have : s₁.coros h = none := callAll_gone (s := { s with world := x }) hcall hc
      rw [show s₁.coros h = some c' from hc'] at this
      cases this
    | some c =>
      have := callAll_row (s := { s with world := x }) hcall hc
      rw [show s₁.coros h = some c' from hc', Option.some.injEq] at this
      subst this
      refine .kept ⟨c, hc, ?_, ?_⟩ <;> split <;> rfl
  | env hs => exact .kept (.of_eq hc')

/-- Every id that is in use has been handed out. -/
theorem Loop.Step.fresh (hs : Step w code s s') (hf : ∀ h c, s.coros h = some c → h < s.seq) :
    ∀ h c, s'.coros h = some c → h < s'.seq := by
  intro h c' hc'
  cases hs.change hc' with
  | kept hk =>
    obtain ⟨c, hc, -⟩ := hk
    exact (hf h c hc).trans_le hs.seq_le
  | made now me l rest c sched inner l' _ _ hh hseq => omega
  | suspended c l rest d k hc | running c hc | posted c q a hc | ended c o hc =>
    exact (hf h c hc).trans_le hs.seq_le

end EfaExamples
