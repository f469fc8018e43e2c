import EfaExamples.Coro.Loop
/-!
# What a step is

The operations of a body and the iterations of `Runone`, each said once as the
state it leads to. Invariants are proved by cases of `Operation` and of
`Iteration`; the definitions of the steps are not unfolded again. A coroutine
is made in one way, whichever operation makes it: `Made` lists what is new.
-/

namespace EfaExamples

variable {Loc G A X V : Type}

/-- **A coroutine that an operation makes**: its promise and frame, what
`schedule_` is then, the bodies that execute before `me` goes on, and where `me`
goes on. -/
inductive Made (code : Loc → Op Loc G A V) (now : ℤ) (me : ℕ) (l : Loc)
    (s : Loop Loc G A X V) : Coro Loc A V → List Task → List (ℕ × Loc) → Loc → Prop
  | call (isVoid : Bool) (l' : Loc) (k : ℕ → Loc) : code l = .call false isVoid l' k →
      Made code now me l s (.new (.initial l') isVoid (some me)) s.schedule [] (k s.seq)
  | oneway (isVoid : Bool) (l' : Loc) (k : ℕ → Loc) : code l = .call true isVoid l' k →
      Made code now me l s (.new .running isVoid (some me)) s.schedule [(s.seq, l')] (k s.seq)
  | io (a : A) (k : ℕ → Loc) : code l = .io a k →
      Made code now me l s (.new (.initialIo a) false (some me)) s.schedule [] (k s.seq)
  | sleep (delay : Duration) (k : ℕ → Loc) : code l = .sleep delay k →
      Made code now me l s { Coro.new .sleep true (some me) with state := .kScheduled }
        (Task.push ⟨deadline now delay, s.seq⟩ s.schedule) [] (k s.seq)

/-- **What the operation of the innermost body does.** -/
inductive Operation (code : Loc → Op Loc G A V) (now : ℤ) (me : ℕ) (l : Loc)
    (rest : List (ℕ × Loc)) (s s' : Loop Loc G A X V) : Prop
  | step (f : G → G × Loc) : code l = .step f →
      s' = { s with mem := (f s.mem).1, stack := (me, (f s.mem).2) :: rest } →
      Operation code now me l rest s s'
  /-- a coroutine is made, and its object put into the frame -/
  | spawn (c : Coro Loc A V) (sched : List Task) (inner : List (ℕ × Loc)) (l' : Loc) :
      Made code now me l s c sched inner l' →
      s' = { (s.spawn c).addLocal me s.seq with
        schedule := sched, stack := inner ++ (me, l') :: rest } →
      Operation code now me l rest s s'
  /-- a `Future` is made of a coroutine that is done -/
  | keep (h : ℕ) (k : Loc) (c : Coro Loc A V) : code l = .future h k → s.coros h = some c →
      s.holds me h = true → c.point.isFinal = true →
      s' = { s with stack := (me, k) :: rest } → Operation code now me l rest s s'
  /-- a `Future` is made of one that is not -/
  | future (h : ℕ) (k : Loc) (c : Coro Loc A V) : code l = .future h k → s.coros h = some c →
      s.holds me h = true → c.point.isFinal = false →
      s' = { Handle.schedule h s with stack := (me, k) :: rest } →
      Operation code now me l rest s s'
  /-- a `co_await` of a coroutine that is done -/
  | got (h : ℕ) (k : Outcome V → Loc) (c : Coro Loc A V) : code l = .await h k →
      s.coros h = some c → c.point.isFinal = true →
      s' = { s with stack := (me, k c.get) :: rest } → Operation code now me l rest s s'
  /-- a `co_await` that suspends -/
  | suspend (h : ℕ) (k : Outcome V → Loc) (c : Coro Loc A V) : code l = .await h k →
      s.coros h = some c → c.point.isFinal = false →
      s' = ({ s with stack := rest } : Loop Loc G A X V).awaitSuspend me h k →
      Operation code now me l rest s s'
  | done (h : ℕ) (k : Bool → Loc) (c : Coro Loc A V) : code l = .done h k →
      s.coros h = some c → s' = { s with stack := (me, k c.point.isFinal) :: rest } →
      Operation code now me l rest s s'
  | destroy (h : ℕ) (k : Loc) : code l = .destroy h k → s.holds me h = true →
      s' = (({ s with stack := (me, k) :: rest } : Loop Loc G A X V).dropLocal me h).destroy
        s.seq h → Operation code now me l rest s s'
  | release (h : ℕ) (k : Loc) : code l = .release h k → s.holds me h = true →
      s' = ({ s with stack := (me, k) :: rest } : Loop Loc G A X V).dropLocal me h →
      Operation code now me l rest s s'
  /-- the body ends -/
  | ret (o : Outcome V) : code l = .ret o →
      ({ s with stack := rest } : Loop Loc G A X V).finish me o = some s' →
      Operation code now me l rest s s'

section Made

variable {code : Loc → Op Loc G A V} {now : ℤ} {me : ℕ} {l l' : Loc} {s : Loop Loc G A X V}
variable {c : Coro Loc A V} {sched : List Task} {inner : List (ℕ × Loc)}

/-- What is made is new: it has not begun, or is the body that executes now, or sleeps. -/
theorem Made.new (hm : Made code now me l s c sched inner l') :
    ∃ p isVoid st, c = { Coro.new p isVoid (some me) with state := st } ∧
      (p.isInitial = true ∧ st = .kUnschedule ∨ p.isRunning = true ∧ st = .kUnschedule ∨
        p.isSleep = true ∧ st = .kScheduled) := by
  cases hm with
  | call isVoid l' k _ => exact ⟨_, _, _, rfl, Or.inl ⟨rfl, rfl⟩⟩
  | oneway isVoid l' k _ => exact ⟨_, _, _, rfl, Or.inr (Or.inl ⟨rfl, rfl⟩)⟩
  | io a k _ => exact ⟨_, _, _, rfl, Or.inl ⟨rfl, rfl⟩⟩
  | sleep delay k _ => exact ⟨_, _, _, rfl, Or.inr (Or.inr ⟨rfl, rfl⟩)⟩

/-- It holds nothing, awaits nothing, and nothing awaits it. -/
theorem Made.blank (hm : Made code now me l s c sched inner l') :
    c.locals = [] ∧ c.next = none ∧ c.creator = some me ∧ c.point.awaited = none := by
  cases hm <;> exact ⟨rfl, rfl, rfl, rfl⟩

/-- A timer that is new is its own. -/
theorem Made.mem_schedule (hm : Made code now me l s c sched inner l') {t : Task}
    (ht : t ∈ sched) : t ∈ s.schedule ∨ t.handle = s.seq ∧ c.point.isSleep = true := by
  cases hm with
  | call | oneway | io => exact Or.inl ht
  | sleep delay k _ =>
    rcases (List.mem_orderedInsert _).mp ht with rfl | ht
    · exact Or.inr ⟨rfl, rfl⟩
    · exact Or.inl ht

/-- It is queued if it sleeps. -/
theorem Made.count_queued (hm : Made code now me l s c sched inner l') (i : ℕ) :
    (s.ready ++ sched.map Task.handle).count i =
      s.queued.count i + if i = s.seq then if c.state = .kScheduled then 1 else 0 else 0 := by
  cases hm with
  | call | oneway | io => simp [Loop.queued, Coro.new]
  | sleep delay k _ =>
    have hperm := (List.perm_orderedInsert Task.le
      ⟨deadline now delay, s.seq⟩ s.schedule).map Task.handle
    rw [List.count_append, Task.push, hperm.count_eq, List.map_cons, List.count_cons, Loop.queued,
      List.count_append, ← Nat.add_assoc]
    by_cases hi : i = s.seq
    · simp [hi]
    · simp [hi, Ne.symm hi]

/-- It executes if its promise is oneway. -/
theorem Made.running (hm : Made code now me l s c sched inner l') (rest : List (ℕ × Loc)) :
    (inner ++ (me, l') :: rest).map Prod.fst =
      (if c.point.isRunning then [s.seq] else []) ++ me :: rest.map Prod.fst := by
  cases hm <;> rfl

end Made

/-- The front of `ready_` is taken off, to run. -/
def Loop.popped (s : Loop Loc G A X V) (h n : ℕ) (q : List ℕ) : Loop Loc G A X V :=
  .setState .kUnschedule h { s with left := n, ready := q }

/-- **What an iteration of `Runone` does**: `h`, with coroutine `c`, was the front of
`ready_`, and `s` is the state with it taken off. -/
inductive Iteration (w : World A X V) (h : ℕ) (c : Coro Loc A V) (s s' : Loop Loc G A X V) : Prop
  /-- a body begins -/
  | initial (l : Loc) : c.point = .initial l →
      s' = { s.setPoint .running h with stack := [(h, l)] } → Iteration w h c s s'
  /-- a body goes on after a `co_await` -/
  | await (d : ℕ) (k : Outcome V → Loc) (cd : Coro Loc A V) : c.point = .await d k →
      s.coros d = some cd → s' = { s.setPoint .running h with stack := [(h, k cd.get)] } →
      Iteration w h c s s'
  /-- one of the connection's throws before it suspends -/
  | refused (a : A) (e : Exn V) : c.point = .initialIo a → w.enter a s.world = .error e →
      s.finish h (.error e) = some s' → Iteration w h c s s'
  /-- its `await_suspend` throws -/
  | failed (a : A) (e : Exn V) (x x' : X) : c.point = .initialIo a → w.enter a s.world = .ok x →
      w.post a h x = (some e, x') →
      (({ s with world := x' } : Loop Loc G A X V).setState .kSuspend h).finish h (.error e) =
        some s' → Iteration w h c s s'
  /-- it suspends -/
  | posted (a : A) (x x' : X) : c.point = .initialIo a → w.enter a s.world = .ok x →
      w.post a h x = (none, x') →
      s' = (({ s with world := x' } : Loop Loc G A X V).setState .kSuspend h).setPoint (.io a) h →
      Iteration w h c s s'
  /-- a sleep is over -/
  | sleep : c.point = .sleep → s.finish h (.ok none) = some s' → Iteration w h c s s'
  /-- one of the connection's has its result -/
  | io (a : A) : c.point = .io a →
      ({ s with world := (w.resume a h s.world).2 } : Loop Loc G A X V).finish h
        (w.resume a h s.world).1 = some s' → Iteration w h c s s'

namespace Loop

variable {w : World A X V} {code : Loc → Op Loc G A V} {s s' : Loop Loc G A X V} {now : ℤ}
variable {h n : ℕ} {q : List ℕ} {c : Coro Loc A V}

@[simp] theorem popped_ready : (s.popped h n q).ready = q := rfl
@[simp] theorem popped_schedule : (s.popped h n q).schedule = s.schedule := rfl

theorem popped_coros_self (hc : s.coros h = some c) :
    (s.popped h n q).coros h = some { c with state := .kUnschedule } := by
  rw [popped, setState, modify_coros_self]
  show (s.coros h).map _ = _
  rw [hc]
  rfl

theorem popped_coros_of_ne {i : ℕ} (hi : i ≠ h) : (s.popped h n q).coros i = s.coros i :=
  modify_coros_of_ne hi

/-- What is popped reads the same, but for the front's state. -/
theorem popped_coros_eq_some {i : ℕ} (hc : (s.popped h n q).coros i = some c) :
    ∃ c₀, s.coros i = some c₀ ∧ (c = c₀ ∨ i = h ∧ c = { c₀ with state := .kUnschedule }) := by
  rcases modify_coros_eq_some.mp hc with ⟨hi, c₀, hc₀, rfl⟩ | ⟨-, hc₀⟩
  · exact ⟨c₀, by rw [hi]; exact hc₀, Or.inr ⟨hi, rfl⟩⟩
  · exact ⟨c, hc₀, Or.inl rfl⟩

/-- **Every operation is one of these.** -/
theorem operation_of_exec (hs : s.exec code now = some s') :
    ∃ me l rest, s.stack = (me, l) :: rest ∧ Operation code now me l rest s s' := by
  unfold exec at hs
  cases hstack : s.stack with
  | nil => simp [hstack] at hs
  | cons top rest =>
    obtain ⟨me, l⟩ := top
    refine ⟨me, l, rest, rfl, ?_⟩
    simp only [hstack] at hs
    cases hop : code l with
    | step f =>
      simp only [hop, Option.some.injEq] at hs
      exact .step f hop hs.symm
    | call oneway isVoid l' k =>
      simp only [hop, Option.some.injEq] at hs
      cases oneway with
      | false => exact .spawn _ _ _ _ (.call isVoid l' k hop) hs.symm
      | true => exact .spawn _ _ _ _ (.oneway isVoid l' k hop) hs.symm
    | io a k =>
      simp only [hop, Option.some.injEq] at hs
      exact .spawn _ _ _ _ (.io a k hop) hs.symm
    | sleep delay k =>
      simp only [hop, Option.some.injEq] at hs
      refine .spawn _ _ _ _ (.sleep delay k hop) (hs.symm.trans ?_)
      have hcoros : ((s.spawn (.new .sleep true (some me))).callAfter now delay s.seq).coros =
          (s.spawn { Coro.new .sleep true (some me) with state := .kScheduled }).coros :=
        funext fun i => congrFun spawn_callAfter_coros i
      have hlocal := modify_coros_congr (h := me)
        (f := fun c => { c with locals := s.seq :: c.locals }) hcoros
      exact congrArg (fun f => ({ s with
        seq := s.seq + 1
        coros := f
        schedule := Task.push ⟨deadline now delay, s.seq⟩ s.schedule
        stack := (me, k s.seq) :: rest } : Loop Loc G A X V)) hlocal
    | future d k =>
      simp only [hop] at hs
      cases hc : s.coros d with
      | none => simp [hc] at hs
      | some c =>
        simp only [hc] at hs
        split at hs
        · rename_i hholds
          cases hf : c.point.isFinal with
          | true =>
            simp only [hf, if_true, Option.some.injEq] at hs
            exact .keep d k c hop hc hholds hf hs.symm
          | false =>
            simp only [hf, Bool.false_eq_true, if_false, Option.some.injEq] at hs
            exact .future d k c hop hc hholds hf hs.symm
        · cases hs
    | await d k =>
      simp only [hop] at hs
      cases hc : s.coros d with
      | none => simp [hc] at hs
      | some c =>
        simp only [hc] at hs
        cases hf : c.point.isFinal with
        | true =>
          simp only [hf, if_true, Option.some.injEq] at hs
          exact .got d k c hop hc hf hs.symm
        | false =>
          simp only [hf, Bool.false_eq_true, if_false, Option.some.injEq] at hs
          exact .suspend d k c hop hc hf hs.symm
    | done d k =>
      simp only [hop] at hs
      cases hc : s.coros d with
      | none => simp [hc] at hs
      | some c =>
        simp only [hc, Option.some.injEq] at hs
        exact .done d k c hop hc hs.symm
    | destroy d k =>
      simp only [hop] at hs
      split at hs
      · rename_i hholds
        exact .destroy d k hop hholds (Option.some.inj hs).symm
      · cases hs
    | release d k =>
      simp only [hop] at hs
      split at hs
      · rename_i hholds
        exact .release d k hop hholds (Option.some.inj hs).symm
      · cases hs
    | ret o =>
      simp only [hop] at hs
      exact .ret o hop hs

/-- **Every iteration is one of these.** -/
theorem iteration_of_resume (hs : s.resume w = some s') :
    ∃ h n q c, s.left = n + 1 ∧ s.ready = h :: q ∧ s.coros h = some c ∧
      Iteration w h c (s.popped h n q) s' := by
  unfold resume at hs
  split at hs
  · rename_i n h q hleft hready
    cases hc : s.coros h with
    | none =>
      have hnone : (s.popped h n q).coros h = none := by
        rw [popped, setState, modify_coros_eq_none]
        exact hc
      rw [← popped, run, hnone] at hs
      cases hs
    | some c =>
      refine ⟨h, n, q, c, hleft, hready, hc, ?_⟩
      have hself : (s.popped h n q).coros h = some { c with state := .kUnschedule } :=
        popped_coros_self hc
      rw [← popped, run, hself] at hs
      cases hp : c.point with
      | initial l =>
        simp only [hp, Option.some.injEq] at hs
        exact .initial l hp hs.symm
      | initialIo a =>
        simp only [hp, startIo] at hs
        cases henter : w.enter a (s.popped h n q).world with
        | error e =>
          simp only [henter] at hs
          exact .refused a e hp henter hs
        | ok x =>
          simp only [henter] at hs
          rcases hpost : w.post a h x with ⟨_ | e, x'⟩
          · simp only [hpost, Option.some.injEq] at hs
            exact .posted a x x' hp henter hpost hs.symm
          · simp only [hpost] at hs
            exact .failed a e x x' hp henter hpost hs
      | await d k =>
        simp only [hp] at hs
        cases hd : (s.popped h n q).coros d with
        | none => simp [hd] at hs
        | some cd =>
          simp only [hd, Option.some.injEq] at hs
          exact .await d k cd hp hd hs.symm
      | sleep =>
        simp only [hp] at hs
        exact .sleep hp hs
      | io a =>
        simp only [hp] at hs
        exact .io a hp hs
      | running | final => simp [hp] at hs
  · cases hs

end Loop

end EfaExamples
