import Mathlib.Order.Defs.PartialOrder
import EfaExamples.Coro.Change
/-!
# Assertions on programs

A proof rule for coroutine programs, well behaved or not. The assertions are
on the locations of the bodies, on the operations of the connection they call,
and on the values that coroutines return, and they may rest on what has
happened, which is a world that only grows. If they lead on from one operation
of the program to the next (`Assertions.Met`), and hold of what the selector
hands over, they hold along every run (`Assertions.Hold.step`).
-/

namespace EfaExamples

open Loop

variable {W : Type} [Preorder W] {Loc G A X V : Type}

/-- **What is asserted** in a world: of the locations the bodies come to, of the
operations they call, and of the values that are returned. -/
structure Assertions (W : Type) [Preorder W] (Loc A V : Type) where
  loc : W → Loc → Prop
  op : A → Prop
  val : W → V → Prop
  loc_mono : ∀ u u' l, u ≤ u' → loc u l → loc u' l
  val_mono : ∀ u u' v, u ≤ u' → val u v → val u' v

namespace Assertions

variable (P : Assertions W Loc A V) (u : W)

/-- What is returned, if a value is. -/
def Out (o : Outcome V) : Prop := ∀ v, o = .ok (some v) → P.val u v

/-- A continuation, whenever it goes on. -/
def After (k : Outcome V → Loc) : Prop := ∀ u', u ≤ u' → ∀ o, P.Out u' o → P.loc u' (k o)

/-- **From what is asserted an operation leads to what is asserted.** -/
def Leads : Op Loc G A V → Prop
  | .step f => ∀ m, P.loc u (f m).2
  | .call _ _ l k => P.loc u l ∧ ∀ h, P.loc u (k h)
  | .io a k => P.op a ∧ ∀ h, P.loc u (k h)
  | .sleep _ k => ∀ h, P.loc u (k h)
  | .await _ k => P.After u k
  | .done _ k => ∀ b, P.loc u (k b)
  | .future _ k | .destroy _ k | .release _ k => P.loc u k
  | .ret o => P.Out u o

/-- The program meets the assertions. -/
def Met (code : Loc → Op Loc G A V) : Prop := ∀ u l, P.loc u l → P.Leads u (code l)

/-- What is asserted of a suspension point. -/
def At : Point Loc A V → Prop
  | .initial l => P.loc u l
  | .initialIo a | .io a => P.op a
  | .await _ k => P.After u k
  | .running | .sleep | .final => True

/-- **The assertions hold of a state.** -/
structure Hold (s : Loop Loc G A X V) : Prop where
  stack : ∀ p ∈ s.stack, P.loc u p.2
  point : ∀ h c, s.coros h = some c → P.At u c.point
  result : ∀ h c, s.coros h = some c → P.Out u c.get

variable {P u} {w : World A X V} {code : Loc → Op Loc G A V} {s s' : Loop Loc G A X V}

theorem out_error (e : Exn V) : P.Out u (.error e) := fun v hv => by cases hv

theorem out_none : P.Out u (.ok none) := fun v hv => by cases hv

/-- What a body returns that has not ended. -/
theorem out_new {c : Coro Loc A V} (hc : c.result = none) : P.Out u c.get := by
  unfold Coro.get
  rw [hc]
  dsimp only
  split
  · exact out_none (P := P)
  · exact out_error (P := P) _

theorem Out.mono {u' : W} {o : Outcome V} (ho : P.Out u o) (hu : u ≤ u') : P.Out u' o :=
  fun v hv => P.val_mono u u' v hu (ho v hv)

/-- **They hold in every later world.** -/
theorem Hold.mono {u' : W} (hh : P.Hold u s) (hu : u ≤ u') : P.Hold u' s := by
  refine ⟨fun p hp => P.loc_mono u u' _ hu (hh.stack p hp), fun h c hc => ?_,
    fun h c hc => (hh.result h c hc).mono hu⟩
  have hp := hh.point h c hc
  cases hpoint : c.point <;> rw [hpoint] at hp
  case initial l => exact P.loc_mono u u' l hu hp
  case initialIo a => exact hp
  case io a => exact hp
  case await d k => exact fun u₂ hu₂ => hp u₂ (le_trans hu hu₂)
  case running => trivial
  case sleep => trivial
  case final => trivial

/-- The coroutine that an operation makes. -/
theorem Leads.made {now : ℤ} {me : ℕ} {l l' : Loc} {c : Coro Loc A V} {sched : List Task}
    {inner : List (ℕ × Loc)} (hl : P.Leads u (code l)) (hm : Made code now me l s c sched inner l') :
    P.At u c.point ∧ c.result = none ∧ P.loc u l' ∧ ∀ p ∈ inner, P.loc u p.2 := by
  cases hm with
  | call isVoid l₁ k hop =>
    rw [hop] at hl
    exact ⟨hl.1, rfl, hl.2 _, fun p hp => by cases hp⟩
  | oneway isVoid l₁ k hop =>
    rw [hop] at hl
    exact ⟨trivial, rfl, hl.2 _, fun p hp => List.mem_singleton.mp hp ▸ hl.1⟩
  | io a k hop =>
    rw [hop] at hl
    exact ⟨hl.1, rfl, hl.2 _, fun p hp => by cases hp⟩
  | sleep delay k hop =>
    rw [hop] at hl
    exact ⟨trivial, rfl, hl _, fun p hp => by cases hp⟩

/-- Where the bodies are after an operation. -/
theorem Hold.stack_exec {now : ℤ} (hh : P.Hold u s) (hmet : P.Met code)
    (hs : s.exec code now = some s') : ∀ p ∈ s'.stack, P.loc u p.2 := by
  obtain ⟨me, l, rest, hstack, hop⟩ := operation_of_exec hs
  have hl : P.Leads u (code l) := hmet u l (hh.stack (me, l) (hstack ▸ List.mem_cons_self))
  have hrest : ∀ p ∈ rest, P.loc u p.2 :=
    fun p hp => hh.stack p (hstack ▸ List.mem_cons_of_mem _ hp)
  have hcons : ∀ {l' : Loc}, P.loc u l' → ∀ p ∈ (me, l') :: rest, P.loc u p.2 := by
    rintro l' hl' p (_ | ⟨_, hp⟩)
    · exact hl'
    · exact hrest p hp
  cases hop with
  | step f hop he =>
    subst he
    rw [hop] at hl
    exact hcons (hl _)
  | spawn c sched inner l' hmade he =>
    subst he
    obtain ⟨-, -, hl', hinner⟩ := hl.made hmade
    intro p hp
    rcases List.mem_append.mp hp with hp | hp
    · exact hinner p hp
    · exact hcons hl' p hp
  | keep d k c hop _ _ _ he | future d k c hop _ _ _ he =>
    subst he
    rw [hop] at hl
    exact hcons hl
  | got d k c hop hc _ he =>
    subst he
    rw [hop] at hl
    exact hcons (hl u le_rfl _ (hh.result d c hc))
  | suspend d k c _ _ _ he =>
    subst he
    rw [awaitSuspend, schedule_stack]
    exact hrest
  | done d k c hop _ he =>
    subst he
    rw [hop] at hl
    exact hcons (hl _)
  | destroy d k hop _ he =>
    subst he
    rw [hop] at hl
    rw [(erased_destroy _ _ _).stack]
    exact hcons hl
  | release d k hop _ he =>
    subst he
    rw [hop] at hl
    exact hcons hl
  | ret o _ hs =>
    obtain ⟨-, -, s₁, he, -, ⟨-, rfl⟩ | ⟨p, cp, -, -, rfl⟩⟩ := finish_cases hs
    · exact he.stack ▸ hrest
    · exact he.stack ▸ hrest

/-- Where the body is that `Runone` resumes. -/
theorem Hold.stack_resume (hh : P.Hold u s) (hstack : s.stack = []) (hs : s.resume w = some s') :
    ∀ p ∈ s'.stack, P.loc u p.2 := by
  obtain ⟨i, n, q, ci, -, hready, hci, hit⟩ := iteration_of_resume hs
  have hend : ∀ {o : Outcome V} {s₁ : Loop Loc G A X V}, s₁.finish i o = some s' →
      s₁.stack = [] → ∀ p ∈ s'.stack, P.loc u p.2 := by
    intro o s₁ hf hnil p hp
    have hstack' : s'.stack = s₁.stack := by
      obtain ⟨-, -, s₂, he, -, ⟨-, rfl⟩ | ⟨p, cp, -, -, rfl⟩⟩ := finish_cases hf
      · exact he.stack
      · exact he.stack
    rw [hstack', hnil] at hp
    cases hp
  have hpoint := hh.point i ci hci
  cases hit with
  | initial l hp he =>
    subst he
    rw [hp] at hpoint
    exact fun p hm => List.mem_singleton.mp hm ▸ hpoint
  | await d k cd hp hd he =>
    subst he
    rw [hp] at hpoint
    obtain ⟨c, hc, -, hg⟩ := Kept.modify hd (fun _ => rfl) fun _ => rfl
    exact fun p hm => List.mem_singleton.mp hm ▸ hpoint u le_rfl _ (hg ▸ hh.result d c hc)
  | refused a e _ _ hf | failed a e x x' _ _ _ hf | sleep _ hf | io a _ hf => exact hend hf hstack
  | posted a x x' _ _ _ he =>
    subst he
    intro p hm
    have hm : p ∈ s.stack := hm
    rw [hstack] at hm
    cases hm

/-- **The rule.** A step leads to what is asserted, if the program meets the
assertions, and if what an operation returns is as asserted. -/
theorem Hold.step (hh : P.Hold u s) (hmet : P.Met code) (hs : Step w code s s')
    (hres : ∀ h q c a, s.stack = [] → s.ready = h :: q → s.coros h = some c → c.point = .io a →
      P.Out u (w.resume a h s.world).1) : P.Hold u s' := by
  have hchange : ∀ h c', s'.coros h = some c' → P.At u c'.point ∧ P.Out u c'.get := by
    intro h c' hc'
    cases hs.change hc' with
    | kept hk =>
      obtain ⟨c, hc, hp, hg⟩ := hk
      rw [hp, hg]
      exact ⟨hh.point h c hc, hh.result h c hc⟩
    | made now me l rest c sched inner l' hstack hmade _ _ hp hg =>
      have hl := hmet u l (hh.stack (me, l) (hstack ▸ List.mem_cons_self))
      obtain ⟨hat, hnone, -⟩ := hl.made hmade
      rw [hp, hg]
      exact ⟨hat, out_new hnone⟩
    | suspended c l rest d k hc hstack hop hp hg =>
      have hl := hmet u l (hh.stack (h, l) (hstack ▸ List.mem_cons_self))
      rw [hop] at hl
      rw [hp, hg]
      exact ⟨hl, hh.result h c hc⟩
    | running c hc hp hg =>
      rw [hp, hg]
      exact ⟨trivial, hh.result h c hc⟩
    | posted c q a hc _ _ hpc hp hg =>
      have := hh.point h c hc
      rw [hpc] at this
      rw [hp, hg]
      exact ⟨this, hh.result h c hc⟩
    | ended c o hc hends hp hg =>
      rw [hp, hg]
      refine ⟨trivial, ?_⟩
      cases hends with
      | ret l rest hstack hop =>
        have hl := hmet u l (hh.stack (h, l) (hstack ▸ List.mem_cons_self))
        rwa [hop] at hl
      | sleep q _ _ _ ho =>
        rw [ho]
        exact out_none
      | enterIo q a _ _ _ he _ =>
        obtain ⟨e, rfl⟩ := he
        exact out_error e
      | io q a hstack hready hpc ho =>
        rw [ho]
        exact hres h q c a hstack hready hc hpc
  refine ⟨?_, fun h c' hc' => (hchange h c' hc').1, fun h c' hc' => (hchange h c' hc').2⟩
  cases hs with
  | exec now hs => exact hh.stack_exec hmet hs
  | resume hstack hs => exact hh.stack_resume hstack hs
  | round hr =>
    obtain @⟨s₁, now, events, x, hhead, -, -, hcall⟩ := hr
    intro p hp
    have hstack : s₁.stack = s.stack := callAll_stack (s := { s with world := x }) hcall
    have hp : p ∈ s₁.stack := hp
    rw [hstack, hhead.1] at hp
    cases hp
  | env henv => exact hh.stack

/-- **Before the first step.** -/
theorem Hold.boot {isVoid : Bool} {l : Loc} {g : G} {x : X} (hl : P.loc u l) :
    P.Hold u (Loop.boot isVoid l g x : Loop Loc G A X V) := by
  have hroot : ∀ h c, (Loop.boot isVoid l g x : Loop Loc G A X V).coros h = some c →
      c = { Coro.new (.initial l) isVoid none with state := .kScheduled } := by
    intro h c hc
    rw [boot_eq] at hc
    have hc : (if h = 0 then _ else none) = some c := hc
    split at hc
    · exact (Option.some.inj hc).symm
    · cases hc
  refine ⟨fun p hp => ?_, fun h c hc => ?_, fun h c hc => ?_⟩
  · rw [boot_eq] at hp
    cases hp
  · rw [hroot h c hc]
    exact hl
  · rw [hroot h c hc]
    exact out_new rfl

end Assertions

end EfaExamples
