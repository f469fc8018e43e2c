import EfaExamples.Coro.Dangling
import EfaExamples.Efa.Resumption
/-!
# Destroyed coroutines and the selector

Outside the loop a coroutine is referred to by the registration of its
`Read`, and by the operation of its the fabric has not handed back. With the
three places inside the loop these are all the places `Runone` and
`HandleCompletion` take a handle from. `Coro::Destroy` cleans none of them,
since `IO::Cancel` is a TODO, so whether a handle dangles is up to what is
destroyed and when.
-/

namespace EfaExamples

open Loop

variable {Loc G : Type} {code : Loc → Op Loc G ConnOp Val}
variable {s s' : Loop Loc G ConnOp Fabric Val} {h : ℕ}

/-- The selector or the fabric has a context of the coroutine. -/
def Fabric.Refers (f : Fabric) (h : ℕ) : Prop :=
  (∃ id, f.immDataContexts id = some h) ∨ h ∈ f.outstanding

/-- Only a post gives the selector or the fabric a context. -/
theorem efaWorld_keeps : efaWorld.Keeps Fabric.Refers where
  enter := by
    intro a f f' i hs hi
    obtain ⟨mem, rfl⟩ := ConnOp.enter_ok hs
    exact hi
  post := by
    intro a h f i hi
    cases hp : a.post h f with
    | mk o f' =>
      rw [show efaWorld.post a h f = (o, f') from hp] at hi
      cases o with
      | some e =>
        rw [show f' = f from ConnOp.post_error hp] at hi
        exact Or.inl hi
      | none =>
        rcases ConnOp.post_ok hp with ⟨req, -, rfl⟩ | ⟨-, rfl⟩
        · rcases hi with hi | hi
          · exact Or.inl (Or.inl hi)
          · simp only [Fabric.outstanding, List.map_append, List.mem_append, List.map_cons,
              List.map_nil, List.mem_singleton] at hi
            rcases hi with (hi | rfl) | hi
            · exact Or.inl (Or.inr (List.mem_append_left _ hi))
            · exact Or.inr rfl
            · exact Or.inl (Or.inr (List.mem_append_right _ hi))
        · rcases hi with ⟨id, hi⟩ | hi
          · rcases Fabric.registered_of_register hi with hi | ⟨-, rfl⟩
            · exact Or.inl (Or.inl ⟨id, hi⟩)
            · exact Or.inr rfl
          · exact Or.inl (Or.inr hi)
  resume := by
    intro a h f i hi
    obtain ⟨heq, himm⟩ := ConnOp.resume_snd a h f
    rcases hi with ⟨id, hi⟩ | hi
    · left
      rw [show (efaWorld.resume a h f).2.immDataContexts = _ from himm] at hi
      split at hi
      · exact ⟨id, (Fabric.registered_of_unRegister hi).1⟩
      · exact ⟨id, hi⟩
    · right
      rw [show (efaWorld.resume a h f).2 = _ from heq] at hi
      exact hi
  poll := by
    intro f events f' i hs hi
    have tk := Fabric.taken_of_select hs
    rcases hi with ⟨id, hi⟩ | hi
    · exact Or.inl ⟨id, by rw [← tk.immDataContexts]; exact hi⟩
    · exact Or.inr (tk.outstanding_perm.subset (List.mem_append_right _ hi))
  events := by
    intro f events f' i hs hi
    have tk := Fabric.taken_of_select hs
    rw [tk.events_eq] at hi
    obtain ⟨e, he, hc⟩ := List.mem_filterMap.mp hi
    rcases Fabric.operation_or_registered hc with ho | ⟨-, -, hr⟩
    · exact Or.inr (tk.outstanding_perm.subset
        (List.mem_append_left _ (List.mem_filterMap.mpr ⟨e, he, ho⟩)))
    · exact Or.inl ⟨_, hr⟩
  env := by
    rintro f f' i ⟨m, hm⟩ hi
    obtain ⟨hmoved, himm, -⟩ := Fabric.moved_of_move hm
    rcases hi with ⟨id, hi⟩ | hi
    · exact Or.inl ⟨id, by rw [← himm]; exact hi⟩
    · exact Or.inr (hmoved.outstanding_perm.subset hi)

/-- **`Runone` or `HandleCompletion` is about to touch the coroutine**: it is the
front of `ready_`, or the context of a completion `Select` will take. -/
inductive Touched (s : Loop Loc G ConnOp Fabric Val) (h : ℕ) : Prop
  | runone (q : List ℕ) : s.stack = [] → s.left ≠ 0 → s.ready = h :: q → Touched s h
  | handleCompletion (e : Entry) : s.AtHead → e ∈ s.world.batch → s.world.context e = some h →
      Touched s h

/-- Whoever is touched is referred to. -/
theorem Touched.refers (ht : Touched s h) : Refers Fabric.Refers s h := by
  cases ht with
  | runone q _ _ hready => exact .ready (by rw [hready]; exact List.mem_cons_self)
  | handleCompletion e _ he hc =>
    refine .world ?_
    rcases Fabric.operation_or_registered hc with ho | ⟨-, -, hr⟩
    · obtain ⟨cq, hq⟩ := Contexts.mem_completions_of_batch he
      exact Or.inr (List.mem_append_right _ (List.mem_filterMap.mpr ⟨_, hq, ho⟩))
    · exact Or.inl ⟨_, hr⟩

/-- **No reference dangles**: right after a destruction as before it, and so
only coroutines that exist are touched. -/
structure Live (code : Loc → Op Loc G ConnOp Val) (s : Loop Loc G ConnOp Fabric Val) : Prop where
  noDangling : NoDangling Fabric.Refers s
  destroyed : ∀ s₁ ∈ s.destruction code, NoDangling Fabric.Refers s₁
  touched : ∀ h, Touched s h → (s.coros h).isSome = true

/-- **A destroyed coroutine is never referred to or run, exactly if none is
destroyed that is referred to**: along any run, of any program and under any
behaviour of the fabric, no reference to a destroyed coroutine is left if
and only if each one destroyed was, just before, in neither queue, nobody's
`next` of those that stay, not registered, and of no operation the fabric
still has. -/
theorem live_iff {isVoid : Bool} {l : Loc} {g : G} {σ : ℕ → Loop Loc G ConnOp Fabric Val} {n : ℕ}
    (hrun : IsRun (Started isVoid l g) (Step efaWorld code) σ n) :
    (∀ i ≤ n, Live code (σ i)) ↔ ∀ i ≤ n, CleanDestruction Fabric.Refers code (σ i) := by
  have hinit : ∀ s, Started isVoid l g s → Frames s ∧ NoDangling Fabric.Refers s := by
    rintro s ⟨f, hf, rfl⟩
    refine ⟨Frames.boot isVoid l g f, NoDangling.boot isVoid l g ?_⟩
    rintro i (⟨id, hi⟩ | hi)
    · rw [hf.immDataContexts] at hi
      cases hi
    · rw [Fabric.outstanding, hf.inflight] at hi
      obtain ⟨q, hq, ho⟩ := List.mem_filterMap.mp hi
      rw [hf.completions q hq] at ho
      cases ho
  rw [← noDangling_run_iff efaWorld_keeps hinit hrun]
  constructor
  · exact fun hl i hi => ⟨(hl i hi).noDangling, (hl i hi).destroyed⟩
  · exact fun hd i hi => ⟨(hd i hi).1, (hd i hi).2, fun h ht => (hd i hi).1 h ht.refers⟩

/-! ## A sleep that is given up -/

/-- A body that drops a sleep of 5 ms before it is due. -/
def dropCode : ℕ × ℕ → Op (ℕ × ℕ) Unit ConnOp Val
  | (0, _) => .sleep ⟨5, 1, 1000⟩ fun h => (1, h)
  | (1, h) => .destroy h (2, h)
  | _ => .ret (.ok none)

/-- Its states up to the moment the timer has fired. -/
def dropped : ℕ → Loop (ℕ × ℕ) Unit ConnOp Fabric Val :=
  states efaWorld dropCode Fabric.move (boot true (0, 0) () quiet)
    [.round 0, .resume, .exec 0, .exec 0, .exec 0, .round 10000000]

theorem dropped_isRun : IsRun (Started true (0, 0) ()) (Step efaWorld dropCode) dropped 6 :=
  isRun_states efaWorld_move ⟨quiet, quiet_idle, rfl⟩ (by decide +kernel)

/-- The dropped sleep's handle stays in `schedule_`. -/
theorem dropped_not_noDangling : ¬ NoDangling Fabric.Refers (dropped 4) := by
  intro nd
  have hl := nd 1 (.schedule (by decide +kernel))
  have hgone : ((dropped 4).coros 1).isSome = false := by decide +kernel
  rw [hgone] at hl
  cases hl

/-- Its destruction was not clean. -/
theorem live_iff_dropped : ¬ ∀ i ≤ 6, CleanDestruction Fabric.Refers dropCode (dropped i) :=
  fun hclean => dropped_not_noDangling ((live_iff dropped_isRun).mpr hclean 4 (by decide)).noDangling

/-- **A sleep that is dropped stays in `schedule_`**, and when its timer fires
`Runone` takes the handle of a coroutine that is gone. -/
theorem dropped_dangles :
    IsRun (Started true (0, 0) ()) (Step efaWorld dropCode) dropped 6 ∧
      ¬ NoDangling Fabric.Refers (dropped 4) ∧
      ∃ h, Touched (dropped 6) h ∧ ((dropped 6).coros h).isSome = false := by
  refine ⟨dropped_isRun, dropped_not_noDangling, 1, .runone [] ?_ ?_ ?_, ?_⟩
  all_goals decide +kernel

end EfaExamples
