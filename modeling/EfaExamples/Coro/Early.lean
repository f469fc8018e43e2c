import EfaExamples.Coro.Asleep
import EfaExamples.Coro.Deadlines
import EfaExamples.Coro.Forward
import EfaExamples.Coro.Readings
/-!
# A sleep that ends early

A deadline is a sum of two numbers of milliseconds, each cut off. What was cut off
is missing from the sleep: the time since the last full millisecond when
`Sleep` is called, and the part of the delay below one. A sum or a product that does not fit in
64 bits makes a deadline that is past. So a sleep is as long as it is to be,
whenever `Runone` looks at the clock, only where nothing is missing.
-/

namespace EfaExamples

open Loop

section Sleep

variable {Loc G V : Type} {code : Loc → Op Loc G Empty V}
variable {σ : ℕ → Loop Loc G Empty Unit V} {clock : ℕ → ℤ} {moves : ℕ → List Task}
variable {s s' : Loop Loc G Empty Unit V} {now : ℤ} {moved : List Task} {delay : Duration}
variable {n i j k : ℕ}

/-- **A sleep**, along a run of the loop of `src/coro` by a clock that does not go back, whose
readings are 64 bits: step `i` calls `Sleep`, and step `k` resumes its coroutine, in the `Runone`
of round `j`. -/
structure Nap (code : Loc → Op Loc G Empty V) (σ : ℕ → Loop Loc G Empty Unit V) (clock : ℕ → ℤ)
    (moves : ℕ → List Task) (n : ℕ) (delay : Duration) (i j k : ℕ) : Prop where
  start : ∃ isVoid l g, σ 0 = boot isVoid l g ()
  step : ∀ m < n, StepAt coroWorld code (clock m) (moves m) (σ m) (σ (m + 1))
  clock_le : ∀ a b, a ≤ b → b < n → clock a ≤ clock b
  fits : ∀ m < n, FitsInt64 (clock m)
  sleeps : (σ i).Sleeps code delay
  round : RoundAt coroWorld (clock j) (moves j) (σ j) (σ (j + 1))
  last : ∀ m, j < m → m < k → ¬ RoundAt coroWorld (clock m) (moves m) (σ m) (σ (m + 1))
  resumed : (σ k).stack = [] ∧ (σ k).left ≠ 0 ∧ (σ k).ready.head? = some (σ i).seq
  lt : i < k ∧ j < k ∧ k < n

/-! ## A sleep is not shorter than its deadline says -/

/-- The step that calls `Sleep`. -/
theorem Loop.StepAt.of_sleeps (hs : StepAt coroWorld code now moved s s')
    (hsl : s.Sleeps code delay) : moved = [] ∧ s'.seq = s.seq + 1 ∧
      s'.schedule = Task.push ⟨deadline now delay, s.seq⟩ s.schedule := by
  obtain ⟨me, l, rest, k, hstack, hcode⟩ := hsl
  cases hs with
  | exec hs =>
    simp only [Loop.exec, hstack, hcode, Option.some.injEq] at hs
    rw [← hs]
    exact ⟨rfl, rfl, rfl⟩
  | resume hempty _ =>
    rw [hempty] at hstack
    cases hstack
  | round hs =>
    cases hs with
    | mk hhead _ _ _ =>
      rw [hhead.1] at hstack
      cases hstack
  | env hs => exact hs.elim

/-- The handles in `schedule_` have been given out. -/
theorem handle_lt (hstart : (σ 0).schedule = [])
    (hstep : ∀ m < n, StepAt coroWorld code (clock m) (moves m) (σ m) (σ (m + 1))) :
    ∀ m ≤ n, ∀ t ∈ (σ m).schedule, t.handle < (σ m).seq := by
  intro m
  induction m with
  | zero => simp [hstart]
  | succ m ih =>
    intro hm t ht
    have ih := ih (by omega)
    have hle := (step_iff_stepAt.mpr ⟨_, _, hstep m hm⟩).seq_le
    rcases (hstep m hm).schedule with ⟨delay, -, -, hseq, hsched⟩ | ⟨hsched, -⟩
    · rw [hsched] at ht
      rcases (List.mem_orderedInsert _).mp ht with rfl | ht
      · show (σ m).seq < _
        omega
      · have := ih t ht
        omega
    · have := ih t (by rw [hsched]; exact List.mem_append_right _ ht)
      omega

namespace Nap

/-- The steps of the run. -/
theorem isStep (hn : Nap code σ clock moves n delay i j k) :
    ∀ m < n, Step coroWorld code (σ m) (σ (m + 1)) := fun m hm =>
  step_iff_stepAt.mpr ⟨_, _, hn.step m hm⟩

/-- Whatever task the sleeper has, it has its deadline. -/
theorem task (hn : Nap code σ clock moves n delay i j k) :
    ∀ m, i < m → m ≤ n → ∀ t ∈ (σ m).schedule, t.handle = (σ i).seq →
      t.when = deadline (clock i) delay := by
  obtain ⟨isVoid, l, g, hstart⟩ := hn.start
  have hi : i < n := hn.lt.1.trans hn.lt.2.2
  obtain ⟨-, hseq, hpush⟩ := (hn.step i hi).of_sleeps hn.sleeps
  intro m
  induction m with
  | zero => exact fun hm => absurd hm (by omega)
  | succ m ih =>
    intro him hm t ht hh
    by_cases hmi : m = i
    · subst hmi
      rw [hpush] at ht
      rcases (List.mem_orderedInsert _).mp ht with rfl | ht
      · rfl
      · have := handle_lt (by rw [hstart, boot_eq]) hn.step m (by omega) t ht
        omega
    · have hlt := seq_le_of_le hn.isStep (j := i + 1) (i := m) (by omega) (by omega)
      rcases (hn.step m hm).schedule with ⟨d, -, -, -, hsched⟩ | ⟨hsched, -⟩
      · rw [hsched] at ht
        rcases (List.mem_orderedInsert _).mp ht with rfl | ht
        · have : (σ m).seq = (σ i).seq := hh
          omega
        · exact ih (by omega) (by omega) t ht hh
      · exact ih (by omega) (by omega) t (by rw [hsched]; exact List.mem_append_right _ ht) hh

/-- The sleeper is in nobody's way when it falls asleep. -/
theorem asleep (hn : Nap code σ clock moves n delay i j k) : Asleep (σ i) (σ i).seq := by
  obtain ⟨isVoid, l, g, hstart⟩ := hn.start
  have hi : i ≤ n := (hn.lt.1.trans hn.lt.2.2).le
  have hpos : 1 ≤ (σ i).seq := by
    have hle := seq_le_of_le hn.isStep (Nat.zero_le i) hi
    rwa [hstart, boot_eq] at hle
  have hall : ∀ m ≤ i, Asleep (σ m) (σ i).seq := by
    intro m
    induction m with
    | zero =>
      intro _
      rw [hstart]
      exact Asleep.boot (by omega)
    | succ m ih =>
      intro hm
      have hmn : m < n := by omega
      -- the handle has not been given out yet
      have hle := seq_le_of_le hn.isStep hm hi
      have hle' := seq_le_of_le hn.isStep (j := m) (i := m + 1) (by omega) hmn
      have hstep := (ih (by omega)).step (hn.step m hmn) fun h h' => absurd h (by omega)
      refine hstep.resolve_left fun hmem => ?_
      obtain ⟨t, ht, hh⟩ := List.mem_map.mp hmem
      have := handle_lt (by rw [hstart, boot_eq]) hn.step m hmn.le t
        ((hn.step m hmn).of_mem_moved ht).1
      omega
  exact hall i (le_refl i)

/-- **The round that ends the sleep** reads the clock at the deadline or after it. -/
theorem due (hn : Nap code σ clock moves n delay i j k) :
    clock i ≤ clock j ∧ deadline (clock i) delay ≤ time (clock j) := by
  obtain ⟨hik, hjk, hkn⟩ := hn.lt
  have hi : i < n := hik.trans hkn
  obtain ⟨hnil, hseq, -⟩ := (hn.step i hi).of_sleeps hn.sleeps
  have hready : ¬ Asleep (σ k) (σ i).seq := fun ha =>
    ha.ready (List.mem_of_mem_head? hn.resumed.2.2)
  -- in between a round has moved the task
  obtain ⟨m, him, hmk, ha, hna⟩ :=
    exists_step_of_not (P := fun m => Asleep (σ m) (σ i).seq) hik.le hn.asleep hready
  have hm : m < n := hmk.trans hkn
  have hmem : (σ i).seq ∈ (moves m).map Task.handle := by
    refine (ha.step (hn.step m hm) fun h _ => ?_).resolve_right hna
    rcases Nat.eq_or_lt_of_le him with rfl | hlt
    · exact ⟨delay, hn.sleeps⟩
    · have := seq_le_of_le hn.isStep (j := i + 1) (i := m) (by omega) hm.le
      omega
  obtain ⟨t, ht, hh⟩ := List.mem_map.mp hmem
  have hlt : i < m := by
    rcases Nat.eq_or_lt_of_le him with rfl | hlt
    · rw [hnil] at ht
      cases ht
    · exact hlt
  have hround := (hn.step m hm).round_of_ne_nil (List.ne_nil_of_mem ht)
  -- and the round of the `Runone` is that one, or a later one
  have hmj : m ≤ j := by
    by_contra hjm
    exact hn.last m (by omega) hmk hround
  obtain ⟨htask, hdue⟩ := (hn.step m hm).of_mem_moved ht
  rw [hn.task m hlt hm.le t htask hh] at hdue
  have hj := hn.clock_le m j hmj (by omega)
  exact ⟨hn.clock_le i j (by omega) (by omega), hdue.trans (Int.tdiv_le_tdiv (by decide) hj)⟩

end Nap

end Sleep

/-! ## A run by a given clock -/

namespace Sleeper

/-- A body that calls `Sleep` and awaits it. -/
def code (delay : Duration) : ℕ → Op ℕ Unit Empty Unit
  | 0 => .sleep delay fun _ => 1
  | 1 => .await 1 fun _ => 2
  | _ => .ret (.ok none)

/-- The clock is at `t` until `Sleep` has been called, and the next round reads `t'`. -/
def acts (t t' : ℤ) : List (Act Empty) :=
  [.round t, .resume, .exec t, .exec t, .round t', .resume]

def run (delay : Duration) (t t' : ℤ) : ℕ → Loop ℕ Unit Empty Unit Unit :=
  states coroWorld (code delay) Empty.elim (boot true 0 () ()) (acts t t')

def clock (t t' : ℤ) (i : ℕ) : ℤ := if i < 4 then t else t'

def moves (delay : Duration) (t t' : ℤ) (i : ℕ) : List Task :=
  ((acts t t').getD i .resume).moves (clock t t' i) (run delay t t' i)

/-- The body waits for the sleeper, which has the only task. -/
theorem exists_waiting (delay : Duration) (t : ℤ) : ∃ s,
    (boot true 0 () ()).trace coroWorld (code delay) Empty.elim
      [.round t, .resume, .exec t, .exec t] = some s ∧
    s.stack = [] ∧ s.left = 0 ∧ s.ready = [] ∧
    s.schedule = [⟨deadline t delay, 1⟩] ∧ (s.coros 0).isSome = true ∧
    ∃ c, s.coros 1 = some c ∧ c.point = .sleep ∧ c.next = some 0 ∧ c.locals = [] :=
  ⟨_, rfl, rfl, rfl, rfl, rfl, rfl, _, rfl, rfl, rfl, rfl⟩

/-- The round moves it, if it is due. -/
theorem exists_woken {delay : Duration} {t t' : ℤ}
    (hdue : deadline t delay ≤ time t') : ∃ s s',
    (boot true 0 () ()).trace coroWorld (code delay) Empty.elim
      [.round t, .resume, .exec t, .exec t, .round t'] = some s ∧
    s.stack = [] ∧ s.left = 1 ∧ s.ready = [1] ∧
    s.act coroWorld (code delay) Empty.elim .resume = some s' := by
  obtain ⟨s, htrace, hstack, hleft, hready, hsched, hroot, c, hc, hp, hnext, hlocals⟩ :=
    exists_waiting delay t
  have hstop : s.stopped coroWorld = false := by simp [stopped, hsched]
  have hround : s.act coroWorld (code delay) Empty.elim (.round t') = some (s.runone t') := by
    rw [act, if_pos (by simp [hstack, hleft, hstop])]
    rfl
  have hrun : s.runone t' = { s with ready := [1], schedule := [], left := 1 } := by
    simp [runone, Task.drain, hsched, hready, not_lt.mpr hdue]
  have hres : ∃ s', (s.runone t').resume coroWorld = some s' := by
    have hcoro : (setState .kUnschedule 1
        { s with ready := [], schedule := [], left := 0 }).coros 1 =
          some { c with state := .kUnschedule } := by
      rw [setState, modify_coros_self, hc]
      rfl
    have hcaller : ((setState .kUnschedule 1
        { s with ready := [], schedule := [], left := 0 }).coros 0).isSome = true := by
      rw [setState, modify_coros_isSome]
      exact hroot
    have hsleep := resume_sleep (w := coroWorld) (s := s.runone t') (n := 0) (q := [])
      (by rw [hrun]) (by rw [hrun]) (by rw [hrun]; exact hc) hp
    rw [hrun] at hsleep ⊢
    exact ⟨_, hsleep.trans (finish_eq_call hcoro hlocals hnext hcaller)⟩
  obtain ⟨s', hs'⟩ := hres
  refine ⟨s.runone t', s', ?_, by rw [hrun]; exact hstack, by rw [hrun], by rw [hrun], ?_⟩
  · rw [show ([.round t, .resume, .exec t, .exec t, .round t'] : List (Act Empty)) =
      [.round t, .resume, .exec t, .exec t] ++ [.round t'] from rfl, trace_append, htrace]
    simp only [Option.bind_some, trace, hround]
  · rw [act, hs', hrun]
    simp [hstack]

theorem stepAt {delay : Duration} {t t' : ℤ} (hdue : deadline t delay ≤ time t') :
    ∀ i < 6, StepAt coroWorld (code delay) (clock t t' i) (moves delay t t' i)
      (run delay t t' i) (run delay t t' (i + 1)) := by
  intro i hi
  obtain ⟨s, s', htrace, -, -, -, hres⟩ := exists_woken hdue
  have hsome : ((boot true 0 () ()).trace coroWorld (code delay) Empty.elim
      (acts t t')).isSome = true := by
    rw [show acts t t' = [.round t, .resume, .exec t, .exec t, .round t'] ++ [.resume] from rfl,
      trace_append, htrace]
    simp only [Option.bind_some, trace, hres]
    rfl
  have hreads : ∀ i, (hi : i < (acts t t').length) → (acts t t')[i].Reads (clock t t' i) := by
    intro i hi
    have hi : i < 6 := hi
    obtain rfl | rfl | rfl | rfl | rfl | rfl :
      i = 0 ∨ i = 1 ∨ i = 2 ∨ i = 3 ∨ i = 4 ∨ i = 5 := by omega
    all_goals first | exact rfl | exact trivial
  exact stepAt_states (fun m => m.elim) hsome hreads hi

/-- **The sleeper's nap**, from `t` to `t'`. -/
theorem nap {delay : Duration} {t t' : ℤ} (ht : FitsInt64 t) (ht' : FitsInt64 t') (hle : t ≤ t')
    (hdue : deadline t delay ≤ time t') :
    Nap (code delay) (run delay t t') (clock t t') (moves delay t t') 6 delay 2 4 5 := by
  have hstep := stepAt hdue
  obtain ⟨s, s', htrace, hstack, hleft, hready, -⟩ := exists_woken hdue
  have hwoken : run delay t t' 5 = s := by
    show ((boot true 0 () ()).trace coroWorld (code delay) Empty.elim
      [.round t, .resume, .exec t, .exec t, .round t']).getD (boot true 0 () ()) = s
    rw [htrace]
    rfl
  have hmoves : moves delay t t' 4 ≠ [] := by
    show Task.due (time t') [⟨deadline t delay, 1⟩] ≠ []
    simp [Task.due, hdue]
  refine ⟨⟨true, 0, (), rfl⟩, hstep, fun a b hab hb => ?_, fun m _ => ?_,
    ⟨0, 0, [], fun _ => 1, rfl, rfl⟩, (hstep 4 (by omega)).round_of_ne_nil hmoves,
    fun m hm hm' => by omega, ?_, by omega⟩
  · unfold clock
    split_ifs <;> omega
  · unfold clock
    split_ifs <;> assumption
  · rw [hwoken, hstack, hleft, hready]
    exact ⟨rfl, by decide, rfl⟩

end Sleeper

/-! ## Nothing may be missing -/

/-- **How long a sleep is.** A `Sleep` that is called at `t` is as long as it is to be in every run
of every program exactly if the delay is not positive, or the deadline fits in 64 bits and the
clock, which is of 64 bits in nanoseconds, does not get there, or else the cast of the delay does
not overflow and nothing is missing: from `start_` on that is if both the time of the call and the
delay are whole milliseconds. -/
theorem sleep_passedIn_iff {t : ℤ} (ht : FitsInt64 t) {delay : Duration} (hf : delay.Fits) :
    (∀ (Loc G V : Type) (code : Loc → Op Loc G Empty V) (σ : ℕ → Loop Loc G Empty Unit V)
        (clock : ℕ → ℤ) (moves : ℕ → List Task) (n i j k : ℕ),
        Nap code σ clock moves n delay i j k → clock i = t → delay.PassedIn (clock j - t)) ↔
      delay.count ≤ 0 ∨ FitsInt64 (time t + delay.toMilliseconds) ∧
        (2 ^ 63 ≤ 1000000 * (time t + delay.toMilliseconds) ∨
          FitsInt64 delay.parts ∧ delay.Whole t) := by
  rw [← forall_passedIn_iff_whole ht hf]
  constructor
  · intro h t' hle ht' hdue
    exact h _ _ _ _ _ _ _ _ _ _ _ (Sleeper.nap ht ht' hle hdue) rfl
  · intro h Loc G V code σ clock moves n i j k hn hi
    subst hi
    obtain ⟨hle, hdue⟩ := hn.due
    exact h _ hle (hn.fits j (hn.lt.2.1.trans hn.lt.2.2)) hdue

/-- A `Sleep` of 5 ms called after 2 ms is long enough. -/
theorem sleep_passedIn_whole :
    Nap (Sleeper.code ⟨5, 1, 1000⟩) (Sleeper.run ⟨5, 1, 1000⟩ 2000000 7500000)
      (Sleeper.clock 2000000 7500000) (Sleeper.moves ⟨5, 1, 1000⟩ 2000000 7500000) 6
      ⟨5, 1, 1000⟩ 2 4 5 ∧
    Duration.PassedIn ⟨5, 1, 1000⟩ (Sleeper.clock 2000000 7500000 4 - 2000000) := by
  have hfits : Duration.Fits ⟨5, 1, 1000⟩ := by
    constructor <;> decide +kernel
  have hnap := @Sleeper.nap ⟨5, 1, 1000⟩ 2000000 7500000 (by decide +kernel) (by decide +kernel)
    (by decide) (by decide +kernel)
  refine ⟨hnap, (sleep_passedIn_iff (by decide +kernel) hfits).mpr (Or.inr ⟨by decide +kernel,
    Or.inr ⟨by decide +kernel, Or.inl ?_⟩⟩) _ _ _ _ _ _ _ _ _ _ _ hnap rfl⟩
  decide +kernel

/-- One of 1 ms called 0.9 ms after the start ends 0.1 ms later. -/
theorem sleep_early :
    Nap (Sleeper.code ⟨1, 1, 1000⟩) (Sleeper.run ⟨1, 1, 1000⟩ 900000 1000000)
      (Sleeper.clock 900000 1000000) (Sleeper.moves ⟨1, 1, 1000⟩ 900000 1000000) 6
      ⟨1, 1, 1000⟩ 2 4 5 ∧
    Sleeper.clock 900000 1000000 2 = 900000 ∧ Sleeper.clock 900000 1000000 4 = 1000000 ∧
    ¬ Duration.PassedIn ⟨1, 1, 1000⟩ (1000000 - 900000) :=
  ⟨Sleeper.nap (by decide +kernel) (by decide +kernel) (by decide) (by decide +kernel), rfl, rfl,
    by decide⟩

end EfaExamples
