import EfaExamples.Coro.Awaits
import EfaExamples.Coro.Scheduler
/-!
# Shared coroutines

Any coroutine that can name another may await it, not only the one that made
it. The promise has room for one `next`, so of those that come before the end
only the last is called. As long as each finds the place free, whoever waits
is called at the end, and everybody gets the result that was stored.
-/

namespace EfaExamples

open Loop

variable {Loc G V : Type} (code : Loc → Op Loc G Empty V)

/-- Nothing refers to `h` but what goes with it: it is in no queue, does not
execute, and is the `next` of nothing that is left and still has to end. -/
def Detached (s s' : Loop Loc G Empty Unit V) (h : ℕ) : Prop :=
  h ∉ s.queued ∧ h ∉ s.running ∧ ∀ i < s.seq, ∀ c ∈ s.coros i,
    (s'.coros i).isSome = true → c.point.isFinal = false → c.next ≠ some h

instance (s s' : Loop Loc G Empty Unit V) (h : ℕ) : Decidable (Detached s s' h) :=
  inferInstanceAs (Decidable (_ ∧ _ ∧ ∀ i < s.seq, _))

/-- **Nothing is left dangling**: a body awaits nothing that is executing, and
destroys only what nothing refers to. -/
structure Shares (s s' : Loop Loc G Empty Unit V) : Prop where
  await : ∀ p ∈ s.awaiting code, p.2 ∉ s.running
  destroy : ∀ h < s.seq, (s.coros h).isSome = true → (s'.coros h).isNone = true →
    Detached s s' h

instance (s s' : Loop Loc G Empty Unit V) : Decidable (Shares code s s') :=
  decidable_of_iff (_ ∧ _) ⟨fun h => ⟨h.1, h.2⟩, fun h => ⟨h.await, h.destroy⟩⟩

variable {code} {s s' : Loop Loc G Empty Unit V} {h d : ℕ} {c c' cd cd' : Coro Loc Empty V}

/-- Such a step is one the table allows. -/
theorem Shares.stepOk (hsh : Shares code s s') (t : Table none s) : StepOk coroWorld code s s' where
  clean h hh hgone := by
    obtain ⟨c, hc⟩ := Option.isSome_iff_exists.mp hh
    obtain ⟨hq, hr, hn⟩ := hsh.destroy h (t.fresh h c hc) hh (by rw [hgone]; rfl)
    exact ⟨List.count_eq_zero.mpr hq, hr, fun i ci hi => hn i (t.fresh i ci hi) ci hi⟩
  await me l rest d k hstack hop := hsh.await _ (awaiting_eq hstack hop)
  events _ events x hpoll := by
    simp only [coroWorld, Prod.mk.injEq, Except.ok.injEq] at hpoll
    rw [← hpoll.1]
    exact ⟨List.nodup_nil, fun h hh => by cases hh⟩

/-- **Whoever is suspended on a coroutine that is there is its `next`**, and
it still has to end. -/
def Linked (s : Loop Loc G Empty Unit V) : Prop :=
  ∀ h c d, s.coros h = some c → c.point.awaited = some d → c.state = .kSuspend →
    d < s.seq ∧ ∀ cd, s.coros d = some cd → cd.point.isFinal = false ∧ cd.next = some h

/-- Whoever has ended has stored a result. -/
def Stored (s : Loop Loc G Empty Unit V) : Prop :=
  ∀ d c, s.coros d = some c → c.point.isFinal = true → ∃ o, c.result = some o

section Step

variable (t : Table none s) (hs : Step coroWorld code s s') (ok : StepOk coroWorld code s s')

include t hs ok

theorem Linked.step (hl : Linked s) (hone : AwaitedOnce code s) : Linked s' := by
  intro h c' d hc' haw hst
  rcases waited_or_suspends t hs ok hc' haw hst with
    ⟨c, hc, haw₀, hst₀⟩ | ⟨l, rest, k, cd, hstack, hop, hd, hf, hd'⟩
  · obtain ⟨hlt, hnext⟩ := hl h c d hc haw₀ hst₀
    refine ⟨hlt.trans_le hs.seq_le, fun cd' hd' => ?_⟩
    cases hd : s.coros d with
    | none =>
      rw [gone_step hs hlt hd] at hd'
      cases hd'
    | some cd =>
      obtain ⟨hf, hn⟩ := hnext cd hd
      exact (hs.row t ok.await hd hd').next_kept hd hf hn hone hc' hst
  · refine ⟨(t.fresh d cd hd).trans_le hs.seq_le, fun cd' hd₁ => ?_⟩
    rw [hd'] at hd₁
    obtain rfl := Option.some.inj hd₁
    exact ⟨hf, rfl⟩

theorem Stored.step (hst : Stored s) : Stored s' := by
  intro d c' hc' hf
  cases hc : s.coros d with
  | none =>
    obtain ⟨-, me, l, rest, p, isVoid, st, -, -, hp, ls, rfl⟩ := hs.fresh_row hc hc'
    change p.isFinal = true at hf
    rw [Point.eq_final hf] at hp
    simp [Point.isInitial, Point.isRunning, Point.isSleep] at hp
  | some c =>
    cases (hs.row t ok.await hc hc').pointStep with
    | kept hp hres _ =>
      rw [hp] at hf
      rw [hres]
      exact hst d c hc hf
    | ended o _ _ hres => exact ⟨o, hres⟩
    | suspended _ _ _ _ _ _ _ hp | resumed _ _ _ _ _ _ hp | posted _ _ _ _ _ hp =>
      rw [hp] at hf
      cases hf

end Step

/-- **A `co_await`**: it goes on at once with the result, or suspends. -/
theorem await_eq (hs : Step coroWorld code s s') {l : Loc} {rest : List (ℕ × Loc)}
    {k : Outcome V → Loc} (hstack : s.stack = (h, l) :: rest) (hop : code l = .await d k) :
    ∃ cd, s.coros d = some cd ∧
      (cd.point.isFinal = true ∧ s' = { s with stack := (h, k cd.get) :: rest } ∨
        cd.point.isFinal = false ∧ s' = { s with stack := rest }.awaitSuspend h d k) := by
  cases hs with
  | exec now hs =>
    simp only [Loop.exec, hstack, hop] at hs
    split at hs
    · rename_i cd hd
      refine ⟨cd, hd, ?_⟩
      split at hs
      · rename_i hf
        exact Or.inl ⟨hf, (Option.some.inj hs).symm⟩
      · rename_i hf
        exact Or.inr ⟨by simpa using hf, (Option.some.inj hs).symm⟩
    · cases hs
  | resume hempty _ => rw [hempty] at hstack; cases hstack
  | round hs =>
    obtain ⟨hhead, -, -, -⟩ := hs
    rw [hhead.1] at hstack
    cases hstack
  | env hs => exact hs.elim

/-! ## Along a run -/

/-- The `co_await` of `d` in which `h` suspends in step `i` is resumed in one
step of the run, and goes on with `o`. -/
def WokenOnce (σ : ℕ → Loop Loc G Empty Unit V) (n i h d : ℕ) (k : Outcome V → Loc)
    (o : Outcome V) : Prop :=
  ∃ j, i < j ∧ j < n ∧ Resumes (σ j) (σ (j + 1)) h d ∧ (σ (j + 1)).stack = [(h, k o)] ∧
    ∀ j' < n, Resumes (σ j') (σ (j' + 1)) h d → j' = j

section Run

variable {isVoid : Bool} {l : Loc} {g : G} {σ : ℕ → Loop Loc G Empty Unit V} {n : ℕ}
variable (hrun : IsRun (· = boot isVoid l g ()) (Step coroWorld code) σ n)
variable (hsh : ∀ i < n, Shares code (σ i) (σ (i + 1)))

include hrun hsh

theorem table_of_shares : ∀ i ≤ n, Table none (σ i) := by
  refine hrun.invariant_of_guard (Table none) (Shares code) ?_ ?_ hsh
  · rintro s rfl
    exact Table.boot isVoid l g ()
  · exact fun s s' t hs hsh => t.step hs (hsh.stepOk t)

theorem stepOk_of_shares : ∀ i < n, StepOk coroWorld code (σ i) (σ (i + 1)) :=
  fun i hi => (hsh i hi).stepOk (table_of_shares hrun hsh i (by omega))

/-- A result that was stored stays the same. -/
theorem result_eq {j i : ℕ} (hji : j ≤ i) (hi : i ≤ n) (hd : (σ j).coros d = some cd)
    (hf : cd.point.isFinal = true) (hd' : (σ i).coros d = some cd') : cd'.result = cd.result := by
  have ht := table_of_shares hrun hsh
  obtain ⟨m, rfl⟩ := Nat.exists_eq_add_of_le hji
  clear hji
  induction m generalizing cd' with
  | zero =>
    rw [Nat.add_zero, hd] at hd'
    rw [Option.some.inj hd']
  | succ m ih =>
    have hlt : d < (σ (j + m)).seq :=
      ((ht j (by omega)).fresh d cd hd).trans_le (seq_le_of_le hrun.next (by omega) (by omega))
    obtain ⟨c, hc⟩ := exists_of_exists hrun (show j + m ≤ j + (m + 1) by omega) hi hlt hd'
    have hover : (σ (j + m)).Over d := by
      refine over_of_over hrun ht (stepOk_of_shares hrun hsh) (by omega) (by omega)
        ⟨(ht j (by omega)).fresh d cd hd, fun c hc => ?_⟩
      rw [hd] at hc
      rwa [← Option.some.inj hc]
    rw [← ih (by omega) hc]
    exact (final_step (ht (j + m) (by omega)) (hrun.next (j + m) (by omega))
      (stepOk_of_shares hrun hsh (j + m) (by omega)) hc (hover.2 c hc) hd').2

variable (hone : ∀ i < n, AwaitedOnce code (σ i))

include hone

theorem linked_of_run : ∀ i ≤ n, Linked (σ i) ∧ Stored (σ i) := by
  intro i
  induction i with
  | zero =>
    intro _
    rw [hrun.start]
    have hpoint : ∀ h (c : Coro Loc Empty V), (boot isVoid l g () : Loop Loc G Empty Unit V).coros h =
        some c → c.point = .initial l := by
      intro h c hc
      simp only [boot, Handle.schedule] at hc
      rcases modify_coros_eq_some.mp hc with ⟨rfl, c₀, hc₀, rfl⟩ | ⟨hne, hc₀⟩
      · obtain rfl := Option.some.inj hc₀
        rfl
      · simp [hne] at hc₀
    constructor
    · intro h c d hc haw
      rw [hpoint h c hc] at haw
      cases haw
    · intro d c hc hf
      rw [hpoint d c hc] at hf
      cases hf
  | succ i ih =>
    intro hi
    obtain ⟨hl, hst⟩ := ih (by omega)
    have t := table_of_shares hrun hsh i (by omega)
    have ok := stepOk_of_shares hrun hsh i (by omega)
    exact ⟨hl.step t (hrun.next i (by omega)) ok (hone i (by omega)),
      hst.step t (hrun.next i (by omega)) ok⟩

/-- Once it is done, nobody is suspended on it any more. -/
theorem not_suspended_of_final {m i : ℕ} (hmi : m ≤ i) (hi : i ≤ n) (hd : (σ m).coros d = some cd)
    (hf : cd.point.isFinal = true) (hc : (σ i).coros h = some c) (haw : c.point.awaited = some d) :
    c.state ≠ .kSuspend := by
  have ht := table_of_shares hrun hsh
  have hok := stepOk_of_shares hrun hsh
  obtain ⟨j, rfl⟩ := Nat.exists_eq_add_of_le hmi
  clear hmi
  induction j generalizing c with
  | zero =>
    intro hst
    have := (((linked_of_run hrun hsh hone m (by omega)).1 h c d hc haw hst).2 cd hd).1
    rw [hf] at this
    cases this
  | succ j ih =>
    intro hst
    rcases waited_or_suspends (ht (m + j) (by omega)) (hrun.next (m + j) (by omega))
      (hok (m + j) (by omega)) hc haw hst with
      ⟨c₀, hc₀, haw₀, hst₀⟩ | ⟨_, _, _, cd₀, -, -, hd₀, hf₀, -⟩
    · exact ih haw₀ (by omega) hc₀ hst₀
    · have hover := over_of_over hrun ht hok (show m ≤ m + j by omega) (by omega)
        ⟨(ht m (by omega)).fresh d cd hd, fun c hc => by
          rw [hd] at hc
          rwa [← Option.some.inj hc]⟩
      rw [hover.2 cd₀ hd₀] at hf₀
      cases hf₀

/-- Nobody who waits for a coroutine that ends in the run is destroyed. -/
theorem exists_of_awaiting_final {m i : ℕ} (hm : m ≤ n) (hi : i < n)
    (hd : (σ m).coros d = some cd) (hf : cd.point.isFinal = true)
    (hc : (σ i).coros h = some c) (haw : c.point.awaited = some d) :
    (σ (i + 1)).coros h ≠ none := by
  intro hgone
  have ht := table_of_shares hrun hsh
  have t := ht i (by omega)
  obtain ⟨hq, -, hnext⟩ := (hsh i hi).destroy h (t.fresh h c hc) (by rw [hc]; rfl) (by rw [hgone]; rfl)
  have hrow := t.row h c hc (by simp)
  have hst : c.state = .kSuspend := by
    obtain ⟨k, hp⟩ := Point.eq_await haw
    rw [hp] at hrow
    rcases hrow with ⟨hst, -⟩ | ⟨-, hone, -⟩
    · exact hst
    · rw [List.count_eq_zero.mpr hq] at hone
      cases hone
  obtain ⟨hlt, hlink⟩ := (linked_of_run hrun hsh hone i (by omega)).1 h c d hc haw hst
  by_cases hmi : m ≤ i
  · exact not_suspended_of_final hrun hsh hone hmi (by omega) hd hf hc haw hst
  · -- `d` is still to end, so it is there before the step and after
    obtain ⟨c₁, hc₁⟩ := exists_of_exists hrun (show i ≤ m by omega) hm hlt hd
    obtain ⟨c₂, hc₂⟩ := exists_of_exists hrun (show i + 1 ≤ m by omega) hm
      (hlt.trans_le (seq_le_of_le hrun.next (Nat.le_succ i) hi)) hd
    obtain ⟨hf₁, hn₁⟩ := hlink c₁ hc₁
    exact hnext d hlt c₁ hc₁ (by rw [hc₂]; rfl) hf₁ hn₁

/-- **Who suspends on a coroutine that ends is called once**, and goes on with
what it stored. -/
theorem woken_of_suspended {m i : ℕ} (hm : m ≤ n) (hd : (σ m).coros d = some cd)
    (hf : cd.point.isFinal = true) {o : Outcome V} (ho : cd.result = some o) (hi : i < n)
    {k : Outcome V → Loc} (hc : (σ (i + 1)).coros h = some c) (hp : c.point = .await d k) :
    (∃ c, (σ n).coros h = some c ∧ c.point = .await d k ∧ (σ n).queued.count h = 1) ∨
      WokenOnce σ n i h d k o := by
  have ht := table_of_shares hrun hsh
  have hok := stepOk_of_shares hrun hsh
  by_cases hwaits : ∃ c, (σ n).coros h = some c ∧ c.point = .await d k
  · obtain ⟨c, hc, hp⟩ := hwaits
    have hne := not_suspended_of_final hrun hsh hone hm (le_refl n) hd hf hc (by rw [hp]; rfl)
    have hrow := (ht n (le_refl n)).row h c hc (by simp)
    rw [hp] at hrow
    rcases hrow with ⟨hst, -⟩ | ⟨-, hcount, -⟩
    · exact absurd hst hne
    · exact Or.inl ⟨c, hc, hp, hcount⟩
  · obtain ⟨j, hij, hjn, ⟨cj, hcj, hpj⟩, hno⟩ := exists_step_of_not
      (P := fun j => ∃ c, (σ j).coros h = some c ∧ c.point = .await d k)
      (show i + 1 ≤ n by omega) ⟨c, hc, hp⟩ hwaits
    rcases await_cases (ht j (by omega)) (hrun.next j hjn) (hok j hjn) hcj hpj with
      hstill | hgone | ⟨hres, hover, cd₁, hd₁, hstack⟩
    · exact absurd hstill hno
    · exact absurd hgone
        (exists_of_awaiting_final hrun hsh hone hm hjn hd hf hcj (by rw [hpj]; rfl))
    · have hresult : cd₁.result = some o := by
        rcases Nat.le_total m j with hmj | hjm
        · rw [result_eq hrun hsh hmj (by omega) hd hf hd₁, ho]
        · rw [← result_eq hrun hsh hjm hm hd₁ (hover.2 cd₁ hd₁) hd, ho]
      have hget : cd₁.get = o := by rw [Coro.get, hresult]
      rw [hget] at hstack
      exact Or.inr ⟨j, by omega, hjn, hres, hstack,
        fun j' hj' hres' => resumes_unique hrun ht hok hj' hjn hres' hres⟩

/-- **Shared coroutines.** Along a run of the plain event loop that leaves
nothing dangling, and in which every `co_await` of an unfinished coroutine finds
no other waiter there: a coroutine that is done has stored one outcome, and every
`co_await` of it, by whomever and whenever, goes on with that outcome. If it was
done before, at once; if not, the waiter is in a queue once or has been resumed
once, and has been when `Run` returns. -/
theorem awaiters_woken {m : ℕ} (hm : m ≤ n) (hd : (σ m).coros d = some cd)
    (hf : cd.point.isFinal = true) :
    ∃ o, cd.result = some o ∧
      ∀ i < n, ∀ h lc rest k, (σ i).stack = (h, lc) :: rest → code lc = .await d k →
        ∀ c, (σ i).coros d = some c →
          (c.point.isFinal = true → (σ (i + 1)).stack = (h, k o) :: rest) ∧
          (c.point.isFinal = false →
            ((∃ c, (σ n).coros h = some c ∧ c.point = .await d k ∧ (σ n).queued.count h = 1) ∨
                WokenOnce σ n i h d k o) ∧
              (Returned coroWorld (σ n) → WokenOnce σ n i h d k o)) := by
  have ht := table_of_shares hrun hsh
  have hok := stepOk_of_shares hrun hsh
  obtain ⟨o, ho⟩ := (linked_of_run hrun hsh hone m hm).2 d cd hd hf
  refine ⟨o, ho, fun i hi h lc rest k hstack hop c hc => ?_⟩
  obtain ⟨c₁, hc₁, hcase⟩ := await_eq (hrun.next i hi) hstack hop
  rw [hc] at hc₁
  obtain rfl := Option.some.inj hc₁
  rcases hcase with ⟨hf₁, heq⟩ | ⟨hf₁, heq⟩
  · refine ⟨fun _ => ?_, fun hnot => absurd hf₁ (by rw [hnot]; simp)⟩
    have hresult : c.result = some o := by
      rcases Nat.le_total m i with hmi | him
      · rw [result_eq hrun hsh hmi (by omega) hd hf hc, ho]
      · rw [← result_eq hrun hsh him hm hc hf₁ hd, ho]
    have hget : c.get = o := by rw [Coro.get, hresult]
    rw [heq, hget]
  · refine ⟨fun hyes => absurd hyes (by rw [hf₁]; simp), fun _ => ?_⟩
    have t := ht i (by omega)
    -- the row of `h` after it has suspended
    obtain ⟨ch, hch, -⟩ := (t.onStack h (by simp)).mp (by simp [running, hstack])
    have hne : d ≠ h := by
      rintro rfl
      exact (hsh i hi).await _ (awaiting_eq hstack hop) (by simp [running, hstack])
    have hrow : (σ (i + 1)).coros h = some { ch with point := .await d k, state := .kSuspend } := by
      have hsusp := awaitSuspend_row (s := { σ i with stack := rest }) (k := k) hch hne
      rw [heq, hsusp, if_pos rfl]
    have hwoken := woken_of_suspended hrun hsh hone hm hd hf ho hi hrow rfl
    refine ⟨hwoken, fun hret => ?_⟩
    rcases hwoken with ⟨-, -, -, hcount⟩ | hwoken
    · have hstop := hret.2
      simp only [stopped, Bool.and_eq_true, List.isEmpty_iff] at hstop
      rw [Loop.queued, hstop.1.1, hstop.1.2] at hcount
      cases hcount
    · exact hwoken

end Run

/-- A body that awaits coroutine `d`, at location 20, and two that sleep 5 ms
and have it awaited twice. The one at 0 starts both waiters at once, the one at
10 the second after the first. A location ends in the handles in scope. -/
def sharedCode : ℕ × List ℕ → Op (ℕ × List ℕ) Unit Empty Unit
  | (0, _) => .sleep ⟨5, 1, 1000⟩ fun d => (1, [d])
  | (1, [d]) => .call false true (20, [d]) fun a => (2, [d, a])
  | (2, [d, a]) => .future a (3, [d, a])
  | (3, [d, a]) => .call false true (20, [d]) fun b => (4, [d, a, b])
  | (4, [d, a, b]) => .future b (5, [d, a, b])
  | (5, [d, a, b]) => .await a fun _ => (6, [d, a, b])
  | (6, [d, a, b]) => .await b fun _ => (7, [d, a, b])
  | (10, _) => .sleep ⟨5, 1, 1000⟩ fun d => (11, [d])
  | (11, [d]) => .call false true (20, [d]) fun a => (12, [d, a])
  | (12, [d, a]) => .await a fun _ => (13, [d, a])
  | (13, [d, a]) => .call false true (20, [d]) fun b => (14, [d, a, b])
  | (14, [d, a, b]) => .await b fun _ => (7, [d, a, b])
  | (20, [d]) => .await d fun _ => (21, [d])
  | _ => .ret (.ok none)

/-- The run in which the second waiter comes after the first has been resumed. -/
def inTurn : ℕ → Loop (ℕ × List ℕ) Unit Empty Unit Unit :=
  states coroWorld sharedCode Empty.elim (boot true (10, []) () ())
    [.round 0, .resume, .exec 0, .exec 0, .exec 0, .round 0, .resume, .exec 0, .round 10000000,
      .resume, .round 10000000, .resume, .exec 0, .round 10000000, .resume, .exec 0, .exec 0,
      .round 10000000, .resume, .exec 0, .exec 0, .round 10000000, .resume, .exec 0]

theorem inTurn_isRun : IsRun (· = boot true (10, []) () ()) (Step coroWorld sharedCode) inTurn 24 :=
  isRun_states (fun m => m.elim) rfl (by decide +kernel)

/-- The first waiter is resumed once, and the second goes on at once. -/
theorem awaiters_woken_inTurn : ∃ o,
    WokenOnce inTurn 24 7 2 1 (fun _ => (21, [1])) o ∧ (inTurn 20).stack = [(3, 21, [1])] := by
  obtain ⟨o, -, hall⟩ := awaiters_woken inTurn_isRun (by decide +kernel) (by decide +kernel)
    (show 10 ≤ 24 by decide) (show (inTurn 10).coros 1 = some _ from rfl) rfl
  refine ⟨o, ?_, ?_⟩
  · have hret : Returned coroWorld (inTurn 24) := ⟨⟨rfl, rfl⟩, rfl⟩
    exact ((hall 7 (by decide) 2 (20, [1]) [] (fun _ => (21, [1])) rfl rfl _ rfl).2 rfl).2 hret
  · exact (hall 19 (by decide) 3 (20, [1]) [] (fun _ => (21, [1])) rfl rfl _ rfl).1 rfl

/-- The run in which both wait. -/
def atOnce : ℕ → Loop (ℕ × List ℕ) Unit Empty Unit Unit :=
  states coroWorld sharedCode Empty.elim (boot true (0, []) () ())
    [.round 0, .resume, .exec 0, .exec 0, .exec 0, .exec 0, .exec 0, .exec 0, .round 0, .resume,
      .exec 0, .resume, .exec 0, .round 10000000, .resume, .round 10000000, .resume, .exec 0]

theorem atOnce_isRun : IsRun (· = boot true (0, []) () ()) (Step coroWorld sharedCode) atOnce 18 :=
  isRun_states (fun m => m.elim) rfl (by decide +kernel)

/-- The second waiter takes the place of the first, which is not resumed when
`Run` returns, though the coroutine is done. -/
theorem first_waiter_lost :
    IsRun (· = boot true (0, []) () ()) (Step coroWorld sharedCode) atOnce 18 ∧
      (∀ i < 18, Shares sharedCode (atOnce i) (atOnce (i + 1))) ∧
      Returned coroWorld (atOnce 18) ∧
      (∃ c, (atOnce 18).coros 1 = some c ∧ c.point.isFinal = true) ∧
      Suspends (atOnce 10) (atOnce 11) 2 1 ∧
      ∀ j < 18, ¬ Resumes (atOnce j) (atOnce (j + 1)) 2 1 := by
  refine ⟨atOnce_isRun, by decide +kernel, ⟨⟨rfl, rfl⟩, rfl⟩, ⟨_, rfl, rfl⟩,
    ⟨⟨_, rfl, rfl⟩, _, rfl, rfl⟩, ?_⟩
  -- it is never executing after a state in which it waits
  have hnever : ∀ j < 18, ¬ (((atOnce j).coros 2).any (·.point.awaited = some 1) = true ∧
      ((atOnce (j + 1)).coros 2).any (·.point.isRunning) = true) := by decide +kernel
  rintro j hj ⟨⟨c, hc, haw⟩, c', hc', hrun⟩
  exact hnever j hj ⟨by rw [hc]; simp [haw], by rw [hc']; exact hrun⟩

end EfaExamples
