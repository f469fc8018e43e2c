import EfaExamples.Peer.Window
/-!
# The phases of the writer

`Writer::Write` follows its `WriteOne`s one by one, and inside each of them
the window moves. A version of `WriteOne` is followed by what it asserts of
the window at each of its locations: `Allowed` says what its operation there
must be for the window to move as it should, and `Phase.step` that then every
step of the program is a `Move` between phases.
-/

namespace EfaExamples

namespace Writer

variable {I : Type} (w : Writer)

/-- `WriteOne` may end with outcome `o`: by itself with every write awaited and
counted, or with the exception of its last `co_await`. -/
def Window.Returns (x : Window) (o : Outcome Val) : Prop :=
  x.fresh = false ∧ x.noted = x.round * w.total + x.made ∧
    match o with
    | .ok v => v = none ∧ x.failed = none ∧ x.awaited = w.total ∧
        x.ops = (x.round + 1) * w.total ∧ x.sent = (x.round + 1) * w.total
    | .error e => x.failed = some e

/-- **What an operation of `WriteOne` may be**, where `Here` is asserted at its
locations and the window is `x`. -/
def Allowed (Here : I → Window → Prop) (x : Window) : Op (Loc I) Counters ConnOp Val → Prop
  | .step f => ∃ l x', f (w.counters x.ops x.sent x.noted) =
      (w.counters x'.ops x'.sent x'.noted, .one l) ∧ x.Same x' ∧ Here l x'
  | .io a k => x.fresh = false ∧ x.made < w.total ∧ a = w.op x.made ∧
      ∃ l, k (w.handle x.round x.made) = .one l ∧ Here l x.make
  | .future h k => x.fresh = true ∧ h = w.handle x.round x.made ∧ ∃ l, k = .one l ∧ Here l x.launch
  | .await h k => x.failed = none ∧ ∃ (y : Window) (k' : Outcome Val → I),
      (y = x ∧ x.fresh = false ∨ y = x.launch ∧ x.fresh = true ∧ x.awaited = x.made) ∧
      y.awaited < y.made ∧ h = w.handle y.round y.awaited ∧ k = (fun o => .one (k' o)) ∧ ∀ o, Here (k' o) (y.got o)
  | .destroy h k => x.fresh = false ∧ x.popped < x.awaited ∧ h = w.handle x.round x.popped ∧
      ∃ l, k = .one l ∧ Here l x.pop
  | .ret o => x.Returns w o
  | _ => False

/-- `WriteOne` is at page `i` of region `g` in round `r`, with every write before
that made. -/
structure Position (r g i : ℕ) (x : Window) : Prop where
  round : x.round = r
  region : g < w.peerRegions.length ∧ i ≤ w.numPages ∨ g = w.peerRegions.length ∧ i = 0
  made : x.made = g * w.numPages + i

/-- Where `Writer::Write` is. -/
inductive Phase (I : Type)
  /-- not begun -/
  | start
  /-- at the test of its loop -/
  | test (r : ℕ)
  /-- with the `WriteOne` of a round made -/
  | made (r : ℕ)
  /-- in its `co_await`, `WriteOne` not begun -/
  | entered (r : ℕ)
  /-- in it, `WriteOne` executing -/
  | running (x : Window) (l : I)
  /-- in it, `WriteOne` in the `co_await` of the next write -/
  | waiting (x : Window) (k : Outcome Val → I)
  /-- in it, `WriteOne` done with outcome `o` -/
  | finished (x : Window) (o : Outcome Val)
  /-- after it -/
  | back (x : Window) (o : Outcome Val)
  /-- ended, with `seq` handles given out -/
  | ended (x : Window) (o : Outcome Val) (seq : ℕ)

namespace Phase

/-- The outline of a phase. -/
def outline (entry : ℕ → I) : Phase I → Outline (Loc I) Counters ConnOp Val
  | start =>
    { role := fun h => if h = 0 then some (.body (.initial (.write 0)) []) else none
      stack := [], seq := 1, mem := {} }
  | test r =>
    { role := fun h => if h = 0 then some (.body .running []) else none
      stack := [(0, .write r)], seq := w.oneHandle r, mem := w.roundCounters r }
  | made r =>
    { role := fun h =>
        if h = 0 then some (.body .running [w.oneHandle r])
        else if h = w.oneHandle r then some (.body (.initial (.one (entry r))) []) else none
      stack := [(0, .called r (w.oneHandle r))], seq := w.oneHandle r + 1, mem := w.roundCounters r }
  | entered r =>
    { role := fun h =>
        if h = 0 then
          some (.body (.await (w.oneHandle r) (.resumed r (w.oneHandle r))) [w.oneHandle r])
        else if h = w.oneHandle r then some (.body (.initial (.one (entry r))) []) else none
      stack := [], seq := w.oneHandle r + 1, mem := w.roundCounters r }
  | running x l => x.outline w .running [(w.oneHandle x.round, .one l)]
  | waiting x k =>
    x.outline w (.await (w.handle x.round x.awaited) fun o => .one (k o)) []
  | finished x o =>
    { role := fun h =>
        if h = 0 then
          some (.body (.await (w.oneHandle x.round) (.resumed x.round (w.oneHandle x.round)))
            [w.oneHandle x.round])
        else if h = w.oneHandle x.round then some (.done o) else none
      stack := [], seq := w.handle x.round x.made, mem := w.counters x.ops x.sent x.noted }
  | back x o =>
    { role := fun h =>
        if h = 0 then some (.body .running [w.oneHandle x.round])
        else if h = w.oneHandle x.round then some (.done o) else none
      stack := [(0, .resumed x.round (w.oneHandle x.round) o)], seq := w.handle x.round x.made
      mem := w.counters x.ops x.sent x.noted }
  | ended x o seq =>
    { role := fun h => if h = 0 then some (.done o) else none
      stack := [], seq := seq, mem := w.counters x.ops x.sent x.noted }

/-- What is asserted in a phase. -/
def Ok (Here : I → Window → Prop) : Phase I → Prop
  | running x l => x.Ok w ∧ Here l x
  | waiting x k => x.Ok w ∧ x.fresh = false ∧ x.failed = none ∧ x.awaited < x.made ∧
      ∀ o, Here (k o) (x.got o)
  | finished x o | back x o => x.Ok w ∧ x.Returns w o
  | _ => True

/-- **What the writer does.** `res d o` says that coroutine `d` is done with
outcome `o`. -/
inductive Move (entry : ℕ → I) (one : I → Op (Loc I) Counters ConnOp Val) (times : ℕ)
    (res : ℕ → Outcome Val → Prop) : Phase I → Phase I → Prop
  | still (ph : Phase I) : Move entry one times res ph ph
  | start : Move entry one times res start (test 0)
  | call {r : ℕ} : r < times → Move entry one times res (test r) (made r)
  | stop {r : ℕ} : times ≤ r →
      Move entry one times res (test r) (ended (.enter w r) (.ok none) (w.oneHandle r))
  | await {r : ℕ} : Move entry one times res (made r) (entered r)
  | enter {r : ℕ} : Move entry one times res (entered r) (running (.enter w r) (entry r))
  | step {x x' : Window} {l l' : I} : x.Same x' →
      Move entry one times res (running x l) (running x' l')
  | make {x : Window} {l l' : I} : Move entry one times res (running x l) (running x.make l')
  | launch {x : Window} {l l' : I} : x.fresh = true →
      Move entry one times res (running x l) (running x.launch l')
  | got {x : Window} {l l' : I} {o : Outcome Val} : x.failed = none → x.awaited < x.made →
      res (w.handle x.round x.awaited) o →
      Move entry one times res (running x l) (running (x.got o) l')
  | suspend {x : Window} {l : I} {k : Outcome Val → I} :
      Move entry one times res (running x l) (waiting x k)
  | launchSuspend {x : Window} {l : I} {k : Outcome Val → I} : x.fresh = true →
      Move entry one times res (running x l) (waiting x.launch k)
  | wake {x : Window} {k : Outcome Val → I} {o : Outcome Val} : x.failed = none →
      x.awaited < x.made → res (w.handle x.round x.awaited) o →
      Move entry one times res (waiting x k) (running (x.got o) (k o))
  | pop {x : Window} {l l' : I} : x.popped < x.awaited →
      Move entry one times res (running x l) (running x.pop l')
  | finish {x : Window} {l : I} {o : Outcome Val} : one l = .ret o →
      Move entry one times res (running x l) (finished x o)
  | back {x : Window} {o : Outcome Val} : Move entry one times res (finished x o) (back x o)
  | next {x : Window} {v : Option Val} :
      Move entry one times res (back x (.ok v)) (test (x.round + 1))
  | rethrow {x : Window} {e : Exn Val} :
      Move entry one times res (back x (.error e)) (ended x (.error e) (w.handle x.round x.made))

/-! ## Every step is a move -/

variable {w} {entry : ℕ → I} {one : I → Op (Loc I) Counters ConnOp Val} {times : ℕ}
variable {Here : I → Window → Prop} {res : ℕ → Outcome Val → Prop}
variable {O' : Outline (Loc I) Counters ConnOp Val}

/-- What a step leads to. -/
def Leads (w : Writer) (entry : ℕ → I) (one : I → Op (Loc I) Counters ConnOp Val) (times : ℕ)
    (Here : I → Window → Prop) (res : ℕ → Outcome Val → Prop) (ph : Phase I)
    (O' : Outline (Loc I) Counters ConnOp Val) : Prop :=
  ∃ ph', Move w entry one times res ph ph' ∧ ph'.Ok w Here ∧ O' = ph'.outline w entry

/-- The operation of `WriteOne`. -/
theorem exec {x : Window} {l : I} (hvc : Allowed w Here x (one l))
    (hx : x.Ok w)
    (he : ((running x l).outline w entry).Exec res (w.oneHandle x.round) [] O' (one l)) :
    Leads w entry one times Here res (running x l) O' := by
  simp only [outline] at he
  cases hop : one l with
  | step f =>
    rw [hop] at hvc he
    obtain ⟨l', x', hf, hsame, hhere⟩ := hvc
    refine ⟨running x' l', .step hsame, ⟨hsame.ok hx, hhere⟩, he.trans ?_⟩
    simp only [outline, hsame.round, ← hsame.outline]
    simp only [Window.outline, hf]
  | io a k =>
    rw [hop] at hvc he
    obtain ⟨hfresh, hlt, rfl, l', hk, hhere⟩ := hvc
    have hseq : (x.outline w .running [(w.oneHandle x.round, Loc.one l)]).seq =
        w.handle x.round x.made := by
      simp [Window.outline, hfresh]
    refine ⟨running x.make l', .make, ⟨⟨hx.popped, hx.awaited, hx.made, fun _ => hlt⟩, hhere⟩, ?_⟩
    rw [he, hseq, hk]
    exact Window.outline_make hx hfresh
  | future h k =>
    rw [hop] at hvc he
    obtain ⟨hfresh, rfl, l', rfl, hhere⟩ := hvc
    refine ⟨running x.launch l', .launch hfresh, ⟨?_, hhere⟩, ?_⟩
    · exact ⟨hx.popped, Nat.le_succ_of_le hx.awaited, hx.fresh hfresh, fun h => by cases h⟩
    · rw [he]
      exact Window.outline_launch hx hfresh
  | await h k =>
    rw [hop] at hvc he
    obtain ⟨hfail, y, k', hy, hlt, rfl, rfl, hhere⟩ := hvc
    rcases he with ⟨o, r, hres, hrole, hend, he⟩ | he
    · rcases hy with ⟨rfl, hfresh⟩ | ⟨rfl, hfresh, heq⟩
      · refine ⟨running (y.got o) (k' o), .got hfail hlt hres, ⟨?_, hhere o⟩, ?_⟩
        · exact ⟨Nat.le_succ_of_le hx.popped, hlt, hx.made, hx.fresh⟩
        · rw [he]
          exact Window.outline_got hx hlt
      · -- what nobody has scheduled is not done
        have hr : (x.outline w .running [(w.oneHandle x.round, Loc.one l)]).role
            (w.handle x.round x.made) = some (.fresh (w.op x.made)) := by
          have hp := hx.popped
          show x.role w _ _ = _
          rw [Window.role_handle, if_neg (by omega), if_neg (by omega), if_neg (by omega),
            if_pos ⟨hfresh, rfl⟩]
        have hnext : w.handle x.launch.round x.launch.awaited = w.handle x.round x.made := by
          rw [← heq]
          rfl
        rw [hnext, hr] at hrole
        cases hrole
        exact hend.elim
    · rcases hy with ⟨rfl, hfresh⟩ | ⟨rfl, hfresh, heq⟩
      · refine ⟨waiting y k', .suspend, ⟨hx, hfresh, hfail, hlt, hhere⟩, he.trans ?_⟩
        rw [Window.outline_goto]
        exact Window.outline_schedule hx le_rfl hlt
      · have hx' : x.launch.Ok w :=
          ⟨hx.popped, Nat.le_succ_of_le hx.awaited, hx.fresh hfresh, fun h => by cases h⟩
        refine ⟨waiting x.launch k', .launchSuspend hfresh, ⟨hx', rfl, hfail, hlt, hhere⟩, he.trans ?_⟩
        have hnext : w.handle x.launch.round x.launch.awaited = w.handle x.round x.made := by
          rw [← heq]
          rfl
        simp only [outline, hnext]
        rw [Window.outline_goto]
        exact Window.outline_launch hx hfresh
  | destroy h k =>
    rw [hop] at hvc he
    obtain ⟨hfresh, hlt, rfl, l', rfl, hhere⟩ := hvc
    refine ⟨running x.pop l', .pop hlt, ⟨⟨hlt, hx.awaited, hx.made, hx.fresh⟩, hhere⟩, ?_⟩
    rw [he]
    exact Window.outline_pop hx hlt
  | ret o =>
    rw [hop] at hvc he
    refine ⟨finished x o, .finish hop, ⟨hx, hvc⟩, he.trans ?_⟩
    rw [Window.outline_done hx, hvc.1]
    rfl
  | call oneway isVoid l' k => rw [hop] at hvc; exact hvc.elim
  | sleep delay k => rw [hop] at hvc; exact hvc.elim
  | done h k => rw [hop] at hvc; exact hvc.elim
  | release h k => rw [hop] at hvc; exact hvc.elim

/-- A phase may stay. -/
theorem Leads.still {ph : Phase I} (hok : ph.Ok w Here) (he : O' = ph.outline w entry) :
    Leads w entry one times Here res ph O' := ⟨ph, .still ph, hok, he⟩

/-- From the start only the root begins. -/
theorem step_start (hs : Outline.Step (code entry one times) res (start.outline w entry) O') :
    Leads w entry one times Here res start O' := by
  cases hs with
  | still he => exact .still trivial he
  | exec me l rest hstack _ => cases hstack
  | begin h a _ hr _ | wake h d k ls o r _ hr _ _ _ _ =>
    simp only [outline] at hr
    split at hr <;> cases hr
  | start h l ls _ hr he =>
    simp only [outline] at hr
    split at hr <;> cases hr
    rename_i hh
    subst hh
    refine ⟨test 0, .start, trivial, he.trans (Outline.ext (funext fun h => ?_) rfl ?_ ?_)⟩
    · simp only [outline, Outline.map]
      grind [Role.goto]
    · simp [outline, Outline.map, oneHandle]
    · simp [outline, Outline.map, roundCounters, counters]

/-- At the test the root calls `WriteOne` or ends. -/
theorem step_test {r : ℕ}
    (hs : Outline.Step (code entry one times) res ((test r).outline w entry) O') :
    Leads w entry one times Here res (test r) O' := by
  have hpos := w.oneHandle_pos r
  rcases hs.of_stack rfl with he | he
  · exact .still trivial he
  · simp only [code] at he
    split at he
    · refine ⟨made r, .call ‹_›, trivial, he.trans (Outline.ext (funext fun h => ?_) rfl rfl rfl)⟩
      simp only [outline, Outline.spawn]
      grind [Role.own]
    · refine ⟨ended (.enter w r) (.ok none) (w.oneHandle r), .stop (by omega), trivial,
        he.trans (Outline.ext (funext fun h => ?_) rfl rfl rfl)⟩
      simp only [outline, Outline.drop, Outline.map, Outline.locals]
      grind

/-- The root awaits the `WriteOne` that it has made, -/
theorem step_made {r : ℕ}
    (hs : Outline.Step (code entry one times) res ((made r).outline w entry) O') :
    Leads w entry one times Here res (made r) O' := by
  have hpos := w.oneHandle_pos r
  rcases hs.of_stack rfl with he | he
  · exact .still trivial he
  · simp only [code] at he
    rcases he with ⟨o, r', -, hr, hend, -⟩ | he
    · simp [outline, hpos.ne'] at hr
      subst hr
      exact hend.elim
    · refine ⟨entered r, .await, trivial, he.trans (Outline.ext (funext fun h => ?_) rfl rfl rfl)⟩
      simp only [outline, Outline.map]
      grind [Role.goto, Role.schedule]

/-- which begins, as it has been scheduled. -/
theorem step_entered {r : ℕ} (hentry : ∀ r, Here (entry r) (.enter w r))
    (hs : Outline.Step (code entry one times) res ((entered r).outline w entry) O') :
    Leads w entry one times Here res (entered r) O' := by
  have hpos := w.oneHandle_pos r
  cases hs with
  | still he => exact .still trivial he
  | exec me l rest hstack _ => cases hstack
  | begin h a _ hr _ =>
    simp only [outline] at hr
    grind
  | wake h d k ls o r' _ hr _ hd hend _ =>
    -- `WriteOne` has not begun, let alone ended
    simp only [outline] at hr hd
    split at hr
    · cases hr
      rw [if_neg hpos.ne', if_pos rfl] at hd
      cases hd
      exact hend.elim
    · split at hr <;> cases hr
  | start h l ls _ hr he =>
    simp only [outline] at hr
    split at hr
    · cases hr
    · split at hr <;> cases hr
      rename_i hh
      subst hh
      refine ⟨running (.enter w r) (entry r), .enter,
        ⟨⟨le_rfl, le_rfl, Nat.zero_le _, fun h => by cases h⟩, hentry r⟩, he.trans ?_⟩
      refine Outline.ext (funext fun h => ?_) rfl rfl rfl
      have hfuts : (Window.enter w r).futs w = [] := rfl
      simp only [outline, Window.outline, Window.role, hfuts, Outline.map]
      simp only [Window.enter, handle]
      grind [Role.goto]

/-- `WriteOne` goes on with the write that it waits for. -/
theorem step_waiting {x : Window} {k : Outcome Val → I} (hok : (waiting x k).Ok w Here)
    (hs : Outline.Step (code entry one times) res ((waiting x k).outline w entry) O') :
    Leads w entry one times Here res (waiting x k) O' := by
  have ⟨hx, hfresh, hfail, hlt, hhere⟩ := hok
  cases hs with
  | still he => exact .still hok he
  | exec me l rest hstack _ => cases hstack
  | begin h a _ hr _ =>
    obtain ⟨-, hr⟩ | ⟨-, hr⟩ | ⟨j, -, -, ⟨-, hr⟩ | ⟨-, -, hr⟩ | ⟨hf, -⟩⟩ :=
      Window.role_cases hr
    · cases hr
    · cases hr
    · cases hr
    · cases hr
    · rw [hfresh] at hf
      cases hf
  | start h l ls _ hr _ =>
    obtain ⟨-, hr⟩ | ⟨-, hr⟩ | ⟨j, -, -, ⟨-, hr⟩ | ⟨-, -, hr⟩ | ⟨-, -, hr⟩⟩ :=
      Window.role_cases hr <;> cases hr
  | wake h d k' ls o r _ hr hres hd hend he =>
    obtain ⟨-, hb⟩ | ⟨rfl, hb⟩ | ⟨j, -, -, ⟨-, hb⟩ | ⟨-, -, hb⟩ | ⟨-, -, hb⟩⟩ :=
      Window.role_cases hr <;> cases hb
    · -- nor does the root go on while `WriteOne` waits
      rw [show ((waiting x k).outline w entry).role (w.oneHandle x.round) = _ from
        Window.role_one] at hd
      cases hd
      exact hend.elim
    · refine ⟨running (x.got o) (k o), .wake hfail hlt hres,
        ⟨⟨Nat.le_succ_of_le hx.popped, hlt, hx.made, hx.fresh⟩, hhere o⟩, he.trans ?_⟩
      simp only [outline]
      rw [Window.outline_goto]
      exact Window.outline_got hx hlt

/-- When `WriteOne` has ended the root goes on, -/
theorem step_finished {x : Window} {o : Outcome Val} (hok : (finished x o).Ok w Here)
    (hs : Outline.Step (code entry one times) res ((finished x o).outline w entry) O') :
    Leads w entry one times Here res (finished x o) O' := by
  have hpos := w.oneHandle_pos x.round
  cases hs with
  | still he => exact .still hok he
  | exec me l rest hstack _ => cases hstack
  | begin h a _ hr _ | start h l ls _ hr _ =>
    simp only [outline] at hr
    grind
  | wake h d k ls o' r' _ hr _ hd hend he =>
    simp only [outline] at hr hd
    split at hr
    · rename_i hh
      subst hh
      cases hr
      rw [if_neg hpos.ne', if_pos rfl] at hd
      cases hd
      have ho : o' = o := hend
      subst ho
      refine ⟨back x o', .back, hok, he.trans (Outline.ext (funext fun h => ?_) rfl rfl rfl)⟩
      simp only [outline, Outline.map]
      grind [Role.goto, Role.settle]
    · split at hr <;> cases hr

/-- with the next round or with the exception. -/
theorem step_back {x : Window} {o : Outcome Val} (hok : (back x o).Ok w Here)
    (hs : Outline.Step (code entry one times) res ((back x o).outline w entry) O') :
    Leads w entry one times Here res (back x o) O' := by
  have hpos := w.oneHandle_pos x.round
  rcases hs.of_stack rfl with he | he
  · exact .still hok he
  · cases o with
    | ok v =>
      simp only [code] at he
      obtain ⟨hx, -, hnoted, -, -, hall, hops, hsent⟩ := hok
      have hmade : x.made = w.total := le_antisymm hx.made (hall ▸ hx.awaited)
      refine ⟨test (x.round + 1), .next, trivial,
        he.trans (Outline.ext (funext fun h => ?_) rfl ?_ ?_)⟩
      · simp only [outline, Outline.map, Outline.drop]
        grind [Role.own]
      · exact (congrArg _ hmade).trans (w.handle_total x.round)
      · show w.counters x.ops x.sent x.noted = _
        rw [hnoted, hmade, hops, hsent, ← Nat.succ_mul]
        rfl
    | error e =>
      simp only [code] at he
      refine ⟨ended x (.error e) (w.handle x.round x.made), .rethrow, trivial,
        he.trans (Outline.ext (funext fun h => ?_) rfl rfl rfl)⟩
      simp only [outline, Outline.map, Outline.drop, Outline.locals]
      grind

/-- After the end nothing happens. -/
theorem step_ended {x : Window} {o : Outcome Val} {seq : ℕ}
    (hs : Outline.Step (code entry one times) res ((ended x o seq).outline w entry) O') :
    Leads w entry one times Here res (ended x o seq) O' := by
  cases hs with
  | still he => exact .still trivial he
  | exec me l rest hstack _ => cases hstack
  | begin h a _ hr _ | start h l ls _ hr _ | wake h d k ls o' r _ hr _ _ _ _ =>
    simp only [outline] at hr
    split at hr <;> cases hr

/-- **Every step of the program is a move**, if every operation of `WriteOne` is
allowed where it stands. -/
theorem step (hvc : ∀ l x, x.Ok w → Here l x → Allowed w Here x (one l))
    (hentry : ∀ r, Here (entry r) (.enter w r)) {ph : Phase I} (hok : ph.Ok w Here)
    (hs : Outline.Step (code entry one times) res (ph.outline w entry) O') :
    Leads w entry one times Here res ph O' := by
  cases ph with
  | start => exact step_start hs
  | test r => exact step_test hs
  | made r => exact step_made hs
  | entered r => exact step_entered hentry hs
  | running x l =>
    rcases hs.of_stack rfl with he | he
    · exact .still hok he
    · exact exec (hvc l x hok.1 hok.2) hok.1 he
  | waiting x k => exact step_waiting hok hs
  | finished x o => exact step_finished hok hs
  | back x o => exact step_back hok hs
  | ended x o seq => exact step_ended hs

end Phase

end Writer

end EfaExamples
