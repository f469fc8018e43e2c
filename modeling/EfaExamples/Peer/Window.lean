import EfaExamples.Coro.Outline
import EfaExamples.Peer.Model.Writer
/-!
# The window of `WriteOne`

Both versions of `WriteOne` make the writes of a round in one order and await
and give up their `Future`s from the front. So wherever `WriteOne` stands, the
coroutines of its writes are told by three counts: of those given up, of those
awaited, and of those made. `Window` keeps the counts, `Window.outline` is
the outline they stand for, and the lemmas here say what the operations of
`WriteOne` make of it.
-/

namespace EfaExamples

namespace Writer

variable {I : Type} (w : Writer)

/-- The number of writes in a round. -/
def total : ℕ := w.peerRegions.length * w.numPages

/-- The handle of the `WriteOne` of round `r`. -/
def oneHandle (r : ℕ) : ℕ := 1 + r + r * w.total

/-- The handle of the `k`-th write of round `r`. -/
def handle (r k : ℕ) : ℕ := w.oneHandle r + 1 + k

/-- The `k`-th write of a round. -/
def op (k : ℕ) : ConnOp :=
  w.page (w.peerRegions.getD (k / w.numPages) ⟨0, 0, 0⟩) (k % w.numPages)

/-- What is noted of the `q`-th write of all rounds. -/
def issue (q : ℕ) : Issued where
  round := q / w.total
  region := q % w.total / w.numPages
  page := q % w.total % w.numPages
  ctx := w.handle (q / w.total) (q % w.total)

/-- The counters after so many `++ops`, `++sent` and notes. -/
def counters (ops sent noted : ℕ) : Counters where
  ops := ops % 2 ^ 64
  sent := sent % 2 ^ 64
  issued := (List.range noted).map w.issue

/-- The counters when `r` rounds are over. -/
def roundCounters (r : ℕ) : Counters := w.counters (r * w.total) (r * w.total) (r * w.total)

@[simp] theorem counters_countOp (ops sent noted : ℕ) :
    (w.counters ops sent noted).countOp = w.counters (ops + 1) sent noted := by
  simp [counters, Counters.countOp]

@[simp] theorem counters_countSent (ops sent noted : ℕ) :
    (w.counters ops sent noted).countSent = w.counters ops (sent + 1) noted := by
  simp [counters, Counters.countSent]

theorem counters_note (ops sent noted : ℕ) :
    (w.counters ops sent noted).note (w.issue noted) = w.counters ops sent (noted + 1) := by
  simp [counters, Counters.note, List.range_succ]

/-- The handles of a round come after its `WriteOne`'s, and before the next one's. -/
theorem handle_total (r : ℕ) : w.handle r w.total = w.oneHandle (r + 1) := by
  simp only [handle, oneHandle, Nat.succ_mul]
  omega

theorem issue_add {r k : ℕ} (hk : k < w.total) :
    w.issue (r * w.total + k) = ⟨r, k / w.numPages, k % w.numPages, w.handle r k⟩ := by
  have hq : (r * w.total + k) / w.total = r := by
    rw [Nat.add_comm, Nat.add_mul_div_right _ _ (by omega), Nat.div_eq_of_lt hk, Nat.zero_add]
  have hm : (r * w.total + k) % w.total = k := by
    rw [Nat.add_comm, Nat.add_mul_mod_self_right, Nat.mod_eq_of_lt hk]
  rw [issue, hq, hm]

/-- Position `i` of region `g` is the write `g * numPages + i` of its round. -/
theorem div_mod_position {g i : ℕ} (hi : i < w.numPages) :
    (g * w.numPages + i) / w.numPages = g ∧ (g * w.numPages + i) % w.numPages = i := by
  constructor
  · rw [Nat.add_comm, Nat.add_mul_div_right _ _ (by omega), Nat.div_eq_of_lt hi, Nat.zero_add]
  · rw [Nat.add_comm, Nat.add_mul_mod_self_right, Nat.mod_eq_of_lt hi]

theorem op_position {g i : ℕ} {region : CUDARegion} (hg : w.peerRegions[g]? = some region)
    (hi : i < w.numPages) : w.op (g * w.numPages + i) = w.page region i := by
  obtain ⟨hd, hm⟩ := w.div_mod_position (g := g) hi
  rw [op, hd, hm, List.getD_eq_getElem?_getD, hg, Option.getD_some]

/-- A position within the loops is a write of the round. -/
theorem position_lt {g i : ℕ} {region : CUDARegion} (hg : w.peerRegions[g]? = some region)
    (hi : i < w.numPages) : g * w.numPages + i < w.total := by
  obtain ⟨hlt, -⟩ := List.getElem?_eq_some_iff.mp hg
  have : (g + 1) * w.numPages ≤ w.total := Nat.mul_le_mul_right _ hlt
  rw [Nat.succ_mul] at this
  omega

/-- Where `WriteOne` stands in its round: how many writes have been given up,
awaited and made, whether one more is made that nobody has scheduled, what the
counters count, and the exception of the last `co_await`. -/
@[ext]
structure Window where
  round : ℕ
  popped : ℕ
  awaited : ℕ
  made : ℕ
  fresh : Bool
  ops : ℕ
  sent : ℕ
  noted : ℕ
  failed : Option (Exn Val)

namespace Window

/-- The window when `WriteOne` begins. -/
def enter (r : ℕ) : Window where
  round := r
  popped := 0
  awaited := 0
  made := 0
  fresh := false
  ops := r * w.total
  sent := r * w.total
  noted := r * w.total
  failed := none

/-- One more write is made. -/
def make (x : Window) : Window := { x with fresh := true }

/-- It is scheduled. -/
def launch (x : Window) : Window := { x with made := x.made + 1, fresh := false }

/-- The exception of an outcome. -/
def failure : Outcome Val → Option (Exn Val)
  | .ok _ => none
  | .error e => some e

/-- The next one has been awaited, with outcome `o`. -/
def got (x : Window) (o : Outcome Val) : Window :=
  { x with awaited := x.awaited + 1, failed := failure o }

/-- The front is given up. -/
def pop (x : Window) : Window := { x with popped := x.popped + 1 }

/-- The counts are in order. -/
structure Ok (x : Window) : Prop where
  popped : x.popped ≤ x.awaited
  awaited : x.awaited ≤ x.made
  made : x.made ≤ w.total
  fresh : x.fresh = true → x.made < w.total

/-- The handles of `futs`, and of the write not yet scheduled. -/
def futs (x : Window) : List ℕ :=
  List.range' (w.handle x.round x.popped) (x.made + x.fresh.toNat - x.popped)

/-- The roles of the coroutines, with `WriteOne`'s body at `p`. -/
def role (x : Window) (p : Point (Loc I) ConnOp Val) (h : ℕ) :
    Option (Role (Loc I) ConnOp Val) :=
  if h = 0 then
    some (.body (.await (w.oneHandle x.round) (.resumed x.round (w.oneHandle x.round)))
      [w.oneHandle x.round])
  else if h = w.oneHandle x.round then some (.body p (x.futs w))
  else if h < w.handle x.round x.popped then none
  else if h < w.handle x.round x.awaited then some .ended
  else if h < w.handle x.round x.made then some (.leaf (w.op (h - w.handle x.round 0)))
  else if x.fresh = true ∧ h = w.handle x.round x.made then some (.fresh (w.op x.made))
  else none

/-- The outline of a window. -/
def outline (x : Window) (p : Point (Loc I) ConnOp Val) (stack : List (ℕ × Loc I)) :
    Outline (Loc I) Counters ConnOp Val where
  role := x.role w p
  stack := stack
  seq := w.handle x.round (x.made + x.fresh.toNat)
  mem := w.counters x.ops x.sent x.noted

/-- The windows have the same coroutines. -/
structure Same (x x' : Window) : Prop where
  round : x'.round = x.round
  popped : x'.popped = x.popped
  awaited : x'.awaited = x.awaited
  made : x'.made = x.made
  fresh : x'.fresh = x.fresh
  failed : x'.failed = x.failed

variable {w} {x x' : Window} {p q : Point (Loc I) ConnOp Val} {stack : List (ℕ × Loc I)}

theorem Same.outline (hs : Same x x') :
    { x.outline w p stack with mem := w.counters x'.ops x'.sent x'.noted } = x'.outline w p stack := by
  obtain ⟨h₁, h₂, h₃, h₄, h₅, -⟩ := hs
  have hrole : x'.role w p = x.role w p := by
    funext h
    simp only [role, futs, h₁, h₂, h₃, h₄, h₅]
  simp only [Window.outline, hrole, h₁, h₄, h₅]

theorem Same.ok (hs : Same x x') (hx : x.Ok w) : x'.Ok w := by
  obtain ⟨h₁, h₂, h₃, h₄, h₅, -⟩ := hs
  exact ⟨by rw [h₂, h₃]; exact hx.popped, by rw [h₃, h₄]; exact hx.awaited,
    by rw [h₄]; exact hx.made, by rw [h₄, h₅]; exact hx.fresh⟩

end Window

theorem oneHandle_pos (r : ℕ) : 0 < w.oneHandle r := by
  simp only [oneHandle]
  omega

theorem handle_succ (r k : ℕ) : w.handle r (k + 1) = w.handle r k + 1 := by
  simp [handle, Nat.add_assoc]

namespace Window

variable {w : Writer} {x : Window} {p : Point (Loc I) ConnOp Val} {k : ℕ}

theorem role_zero : x.role w p 0 =
    some (.body (.await (w.oneHandle x.round) (.resumed x.round (w.oneHandle x.round)))
      [w.oneHandle x.round]) := by
  simp [role]

theorem role_one : x.role w p (w.oneHandle x.round) = some (.body p (x.futs w)) := by
  have := w.oneHandle_pos x.round
  rw [role, if_neg (by omega), if_pos rfl]

/-- The role of a write, by its number. -/
theorem role_handle : x.role w p (w.handle x.round k) =
    if k < x.popped then none
    else if k < x.awaited then some .ended
    else if k < x.made then some (.leaf (w.op k))
    else if x.fresh = true ∧ k = x.made then some (.fresh (w.op x.made))
    else none := by
  have hk : w.handle x.round k - w.handle x.round 0 = k := by simp [handle]
  rw [role, if_neg (by simp [handle]), if_neg (by simp only [handle]; omega), hk]
  simp [handle]

/-- **Who is who.** -/
theorem role_cases {r : Role (Loc I) ConnOp Val} {h : ℕ} (hr : x.role w p h = some r) :
    (h = 0 ∧ r = .body (.await (w.oneHandle x.round) (.resumed x.round (w.oneHandle x.round)))
      [w.oneHandle x.round]) ∨
    (h = w.oneHandle x.round ∧ r = .body p (x.futs w)) ∨
    ∃ k, h = w.handle x.round k ∧ x.popped ≤ k ∧
      (k < x.awaited ∧ r = .ended ∨ x.awaited ≤ k ∧ k < x.made ∧ r = .leaf (w.op k) ∨
        x.fresh = true ∧ k = x.made ∧ r = .fresh (w.op k)) := by
  by_cases h₀ : h = 0
  · subst h₀
    exact Or.inl ⟨rfl, Option.some.inj (hr.symm.trans role_zero)⟩
  by_cases h₁ : h = w.oneHandle x.round
  · subst h₁
    exact Or.inr (Or.inl ⟨rfl, Option.some.inj (hr.symm.trans role_one)⟩)
  refine Or.inr (Or.inr ⟨h - (w.oneHandle x.round + 1), ?_⟩)
  have hlt : ¬ h < w.handle x.round x.popped := by
    intro hlt
    rw [role, if_neg h₀, if_neg h₁, if_pos hlt] at hr
    cases hr
  have hh : h = w.handle x.round (h - (w.oneHandle x.round + 1)) := by
    simp only [handle] at hlt ⊢
    omega
  refine ⟨hh, by simp only [handle] at hlt; omega, ?_⟩
  rw [hh, role_handle] at hr
  grind

end Window

/-! ## What the operations make of a window -/

namespace Window

variable {w : Writer} {x : Window} {p q : Point (Loc I) ConnOp Val} {o : Outcome Val}
variable {stack stack' : List (ℕ × Loc I)} {k r : ℕ}

theorem futs_make (hx : x.Ok w) (hf : x.fresh = false) :
    x.make.futs w = x.futs w ++ [w.handle x.round x.made] := by
  have hp := hx.popped
  have ha := hx.awaited
  have hn : x.made + 1 - x.popped = (x.made - x.popped) + 1 := by omega
  have hm : w.handle x.round x.popped + (x.made - x.popped) = w.handle x.round x.made := by
    simp only [handle]
    omega
  simp only [futs, make, hf, Bool.toNat_true, Bool.toNat_false, Nat.add_zero, hn]
  rw [List.range'_concat, Nat.one_mul, hm]

/-- One more write is made. -/
theorem outline_make (hx : x.Ok w) (hf : x.fresh = false) :
    { (x.outline w p stack).spawn (w.oneHandle x.round) (.fresh (w.op x.made)) with
      stack := stack' } = x.make.outline w p stack' := by
  have hfuts := futs_make hx hf
  have hp := hx.popped
  have ha := hx.awaited
  have hpos := w.oneHandle_pos x.round
  have hseq : (x.outline w p stack).seq = w.handle x.round x.made := by simp [outline, hf]
  refine Outline.ext (funext fun h => ?_) rfl ?_ rfl
  · simp only [Outline.spawn, hseq]
    simp only [outline, role, hfuts]
    simp only [make, hf, handle]
    grind
  · show (x.outline w p stack).seq + 1 = _
    rw [hseq, ← handle_succ]
    rfl

theorem futs_launch (hf : x.fresh = true) : x.launch.futs w = x.futs w := by
  simp [futs, launch, hf]

/-- Its `Future` is made, or it is awaited at once. -/
theorem outline_launch (hx : x.Ok w) (hf : x.fresh = true) :
    { (x.outline w p stack).map (w.handle x.round x.made) .schedule with stack := stack' } =
      x.launch.outline w p stack' := by
  have hfuts := futs_launch (w := w) hf
  have hp := hx.popped
  have ha := hx.awaited
  refine Outline.ext (funext fun h => ?_) rfl ?_ rfl
  · simp only [outline, Outline.map, role, hfuts]
    simp only [launch, hf, handle]
    grind [Role.schedule]
  · simp [outline, Outline.map, launch, hf]

/-- A write that is scheduled is not scheduled again. -/
theorem outline_schedule (hx : x.Ok w) (ha : x.awaited ≤ k) (hk : k < x.made) :
    { (x.outline w p stack).map (w.handle x.round k) .schedule with stack := stack' } =
      x.outline w p stack' := by
  have hp := hx.popped
  refine Outline.ext (funext fun h => ?_) rfl rfl rfl
  simp only [outline, Outline.map, role, handle]
  grind [Role.schedule]

/-- `WriteOne`'s body is at another point. -/
theorem outline_goto : (x.outline w p stack).map (w.oneHandle x.round) (.goto q) =
    x.outline w q stack := by
  have hpos := w.oneHandle_pos x.round
  refine Outline.ext (funext fun h => ?_) rfl rfl rfl
  simp only [outline, Outline.map, role]
  grind [Role.goto]

/-- The next write has been awaited. -/
theorem outline_got (hx : x.Ok w) (ha : x.awaited < x.made) :
    { (x.outline w p stack).map (w.handle x.round x.awaited) .settle with stack := stack' } =
      (x.got o).outline w p stack' := by
  have hp := hx.popped
  have hfuts : (x.got o).futs w = x.futs w := rfl
  refine Outline.ext (funext fun h => ?_) rfl rfl rfl
  simp only [outline, Outline.map, role, hfuts]
  simp only [got, handle]
  grind [Role.settle]

theorem futs_pop (hx : x.Ok w) (ha : x.popped < x.awaited) :
    x.futs w = w.handle x.round x.popped :: x.pop.futs w ∧
      x.pop.futs w = (x.futs w).filter (· ≠ w.handle x.round x.popped) := by
  have hm := hx.awaited
  have hcons : x.futs w = w.handle x.round x.popped :: x.pop.futs w := by
    have hn : x.made + x.fresh.toNat - x.popped = (x.made + x.fresh.toNat - (x.popped + 1)) + 1 := by
      omega
    rw [futs, futs, hn, List.range'_succ]
    rfl
  refine ⟨hcons, ?_⟩
  rw [hcons, List.filter_cons_of_neg (by simp), List.filter_eq_self.mpr]
  intro h hh
  rw [futs, List.mem_range'_1] at hh
  have hne : h ≠ w.handle x.round x.popped := by
    simp only [pop, handle] at hh ⊢
    omega
  exact decide_eq_true hne

/-- The front is given up. -/
theorem outline_pop (hx : x.Ok w) (ha : x.popped < x.awaited) :
    { ((x.outline w p stack).map (w.oneHandle x.round)
        (.own (·.filter (· ≠ w.handle x.round x.popped)))).drop [w.handle x.round x.popped] with
      stack := stack' } = x.pop.outline w p stack' := by
  have hfuts := (futs_pop hx ha).2
  have hpos := w.oneHandle_pos x.round
  refine Outline.ext (funext fun h => ?_) rfl rfl rfl
  simp only [outline, Outline.map, Outline.drop, role, hfuts]
  simp only [pop, handle]
  grind [Role.own]

theorem mem_futs {h : ℕ} : h ∈ x.futs w ↔
    w.handle x.round x.popped ≤ h ∧ h < w.handle x.round (x.made + x.fresh.toNat) ∧
      x.popped ≤ x.made + x.fresh.toNat := by
  rw [futs, List.mem_range'_1]
  simp only [handle]
  omega

/-- `WriteOne` ends, and what is in `futs` goes with its frame. -/
theorem outline_done (hx : x.Ok w) :
    { (((x.outline w p stack).drop ((x.outline w p stack).locals (w.oneHandle x.round))).map
        (w.oneHandle x.round) fun _ => .done o) with stack := [] } =
      { role := fun h =>
          if h = 0 then
            some (.body (.await (w.oneHandle x.round) (.resumed x.round (w.oneHandle x.round)))
              [w.oneHandle x.round])
          else if h = w.oneHandle x.round then some (.done o) else none
        stack := [], seq := w.handle x.round (x.made + x.fresh.toNat)
        mem := w.counters x.ops x.sent x.noted } := by
  have hpos := w.oneHandle_pos x.round
  have hp := hx.popped
  have ha := hx.awaited
  have hlocals : (x.outline w p stack).locals (w.oneHandle x.round) = x.futs w := by
    simp only [Outline.locals, outline, role_one]
    rfl
  refine Outline.ext (funext fun h => ?_) rfl rfl rfl
  simp only [hlocals]
  simp only [outline, Outline.map, Outline.drop, role, mem_futs, handle]
  cases x.fresh <;> grind

end Window

end Writer

end EfaExamples
