import EfaExamples.Direct.Model.Program
import EfaExamples.Coro.Wakeup
/-!
# The shape of a direct-style program's states

A direct-style program runs one body at a time. A body has at most one child,
made for the `co_await` it is at, which is the only `Coro` its frame holds
and is gone when the body goes on. `Shape` records this, and gives the two
disciplines the scheduler's theorems ask for: nothing but the own child is
awaited, and that once, and the child is done when it is destroyed.
-/

namespace EfaExamples

open Loop

variable {P E V : Type} {pr : Program P E V}
variable {s s' : Loop (Site P E V) Unit Empty Unit V}

/-- The child a location is about. -/
def Site.child : Site P E V → Option ℕ
  | .made h _ _ _ | .awaited h _ _ _ _ => some h
  | _ => none

/-- **The shape.** -/
structure Shape (pr : Program P E V) (s : Loop (Site P E V) Unit Empty Unit V) : Prop where
  root : (s.coros 0).isSome
  single : s.stack = [] ∨ ∃ me l, s.stack = [(me, l)]
  initial : ∀ h c l, s.coros h = some c → c.point = .initial l →
    ∃ p e, l = .before (pr.body p) [] e
  await : ∀ h c d k, s.coros h = some c → c.point = .await d k →
    d < s.seq ∧ ∃ bind ks e, k = fun o => .awaited d o bind ks e
  idle : ∀ h c, s.coros h = some c → c.point.isRunning = false →
    c.locals = c.point.awaited.toList
  busy : ∀ me l c, s.stack = [(me, l)] → s.coros me = some c → c.locals = l.child.toList
  made : ∀ me d bind k e, s.stack = [(me, .made d bind k e)] →
    ∃ c, s.coros d = some c ∧ c.creator = some me ∧ c.next = none
  awaited : ∀ me d o bind k e, s.stack = [(me, .awaited d o bind k e)] →
    ∃ c, s.coros d = some c ∧ c.point = .final

/-! ## The locations -/

/-- **The locations by what they do**: a local step, the making of a child, its
`co_await`, its destruction, or the end. -/
inductive SiteOp (pr : Program P E V) : Site P E V → Prop
  | goto {l : Site P E V} (l' : Site P E V) : direct pr l = goto l' → l.child = none →
      l'.child = none → SiteOp pr l
  | sleep (d : E → Duration) (k : List (Frame P E V)) (e : E) :
      SiteOp pr (.before (.sleep d) k e)
  | call (p : P) (arg : E → E) (bind : Option V → E → E) (k : List (Frame P E V)) (e : E) :
      SiteOp pr (.before (.await p arg bind) k e)
  | await (d : ℕ) (bind : Option V → E → E) (k : List (Frame P E V)) (e : E) :
      SiteOp pr (.made d bind k e)
  | destroy (d : ℕ) (o : Outcome V) (bind : Option V → E → E) (k : List (Frame P E V)) (e : E) :
      SiteOp pr (.awaited d o bind k e)
  | ret (r : Flow E V) : SiteOp pr (.after r [])

theorem Frame.leave_child (k : List (Frame P E V)) (f : Frame P E V) (r : Flow E V) :
    (f.leave k r).child = none := by
  cases f <;> cases r <;> rfl

theorem siteOp (pr : Program P E V) (l : Site P E V) : SiteOp pr l := by
  cases l with
  | before s k e =>
    cases s with
    | sleep d => exact .sleep d k e
    | await p arg bind => exact .call p arg bind k e
    | ite b s t => exact .goto _ rfl rfl (by split <;> rfl)
    | «while» b s => exact .goto _ rfl rfl (by split <;> rfl)
    | skip | assign | seq | tryCatch | ret | throw => exact .goto _ rfl rfl rfl
  | after r k =>
    cases k with
    | nil => exact .ret r
    | cons f k => exact .goto _ rfl rfl (f.leave_child k r)
  | made d bind k e => exact .await d bind k e
  | awaited d o bind k e => exact .destroy d o bind k e

/-- There is one frame on the stack. -/
theorem Shape.stack_eq {me : ℕ} {l : Site P E V} {rest : List (ℕ × Site P E V)}
    (sh : Shape pr s) (hstack : s.stack = (me, l) :: rest) : s.stack = [(me, l)] := by
  rcases sh.single with h | ⟨me₁, l₁, h⟩
  · rw [hstack] at h
    cases h
  · rw [hstack] at h
    cases h
    exact hstack

/-- **What is awaited** is the child of the location. -/
theorem eq_made_of_await {l : Site P E V} {d : ℕ} {k : Outcome V → Site P E V}
    (hop : direct pr l = .await d k) :
    ∃ bind ks e, l = .made d bind ks e ∧ k = fun o => .awaited d o bind ks e := by
  cases siteOp pr l with
  | await d₁ bind ks e =>
    simp only [direct, Op.await.injEq] at hop
    obtain ⟨rfl, rfl⟩ := hop
    exact ⟨bind, ks, e, rfl, rfl⟩
  | goto l' hop' _ _ => rw [hop'] at hop; cases hop
  | sleep | call | destroy | ret => cases hop

/-! ## The child and its owner -/

/-- The body that makes a child holds it, and every other coroutine is as it was. -/
theorem spawn_row {me i : ℕ} {c cn : Coro (Site P E V) Empty V} (hme : me ≠ s.seq)
    (hc : ((s.spawn cn).addLocal me s.seq).coros i = some c) :
    i = s.seq ∧ c = cn ∨ i ≠ s.seq ∧ ∃ c₀, s.coros i = some c₀ ∧
      c = { c₀ with locals := if i = me then s.seq :: c₀.locals else c₀.locals } := by
  rcases modify_coros_eq_some.mp hc with ⟨hi, c₀, hc₀, rfl⟩ | ⟨hi, hc₀⟩
  · rw [spawn_coros, if_neg hme] at hc₀
    exact Or.inr ⟨by rw [hi]; exact hme, c₀, by rw [hi]; exact hc₀, by rw [if_pos hi]⟩
  · rw [spawn_coros] at hc₀
    split at hc₀
    · rename_i hs
      cases hc₀
      exact Or.inl ⟨hs, rfl⟩
    · rename_i hs
      exact Or.inr ⟨hs, c, hc₀, by rw [if_neg hi]⟩

/-- The making of a child keeps the shape. -/
theorem Shape.spawn (cn : Coro (Site P E V) Empty V) {me : ℕ} {l : Site P E V}
    {bind : Option V → E → E} {k : List (Frame P E V)} {e : E} (sh : Shape pr s)
    (t : Table none s) (hstack : s.stack = [(me, l)]) (hl : l.child = none)
    (hcoros : s'.coros = ((s.spawn cn).addLocal me s.seq).coros) (hseq : s'.seq = s.seq + 1)
    (hstack' : s'.stack = [(me, .made s.seq bind k e)]) (hcreator : cn.creator = some me)
    (hnext : cn.next = none) (hlocals : cn.locals = []) (hrun : cn.point.isRunning = false)
    (haw : cn.point.awaited = none)
    (hinit : ∀ l, cn.point = .initial l → ∃ p e, l = .before (pr.body p) [] e) : Shape pr s' := by
  obtain ⟨cme, hcme, hcrun⟩ := (t.onStack me (by simp)).mp (by simp [running, hstack])
  have hme : me ≠ s.seq := by
    have := t.fresh me cme hcme
    omega
  have hrow : ∀ i c, s'.coros i = some c → i = s.seq ∧ c = cn ∨ i ≠ s.seq ∧ ∃ c₀,
      s.coros i = some c₀ ∧
      c = { c₀ with locals := if i = me then s.seq :: c₀.locals else c₀.locals } :=
    fun i c hc => spawn_row hme (by rw [← hcoros]; exact hc)
  have hlive : ∀ i, (s.coros i).isSome → (s'.coros i).isSome := by
    intro i hi
    rw [hcoros, addLocal, modify_coros_isSome, spawn_coros]
    split
    · rfl
    · exact hi
  have hnew : s'.coros s.seq = some cn := by
    rw [hcoros, addLocal, modify_coros_of_ne (Ne.symm hme), spawn_coros, if_pos rfl]
  constructor
  case root => exact hlive 0 sh.root
  case single => exact Or.inr ⟨me, _, hstack'⟩
  case initial =>
    intro h c l' hc hp
    rcases hrow h c hc with ⟨-, rfl⟩ | ⟨-, c₀, hc₀, rfl⟩
    · exact hinit l' hp
    · exact sh.initial h c₀ l' hc₀ hp
  case await =>
    intro h c d ks hc hp
    rw [hseq]
    rcases hrow h c hc with ⟨-, rfl⟩ | ⟨-, c₀, hc₀, rfl⟩
    · rw [hp] at haw
      cases haw
    · obtain ⟨h₁, h₂⟩ := sh.await h c₀ d ks hc₀ hp
      exact ⟨Nat.lt_succ_of_lt h₁, h₂⟩
  case idle =>
    intro h c hc hr
    rcases hrow h c hc with ⟨-, rfl⟩ | ⟨-, c₀, hc₀, rfl⟩
    · rw [haw, hlocals]
      rfl
    · have hne : h ≠ me := by
        rintro rfl
        rw [hc₀] at hcme
        cases hcme
        rw [show cme.point.isRunning = false from hr] at hcrun
        cases hcrun
      show (if h = me then s.seq :: c₀.locals else c₀.locals) = _
      rw [if_neg hne]
      exact sh.idle h c₀ hc₀ hr
  case busy =>
    intro me' l' c hst hc
    rw [hstack'] at hst
    simp only [List.cons.injEq, Prod.mk.injEq, and_true] at hst
    obtain ⟨rfl, rfl⟩ := hst
    rcases hrow me c hc with ⟨hh, -⟩ | ⟨-, c₀, hc₀, rfl⟩
    · exact absurd hh hme
    · have := sh.busy me l c₀ hstack hc₀
      rw [hl] at this
      show (if me = me then s.seq :: c₀.locals else c₀.locals) = [s.seq]
      rw [if_pos rfl, this]
      rfl
  case made =>
    intro me' d bind' k' e' hst
    rw [hstack'] at hst
    simp only [List.cons.injEq, Prod.mk.injEq, and_true, Site.made.injEq] at hst
    obtain ⟨rfl, rfl, -⟩ := hst
    exact ⟨cn, hnew, hcreator, hnext⟩
  case awaited =>
    intro me' d o bind' k' e' hst
    rw [hstack'] at hst
    simp at hst

/-! ## What is destroyed -/

/-- **Only the awaited child is destroyed.** -/
theorem Shape.gone {h : ℕ} {c : Coro (Site P E V) Empty V} (sh : Shape pr s) (t : Table none s)
    (hs : Step coroWorld (direct pr) s s') (hc : s.coros h = some c) (hn : s'.coros h = none) :
    ∃ me o bind k e, s.stack = [(me, .awaited h o bind k e)] := by
  have hlive : ∀ {s₁ : Loop (Site P E V) Unit Empty Unit V}, (s₁.coros h).isSome →
      s₁.coros h = none → False := by
    intro s₁ h₁ h₂
    rw [h₂] at h₁
    cases h₁
  have hsome : (s.coros h).isSome := by rw [hc]; rfl
  cases hs with
  | exec now hs =>
    rcases sh.single with hstack | ⟨me, l, hstack⟩
    · simp [exec, hstack] at hs
    · unfold exec at hs
      simp only [hstack] at hs
      cases siteOp pr l with
      | goto l' hop _ _ =>
        simp only [hop, goto, Option.some.injEq] at hs
        subst hs
        exact (hlive hsome hn).elim
      | sleep d k e =>
        simp only [direct, Option.some.injEq] at hs
        subst hs
        refine (hlive ?_ hn).elim
        simp only [addLocal, modify_coros_isSome, callAfter, setState, spawn_coros]
        split
        · rfl
        · exact hsome
      | call p arg bind k e =>
        simp only [direct, Option.some.injEq] at hs
        subst hs
        refine (hlive ?_ hn).elim
        simp only [addLocal, modify_coros_isSome, spawn_coros]
        split
        · rfl
        · exact hsome
      | await d bind k e =>
        simp only [direct] at hs
        split at hs
        · split at hs
          · cases hs
            exact (hlive hsome hn).elim
          · cases hs
            refine (hlive ?_ hn).elim
            rw [awaitSuspend, schedule_isSome]
            simp only [setPoint, setState, modify_coros_isSome]
            exact hsome
        · cases hs
      | destroy d o bind k e =>
        simp only [direct] at hs
        split at hs
        · simp only [Option.some.injEq] at hs
          obtain ⟨cme, hcme, -⟩ := (t.onStack me (by simp)).mp (by simp [running, hstack])
          have hlocals := sh.busy me _ cme hstack hcme
          obtain ⟨hlt, -⟩ := t.locals me cme d hcme (by rw [hlocals]; simp [Site.child])
          obtain ⟨cd, hcd, hfinal⟩ := sh.awaited me d o bind k e hstack
          -- the child holds nothing, so it goes alone
          have hcd₁ : (Loop.dropLocal me d { s with stack := [(me, .after (.ofOutcome bind e o) k)] }
              ).coros d = some cd := by
            rw [dropLocal, modify_coros_of_ne (by omega)]
            exact hcd
          have hnil : cd.locals = [] := by
            rw [sh.idle d cd hcd (by rw [hfinal]; rfl), hfinal]
            rfl
          rw [destroy_of_locals_nil hcd₁ hnil] at hs
          subst hs
          by_cases hh : h = d
          · exact ⟨me, o, bind, k, e, by rw [hstack, hh]⟩
          · refine (hlive ?_ hn).elim
            simp only [erase, dropLocal, if_neg hh, modify_coros_isSome]
            exact hsome
        · cases hs
      | ret r =>
        simp only [direct] at hs
        refine (hlive ?_ hn).elim
        rw [finish_isSome hs fun c hc => sh.busy me _ c hstack hc]
        exact hsome
  | resume hstack hs =>
    obtain ⟨i, n, q, ci, -, -, hci, hit⟩ := iteration_of_resume hs
    refine (hlive ?_ hn).elim
    have h₁ : ((s.popped i n q).coros h).isSome := by
      rw [popped, setState, modify_coros_isSome]
      exact hsome
    cases hit with
    | initial l _ he | await d k cd _ _ he =>
      subst he
      simp only [setPoint, modify_coros_isSome]
      exact h₁
    | sleep hp hf =>
      rw [finish_isSome hf]
      · exact h₁
      · intro c₁ hc₁
        rw [popped_coros_self hci] at hc₁
        cases hc₁
        exact (sh.idle i ci hci (by rw [hp]; rfl)).trans (by rw [hp]; rfl)
    | refused a | failed a | posted a | io a => exact a.elim
  | round hs =>
    cases hs with
    | mk _ _ hpoll hcall =>
      simp only [coroWorld, Prod.mk.injEq, Except.ok.injEq] at hpoll
      rw [← hpoll.1, callAll, Option.some.injEq] at hcall
      subst hcall
      exact (hlive hsome hn).elim
  | env hs => exact hs.elim

/-! ## The disciplines -/

/-- What is about to be awaited is the child just made. -/
theorem Shape.awaiting {me d : ℕ} (sh : Shape pr s) (ha : s.awaiting (direct pr) = some (me, d)) :
    ∃ c, s.coros d = some c ∧ c.creator = some me ∧ c.next = none := by
  rcases sh.single with hstack | ⟨me', l, hstack⟩
  · simp [Loop.awaiting, hstack] at ha
  · cases siteOp pr l with
    | goto l' hop _ _ => simp [Loop.awaiting, hstack, hop, goto] at ha
    | await d' bind k e =>
      simp only [Loop.awaiting, hstack, direct, Option.some.injEq, Prod.mk.injEq] at ha
      obtain ⟨rfl, rfl⟩ := ha
      exact sh.made me' d' bind k e hstack
    | sleep | call | destroy | ret => simp [Loop.awaiting, hstack, direct] at ha

/-- A step of a direct-style program keeps to what its coroutine owns. -/
theorem Shape.owned (sh : Shape pr s) (t : Table none s)
    (hs : Step coroWorld (direct pr) s s') : Owned (direct pr) s s' where
  await := by
    rintro ⟨me, d⟩ hp
    obtain ⟨c, hc, hcr, -⟩ := sh.awaiting hp
    rw [hc]
    exact hcr
  destroy h _ c hc hn := by
    obtain ⟨me, o, bind, k, e, hstack⟩ := sh.gone t hs hc (by simpa using hn)
    obtain ⟨c', hc', hf⟩ := sh.awaited me h o bind k e hstack
    rw [show s.coros h = some c from hc] at hc'
    cases hc'
    rw [hf]
    rfl

/-- And awaits nothing twice. -/
theorem Shape.awaitedOnce (sh : Shape pr s) : AwaitedOnce (direct pr) s := by
  rintro ⟨me, d⟩ hp c hc _
  obtain ⟨c', hc', -, hn⟩ := sh.awaiting hp
  rw [show s.coros d = some c from hc] at hc'
  cases hc'
  exact hn

/-! ## The shape is kept -/

/-- The root outlives the run: it is nobody's child. -/
theorem Shape.root_step (sh : Shape pr s) (t : Table none s)
    (hs : Step coroWorld (direct pr) s s') : (s'.coros 0).isSome := by
  obtain ⟨c, hc⟩ := Option.isSome_iff_exists.mp sh.root
  cases hc' : s'.coros 0 with
  | some c' => rfl
  | none =>
    obtain ⟨me, o, bind, k, e, hstack⟩ := sh.gone t hs hc hc'
    obtain ⟨cme, hcme, -⟩ := (t.onStack me (by simp)).mp (by simp [running, hstack])
    have hlocals := sh.busy me _ cme hstack hcme
    have := (t.locals me cme 0 hcme (by rw [hlocals]; simp [Site.child])).1
    omega

/-- A step after which no body executes. -/
theorem Shape.step_idle (sh : Shape pr s) (t : Table none s)
    (hs : Step coroWorld (direct pr) s s') (hstack' : s'.stack = []) : Shape pr s' := by
  have hawait := ((sh.owned t hs).stepOk t).await
  -- nothing is made, and every coroutine keeps its locals or ends
  have hrow : ∀ h c', s'.coros h = some c' → ∃ c, s.coros h = some c ∧
      RowStep coroWorld (direct pr) s s' h c c' := by
    intro h c' hc'
    cases hc : s.coros h with
    | none =>
      obtain ⟨-, _, _, _, _, _, _, -, ⟨l', hl'⟩, -⟩ := hs.fresh_row hc hc'
      rw [hstack'] at hl'
      cases hl'
    | some c =>
      exact ⟨c, rfl, hs.row t hawait hc hc'⟩
  constructor
  case root => exact sh.root_step t hs
  case single => exact Or.inl hstack'
  case initial =>
    intro h c' l hc' hp
    obtain ⟨c, hc, hr⟩ := hrow h c' hc'
    cases hr.pointStep with
    | kept hpoint _ _ => exact sh.initial h c l hc (hpoint.symm.trans hp)
    | suspended _ _ _ _ _ _ _ hpoint | ended _ _ hpoint _ | resumed _ _ _ _ _ _ hpoint
    | posted _ _ _ _ _ hpoint =>
      rw [hpoint] at hp
      cases hp
  case await =>
    intro h c' d ks hc' hp
    obtain ⟨c, hc, hr⟩ := hrow h c' hc'
    cases hr.pointStep with
    | kept hpoint _ _ =>
      obtain ⟨h₁, h₂⟩ := sh.await h c d ks hc (hpoint.symm.trans hp)
      exact ⟨lt_of_lt_of_le h₁ hs.seq_le, h₂⟩
    | suspended l rest d' k' hstack hop hd hpoint =>
      rw [hpoint] at hp
      cases hp
      obtain ⟨cd, hcd, -⟩ := hd
      obtain ⟨bind, k₁, e, -, hk⟩ := eq_made_of_await hop
      exact ⟨lt_of_lt_of_le (t.fresh d cd hcd) hs.seq_le, bind, k₁, e, hk⟩
    | ended _ _ hpoint _ | resumed _ _ _ _ _ _ hpoint | posted _ _ _ _ _ hpoint =>
      rw [hpoint] at hp
      cases hp
  case idle =>
    intro h c' hc' hrun
    obtain ⟨c, hc, hr⟩ := hrow h c' hc'
    cases hr with
    | owns _ _ hmem _ =>
      rw [hstack'] at hmem
      cases hmem
    | still heq
    | scheduled _ _ heq
    | awaited _ _ _ _ _ _ _ _ heq
    | called _ _ _ _ _ heq
    | event _ _ _ _ _ heq =>
      subst heq
      exact (sh.idle h _ hc hrun :)
    | suspended l rest d k hstack hop _ heq =>
      subst heq
      -- the frame that suspends holds the child it suspends on
      have hlocals := sh.busy h l c (sh.stack_eq hstack) hc
      obtain ⟨bind, k₁, e, rfl, -⟩ := eq_made_of_await hop
      exact hlocals
    | ended _ _ _ heq =>
      subst heq
      rfl
    | resumed _ l _ _ hst _ _ =>
      rw [hstack'] at hst
      cases hst
    | posted _ a => exact a.elim
  case busy =>
    intro me l c hst
    rw [hstack'] at hst
    cases hst
  case made =>
    intro me d bind k e hst
    rw [hstack'] at hst
    cases hst
  case awaited =>
    intro me d o bind k e hst
    rw [hstack'] at hst
    cases hst

/-- The body goes on at a location about the same child. -/
theorem Shape.restack {me : ℕ} {l l' : Site P E V} (sh : Shape pr s)
    (hstack : s.stack = [(me, l)]) (hcoros : s'.coros = s.coros) (hseq : s'.seq = s.seq)
    (hstack' : s'.stack = [(me, l')]) (hchild : l'.child = l.child)
    (hmade : ∀ d bind k e, l' ≠ .made d bind k e)
    (hawaited : ∀ d o bind k e, l' = .awaited d o bind k e →
      ∃ c, s.coros d = some c ∧ c.point = .final) : Shape pr s' where
  root := by rw [hcoros]; exact sh.root
  single := Or.inr ⟨me, l', hstack'⟩
  initial := by rw [hcoros]; exact sh.initial
  await := by rw [hcoros, hseq]; exact sh.await
  idle := by rw [hcoros]; exact sh.idle
  busy me₁ l₁ c hst hc := by
    rw [hstack'] at hst
    cases hst
    rw [hcoros] at hc
    rw [hchild]
    exact sh.busy me l c hstack hc
  made me₁ d bind k e hst := by
    rw [hstack'] at hst
    cases hst
    exact absurd rfl (hmade d bind k e)
  awaited me₁ d o bind k e hst := by
    rw [hstack'] at hst
    cases hst
    rw [hcoros]
    exact hawaited d o bind k e rfl

/-- The child is destroyed, and the body goes on without. -/
theorem Shape.destroy_child {me d : ℕ} {o : Outcome V} {bind : Option V → E → E}
    {k : List (Frame P E V)} {e : E} (sh : Shape pr s) (t : Table none s)
    (hstack : s.stack = [(me, .awaited d o bind k e)])
    (hs : Step coroWorld (direct pr) s s')
    (hstack' : s'.stack = [(me, .after (.ofOutcome bind e o) k)])
    (hrows : ∀ i c', s'.coros i = some c' → ∃ c, s.coros i = some c ∧
      c' = { c with locals := if i = me then c.locals.filter (· ≠ d) else c.locals }) :
    Shape pr s' := by
  obtain ⟨cme, hcme, hcrun⟩ := (t.onStack me (by simp)).mp (by simp [running, hstack])
  constructor
  case root => exact sh.root_step t hs
  case single => exact Or.inr ⟨me, _, hstack'⟩
  case initial =>
    intro h c' l hc' hp
    obtain ⟨c, hc, rfl⟩ := hrows h c' hc'
    exact sh.initial h c l hc hp
  case await =>
    intro h c' d' ks hc' hp
    obtain ⟨c, hc, rfl⟩ := hrows h c' hc'
    obtain ⟨h₁, h₂⟩ := sh.await h c d' ks hc hp
    exact ⟨lt_of_lt_of_le h₁ hs.seq_le, h₂⟩
  case idle =>
    intro h c' hc' hr
    obtain ⟨c, hc, rfl⟩ := hrows h c' hc'
    have hne : h ≠ me := by
      rintro rfl
      rw [hc] at hcme
      cases hcme
      rw [show cme.point.isRunning = false from hr] at hcrun
      cases hcrun
    show (if h = me then _ else c.locals) = _
    rw [if_neg hne]
    exact sh.idle h c hc hr
  case busy =>
    intro me₁ l₁ c' hst hc'
    rw [hstack'] at hst
    cases hst
    obtain ⟨c, hc, rfl⟩ := hrows me c' hc'
    show (if me = me then c.locals.filter (· ≠ d) else c.locals) = _
    rw [if_pos rfl, sh.busy me _ c hstack hc]
    simp [Site.child]
  case made =>
    intro me₁ d₁ bind₁ k₁ e₁ hst
    rw [hstack'] at hst
    cases hst
  case awaited =>
    intro me₁ d₁ o₁ bind₁ k₁ e₁ hst
    rw [hstack'] at hst
    cases hst

/-- `Runone` resumes the front of `ready_`. -/
theorem Shape.start {h : ℕ} {l : Site P E V} {c : Coro (Site P E V) Empty V} (sh : Shape pr s)
    (hseq : s'.seq = s.seq) (hstack' : s'.stack = [(h, l)])
    (hcoros : ∀ i, s'.coros i = if i = h then some { c with point := .running, state := .kUnschedule }
      else s.coros i)
    (hlocals : c.locals = l.child.toList) (hmade : ∀ d bind k e, l ≠ .made d bind k e)
    (hawaited : ∀ d o bind k e, l = .awaited d o bind k e → d ≠ h ∧
      ∃ c, s.coros d = some c ∧ c.point = .final) : Shape pr s' := by
  have hrow : ∀ i c', s'.coros i = some c' → c'.point.isRunning = false → s.coros i = some c' := by
    intro i c' hc' hr
    rw [hcoros] at hc'
    split at hc'
    · cases hc'
      cases hr
    · exact hc'
  constructor
  case root =>
    rw [hcoros]
    split
    · rfl
    · exact sh.root
  case single => exact Or.inr ⟨h, l, hstack'⟩
  case initial =>
    intro i c' l' hc' hp
    exact sh.initial i c' l' (hrow i c' hc' (by rw [hp]; rfl)) hp
  case await =>
    intro i c' d ks hc' hp
    rw [hseq]
    exact sh.await i c' d ks (hrow i c' hc' (by rw [hp]; rfl)) hp
  case idle =>
    intro i c' hc' hr
    exact sh.idle i c' (hrow i c' hc' hr) hr
  case busy =>
    intro me l' c' hst hc'
    rw [hstack'] at hst
    cases hst
    rw [hcoros, if_pos rfl, Option.some.injEq] at hc'
    rw [← hc']
    exact hlocals
  case made =>
    intro me d bind k e hst
    rw [hstack'] at hst
    cases hst
    exact absurd rfl (hmade d bind k e)
  case awaited =>
    intro me d o bind k e hst
    rw [hstack'] at hst
    cases hst
    obtain ⟨hne, cd, hcd, hf⟩ := hawaited d o bind k e rfl
    exact ⟨cd, by rw [hcoros, if_neg hne]; exact hcd, hf⟩

/-- **A step keeps the shape.** -/
theorem Shape.step (sh : Shape pr s) (t : Table none s)
    (hs : Step coroWorld (direct pr) s s') : Shape pr s' := by
  have hstep := hs
  cases hs with
  | exec now hs =>
    rcases sh.single with hstack | ⟨me, l, hstack⟩
    · simp [exec, hstack] at hs
    · unfold exec at hs
      simp only [hstack] at hs
      cases siteOp pr l with
      | goto l' hop hl hl' =>
        simp only [hop, goto, Option.some.injEq] at hs
        subst hs
        refine sh.restack hstack rfl rfl rfl (hl'.trans hl.symm) ?_ ?_
        · rintro d bind k e rfl
          cases hl'
        · rintro d o bind k e rfl
          cases hl'
      | sleep d k e =>
        simp only [direct, Option.some.injEq] at hs
        subst hs
        refine sh.spawn { Coro.new .sleep true (some me) with state := .kScheduled } t hstack
          rfl (modify_coros_congr spawn_callAfter_coros) rfl rfl rfl rfl rfl rfl rfl
          fun l h => by cases h
      | call p arg bind k e =>
        simp only [direct, Option.some.injEq] at hs
        subst hs
        refine sh.spawn (Coro.new (.initial (.before (pr.body p) [] (arg e))) (pr.isVoid p)
          (some me)) t hstack rfl rfl rfl rfl rfl rfl rfl rfl rfl ?_
        intro l hl
        cases hl
        exact ⟨p, arg e, rfl⟩
      | await d bind k e =>
        simp only [direct] at hs
        cases hd : s.coros d with
        | none => simp [hd] at hs
        | some cd =>
          simp only [hd] at hs
          split at hs
          · rename_i hf
            cases hs
            refine sh.restack hstack rfl rfl rfl rfl (fun _ _ _ _ h => by cases h) ?_
            intro d₁ o₁ bind₁ k₁ e₁ heq
            cases heq
            exact ⟨cd, hd, Point.eq_final hf⟩
          · cases hs
            refine sh.step_idle t hstep ?_
            rw [awaitSuspend, schedule_stack]
            rfl
      | destroy d o bind k e =>
        simp only [direct] at hs
        split at hs
        · simp only [Option.some.injEq] at hs
          subst hs
          have he := erased_destroy s.seq d
            (Loop.dropLocal me d { s with stack := [(me, .after (.ofOutcome bind e o) k)] })
          refine sh.destroy_child t hstack hstep he.stack fun i c' hc' => ?_
          rcases modify_coros_eq_some.mp (he.coros_eq hc') with ⟨hi, c, hc, rfl⟩ | ⟨hi, hc⟩
          · exact ⟨c, by rw [hi]; exact hc, by rw [if_pos hi]⟩
          · exact ⟨c', hc, by rw [if_neg hi]⟩
        · cases hs
      | ret r =>
        simp only [direct] at hs
        refine sh.step_idle t hstep ?_
        obtain ⟨c, -, s₁, he, -, ⟨-, rfl⟩ | ⟨p, cp, -, -, rfl⟩⟩ := finish_cases hs
        · exact he.stack
        · exact he.stack
  | resume hstack hs =>
    obtain ⟨h, n, q, c, -, hready, hc, hit⟩ := iteration_of_resume hs
    have hcoros : ∀ i, ((s.popped h n q).setPoint .running h).coros i =
        if i = h then some { c with point := .running, state := .kUnschedule } else s.coros i := by
      intro i
      rw [setPoint, modify_coros]
      split
      · rename_i hi
        rw [hi, popped_coros_self hc]
        rfl
      · rename_i hi
        exact popped_coros_of_ne hi
    cases hit with
    | initial l hp he =>
      subst he
      obtain ⟨p, e, rfl⟩ := sh.initial h c l hc hp
      refine sh.start (c := c) rfl rfl hcoros ?_ (fun _ _ _ _ h => by cases h)
        (fun _ _ _ _ _ h => by cases h)
      rw [sh.idle h c hc (by rw [hp]; rfl), hp]
      rfl
    | await d k cd hp hd he =>
      subst he
      obtain ⟨-, bind, ks, e, rfl⟩ := sh.await h c d k hc hp
      -- what is waited for has ended, and is not the waiter
      have hover := t.over_of_mem_queued hc hp (by simp [Loop.queued, hready])
      have hdh : d ≠ h := by
        rintro rfl
        have hf := hover.2 c hc
        rw [hp] at hf
        cases hf
      have hd₀ : s.coros d = some cd := (popped_coros_of_ne hdh).symm.trans hd
      refine sh.start (c := c) rfl rfl hcoros ?_ (fun _ _ _ _ h => by cases h) ?_
      · rw [sh.idle h c hc (by rw [hp]; rfl), hp]
        rfl
      · intro d₁ o₁ bind₁ k₁ e₁ heq
        cases heq
        exact ⟨hdh, cd, hd₀, Point.eq_final (hover.2 cd hd₀)⟩
    | sleep hp hf =>
      refine sh.step_idle t hstep ?_
      obtain ⟨c₂, -, s₂, he, -, ⟨-, rfl⟩ | ⟨p, cp, -, -, rfl⟩⟩ := finish_cases hf
      · exact he.stack.trans hstack
      · exact he.stack.trans hstack
    | refused a | failed a | posted a | io a => exact a.elim
  | round hs =>
    refine sh.step_idle t hstep ?_
    cases hs with
    | mk hhead _ hpoll hcall =>
      simp only [coroWorld, Prod.mk.injEq, Except.ok.injEq] at hpoll
      rw [← hpoll.1, callAll, Option.some.injEq] at hcall
      subst hcall
      exact hhead.1
  | env hs => exact hs.elim

end EfaExamples
