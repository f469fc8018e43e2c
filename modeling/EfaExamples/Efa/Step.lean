import EfaExamples.Efa.Contexts
/-!
# What a step does to the fabric

A step leaves the selector and the fabric alone, or is one of a few things:
the front of `ready_` posts or registers, one takes its result, `Select`
takes a batch, or the fabric moves. This is of any program and in any state.
-/

namespace EfaExamples

open Loop

variable {Loc G : Type} {code : Loc → Op Loc G ConnOp Val}
variable {s s' : Loop Loc G ConnOp Fabric Val} {h : ℕ}

/-- **The cases of a step, as the fabric sees it.** -/
inductive FabricStep (s s' : Loop Loc G ConnOp Fabric Val) : Prop
  | same : s'.world = s.world → FabricStep s s'
  /-- the front of `ready_` begins, and throws before it has posted -/
  | threw (h : ℕ) (a : ConnOp) (mem : ℕ → UInt8) :
      s'.world = { s.world with mem := mem } → FabricStep s s'
  /-- it posts -/
  | posted (h : ℕ) (c : Coro Loc ConnOp Val) (a : ConnOp) (q : List ℕ) (req : Request)
      (mem : ℕ → UInt8) : s.stack = [] → s.ready = h :: q → s.coros h = some c →
      c.point = .initialIo a → a.request = some req → s.world.rc = 0 →
      a.enter s.world = .ok { s.world with mem := mem } →
      s'.op h = some (a, .kSuspend) →
      s'.world = { s.world with
        mem := mem
        inflight := s.world.inflight ++ [⟨h, req⟩]
        history := { s.world.history with posted := s.world.history.posted ++ [⟨h, req⟩] } } →
      FabricStep s s'
  /-- it registers -/
  | registered (h : ℕ) (c : Coro Loc ConnOp Val) (a : ConnOp) (q : List ℕ) (mem : ℕ → UInt8) :
      s.stack = [] → s.ready = h :: q → s.coros h = some c → c.point = .initialIo a →
      a.request = none → s'.op h = some (a, .kSuspend) →
      s'.world = { s.world with mem := mem }.register a.awaitedImm h → FabricStep s s'
  /-- it takes its result -/
  | resumed (h : ℕ) (c : Coro Loc ConnOp Val) (a : ConnOp) (q : List ℕ) : s.stack = [] →
      s.ready = h :: q → s.coros h = some c → c.point = .io a →
      s'.world = (a.resume h s.world).2 → FabricStep s s'
  | taken (events : List ℕ) : s.AtHead → Fabric.Taken s.world s.world.batch events s'.world →
      FabricStep s s'
  | moved (m : Fabric.Move) : s.world.move m = some s'.world → s' = { s with world := s'.world } →
      FabricStep s s'

/-- A post that succeeds finds 0 returned. -/
theorem ConnOp.rc_of_post {a : ConnOp} {f f' : Fabric} (hp : a.post h f = (none, f'))
    (hreq : a.request ≠ none) : f.rc = 0 := by
  obtain ⟨req, hr⟩ := Option.ne_none_iff_exists'.mp hreq
  simp only [post, hr, Fabric.submit] at hp
  split at hp
  · assumption
  · simp at hp

/-- **Every step is one of these.** -/
theorem Loop.Step.fabricStep (hs : Step efaWorld code s s') : FabricStep s s' := by
  cases hs with
  | exec now hs => exact .same (exec_appends hs).world
  | resume hstack hs =>
    obtain ⟨h, c, q, r, -, hready, hc, -, hfront⟩ := Loop.frontStep hs
    cases hfront with
    | idle _ _ hw _ | refused _ _ _ _ hw _ => exact .same hw
    | failed a e x _ henter hpost _ =>
      obtain ⟨mem, rfl⟩ := ConnOp.enter_ok henter
      exact .threw h a mem (ConnOp.post_error hpost)
    | posted a x hp henter hpost hop =>
      obtain ⟨mem, rfl⟩ := ConnOp.enter_ok henter
      rcases ConnOp.post_ok hpost with ⟨req, hreq, hx⟩ | ⟨hreq, hx⟩
      · have hrc := ConnOp.rc_of_post hpost (by simp [hreq])
        exact .posted h c a q req mem hstack hready hc hp hreq hrc henter hop hx
      · exact .registered h c a q mem hstack hready hc hp hreq hop hx
    | ended a hp hw _ => exact .resumed h c a q hstack hready hc hp hw
  | round hr =>
    obtain ⟨events, due, hhead, hpoll, -⟩ := hr.world
    exact .taken events hhead (Fabric.taken_of_select hpoll)
  | env henv =>
    obtain ⟨m, hm⟩ := henv
    exact .moved m hm rfl

/-- **Coroutine `h` begins with `a`, and posts `req`.** -/
structure Posts (s s' : Loop Loc G ConnOp Fabric Val) (h : ℕ) (a : ConnOp) (req : Request) :
    Prop where
  stack : s.stack = []
  ready : ∃ q, s.ready = h :: q
  point : ∃ c, s.coros h = some c ∧ c.point = .initialIo a
  request : a.request = some req
  enter : ∃ f, a.enter s.world = .ok f
  suspended : s'.op h = some (a, .kSuspend)
  posted : s'.world.history.posted = s.world.history.posted ++ [⟨h, req⟩]

/-- **What has been posted stays as it is**, but for one post. -/
theorem Loop.Step.posted_cases (hs : Step efaWorld code s s') :
    s'.world.history.posted = s.world.history.posted ∨ ∃ h a req, Posts s s' h a req := by
  cases hs.fabricStep with
  | same hw | threw h a mem hw => exact Or.inl (by rw [hw])
  | registered h c a q mem _ _ _ _ _ _ hw =>
    left
    rw [hw]
    rfl
  | resumed h c a q _ _ _ _ hw => exact Or.inl (by rw [hw, (ConnOp.resume_snd a h _).1])
  | taken events _ tk => exact Or.inl (by rw [tk.eq])
  | moved m hm => exact Or.inl (by rw [(Fabric.moved_of_move hm).1.history])
  | posted h c a q req mem hstack hready hc hp hreq _ henter hop hw =>
    exact Or.inr ⟨h, a, req, hstack, ⟨q, hready⟩, ⟨c, hc, hp⟩, hreq, ⟨_, henter⟩, hop, by rw [hw]⟩

/-- Only a post adds to what the fabric owes. -/
theorem FabricStep.outstanding_length (hf : FabricStep s s')
    (hn : s'.world.history.posted = s.world.history.posted) :
    s'.world.outstanding.length ≤ s.world.outstanding.length := by
  cases hf with
  | same hw | threw d a mem hw | registered d c a q mem _ _ _ _ _ _ hw => exact hw ▸ le_rfl
  | posted d c a q req mem _ _ _ _ _ _ _ _ hw =>
    rw [hw] at hn
    simp at hn
  | resumed d c a q _ _ _ _ hw =>
    rw [hw, (ConnOp.resume_snd a d _).1]
    exact le_rfl
  | taken events _ tk =>
    have hle := tk.outstanding_perm.length_eq
    rw [List.length_append] at hle
    omega
  | moved m hm => exact (Fabric.moved_of_move hm).1.outstanding_perm.length_eq.le

/-- What has been posted is on record, and so is all that is in flight, copied, or
owed a completion. -/
structure Recorded (f : Fabric) : Prop where
  inflight : ∀ p ∈ f.inflight, p ∈ f.history.posted
  outstanding : ∀ h ∈ f.outstanding, ∃ p ∈ f.history.posted, p.ctx = h
  placed : ∀ p ∈ f.history.placed, p.1 ∈ f.history.posted

theorem Recorded.of_subset {f f' : Fabric} (hr : Recorded f)
    (hi : ∀ p ∈ f'.inflight, p ∈ f.inflight) (ho : ∀ h ∈ f'.outstanding, h ∈ f.outstanding)
    (hp : f'.history.posted = f.history.posted)
    (hpl : ∀ p ∈ f'.history.placed, p ∈ f.history.placed ∨ p.1 ∈ f.inflight) : Recorded f' where
  inflight p hm := by
    rw [hp]
    exact hr.inflight p (hi p hm)
  outstanding h hh := by
    rw [hp]
    exact hr.outstanding h (ho h hh)
  placed p hm := by
    rw [hp]
    exact (hpl p hm).elim (hr.placed p) (hr.inflight p.1)

/-- **One step keeps the record.** -/
theorem Recorded.step (hr : Recorded s.world) (hs : Step efaWorld code s s') :
    Recorded s'.world := by
  cases hs.fabricStep with
  | same hw | threw h a mem hw | registered h c a q mem _ _ _ _ _ _ hw =>
    rw [hw]
    exact hr.of_subset (fun _ => id) (fun _ => id) rfl fun _ => Or.inl
  | posted h c a q req mem _ _ _ _ _ _ _ _ hw =>
    rw [hw]
    refine ⟨fun p hp => ?_, fun i hi => ?_, fun p hp => List.mem_append_left _ (hr.placed p hp)⟩
    · rcases List.mem_append.mp hp with hp | hp
      · exact List.mem_append_left _ (hr.inflight p hp)
      · exact List.mem_append_right _ hp
    · have hi : i ∈ (s.world.inflight ++ [(⟨h, req⟩ : Posted)]).map Posted.ctx ++
          s.world.completions.filterMap fun p => p.2.operation := hi
      have hold : i ∈ s.world.outstanding →
          ∃ p ∈ s.world.history.posted ++ [(⟨h, req⟩ : Posted)], p.ctx = i := by
        intro hi
        obtain ⟨p, hp, hctx⟩ := hr.outstanding i hi
        exact ⟨p, List.mem_append_left _ hp, hctx⟩
      simp only [List.map_append, List.map_cons, List.map_nil, List.mem_append,
        List.mem_singleton] at hi
      rcases hi with (hi | rfl) | hi
      · exact hold (List.mem_append_left _ hi)
      · exact ⟨_, List.mem_append_right _ (List.mem_singleton_self _), rfl⟩
      · exact hold (List.mem_append_right _ hi)
  | resumed h c a q _ _ _ _ hw =>
    rw [hw, (ConnOp.resume_snd a h _).1]
    exact hr.of_subset (fun _ => id) (fun _ => id) rfl fun _ => Or.inl
  | taken events _ tk =>
    refine hr.of_subset (fun p hp => tk.inflight ▸ hp) (fun i hi => ?_) (by rw [tk.eq])
      fun p hp => Or.inl (tk.placed ▸ hp)
    exact tk.outstanding_perm.subset (List.mem_append_right _ hi)
  | moved m hm =>
    have hmoved := (Fabric.moved_of_move hm).1
    have hout := fun i (hi : i ∈ s'.world.outstanding) => hmoved.outstanding_perm.subset hi
    have hposted : s'.world.history.posted = s.world.history.posted := by rw [hmoved.history]
    cases hmoved with
    | placed p bs hp _ hf _ hh =>
      refine hr.of_subset (fun p' hp' => hf ▸ hp') hout hposted fun p' hp' => ?_
      rw [hh] at hp'
      rcases List.mem_append.mp hp' with hp' | hp'
      · exact Or.inl hp'
      · rw [List.mem_singleton.mp hp']
        exact Or.inr hp
    | completed cq p len _ _ hf _ hh =>
      exact hr.of_subset (fun p' hp' => List.mem_of_mem_erase (hf ▸ hp')) hout hposted
        fun p' hp' => Or.inl (hh ▸ hp')
    | notified _ _ _ hf _ hh | still hf _ hh =>
      exact hr.of_subset (fun p' hp' => hf ▸ hp') hout hposted fun p' hp' => Or.inl (hh ▸ hp')

end EfaExamples
