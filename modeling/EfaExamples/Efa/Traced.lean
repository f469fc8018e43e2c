import EfaExamples.Coro.Change
import EfaExamples.Efa.History
import EfaExamples.Efa.Process
import EfaExamples.Efa.Resumption
/-!
# What an operation returns, and what was copied for it

For every program, whatever it destroys and whenever it awaits: a context is
posted once, with what its coroutine called, and the completion that comes to
it is of this post and tells how many bytes were copied (`Traced`). So an
operation that returns a value has had its bytes copied (`Traced.placed_of_value`).
-/

namespace EfaExamples

open Loop

variable {Loc G : Type} {code : Loc → Op Loc G ConnOp Val} {w : World ConnOp Fabric Val}
variable {s s' : Loop Loc G ConnOp Fabric Val} {l : Label ℕ Packet} {h : ℕ}
variable {r : Option Request} {f f' : Fabric} {e : Entry}

/-- **Coroutine `h` has begun**, and if it is in an operation, posts `r`. -/
def PostsOnly (s : Loop Loc G ConnOp Fabric Val) (h : ℕ) (r : Option Request) : Prop :=
  h < s.seq ∧ ∀ c, s.coros h = some c → ∀ a, c.point ≠ .initialIo a ∧ (c.point = .io a → a.request = r)

/-- What has begun does not begin again. -/
theorem PostsOnly.step (hb : PostsOnly s h r) (hs : Step w code s s') : PostsOnly s' h r := by
  refine ⟨hb.1.trans_le hs.seq_le, fun c' hc' a => ?_⟩
  cases hs.change hc' with
  | kept hk =>
    obtain ⟨c, hc, hp, -⟩ := hk
    rw [hp]
    exact hb.2 c hc a
  | made now me l rest c sched inner l' _ _ hh _ _ _ =>
    have := hb.1
    omega
  | suspended c l rest d k _ _ _ hp _ | running c _ hp _ | ended c o _ _ hp _ => simp [hp]
  | posted c q b hc _ _ hpc _ _ => exact absurd hpc (hb.2 c hc b).1

/-- The copied bytes of the operation of context `h` are what entry `e` tells of. -/
def Fabric.Tells (f : Fabric) (h : ℕ) (e : Entry) : Prop :=
  ∃ p ∈ f.history.placed, p.1.ctx = h ∧ e.flags = p.1.req.flags ∧
    ∀ base sz, p.1.req = .recv base sz → e.len = p.2.length

theorem Fabric.Tells.grows (ht : f.Tells h e) (hg : f.history.Grows f'.history) : f'.Tells h e := by
  obtain ⟨p, hp, hcase⟩ := ht
  exact ⟨p, hg.placed.subset hp, hcase⟩

/-- **Every completion is of the one post with its context.** -/
structure Traced (s : Loop Loc G ConnOp Fabric Val) : Prop where
  fresh : ∀ h c, s.coros h = some c → h < s.seq
  record : Recorded s.world
  posted : ∀ p ∈ s.world.history.posted, PostsOnly s p.ctx (some p.req)
  once : (s.world.history.posted.map Posted.ctx).Nodup
  registered : ∀ id h, s.world.immDataContexts id = some h → PostsOnly s h none
  completed : ∀ q ∈ s.world.completions, ∀ h, q.2.operation = some h → s.world.Tells h q.2
  entry : ∀ h, s.world.entry h = {} ∨ s.world.Tells h (s.world.entry h) ∨ PostsOnly s h none

namespace Traced

/-- What is posted with one context is one post. -/
theorem eq_of_ctx (tr : Traced s) {p q : Posted} (hp : p ∈ s.world.history.posted)
    (hq : q ∈ s.world.history.posted) (hctx : p.ctx = q.ctx) : p = q :=
  List.inj_on_of_nodup_map tr.once hp hq hctx

/-! ## One step -/

/-- What is posted, by a coroutine that begins. -/
theorem posted_step (tr : Traced s) (hs : Step efaWorld code s s') :
    (∀ p ∈ s'.world.history.posted, PostsOnly s' p.ctx (some p.req)) ∧
      (s'.world.history.posted.map Posted.ctx).Nodup := by
  rcases hs.posted_cases with hsame | ⟨h, a, req, hpost⟩
  · rw [hsame]
    exact ⟨fun p hp => (tr.posted p hp).step hs, tr.once⟩
  · obtain ⟨c, hc, hpoint⟩ := hpost.point
    obtain ⟨c', hc', hpoint', -⟩ := op_eq_some.mp hpost.suspended
    have hnew : PostsOnly s' h (some req) := by
      refine ⟨(tr.fresh h c hc).trans_le hs.seq_le, fun c₁ hc₁ b => ?_⟩
      rw [hc', Option.some.injEq] at hc₁
      subst hc₁
      refine ⟨by simp [hpoint'], fun hb => ?_⟩
      rw [hpoint', Point.io.injEq] at hb
      exact hb ▸ hpost.request
    rw [hpost.posted, List.map_append]
    refine ⟨fun p hp => ?_, List.nodup_append.mpr ⟨tr.once, by simp, ?_⟩⟩
    · rcases List.mem_append.mp hp with hp | hp
      · exact (tr.posted p hp).step hs
      · obtain rfl := List.mem_singleton.mp hp
        exact hnew
    · rintro x hx y hy rfl
      obtain ⟨p, hp, hctx⟩ := List.mem_map.mp hx
      obtain rfl : x = h := by simpa using hy
      rw [← hctx] at hc
      exact ((tr.posted p hp).2 c hc a).1 hpoint

/-- What is registered, by a coroutine that begins. -/
theorem registered_step (tr : Traced s) (hs : Step efaWorld code s s') :
    ∀ id h, s'.world.immDataContexts id = some h → PostsOnly s' h none := by
  intro id i hi
  have hold : s.world.immDataContexts id = some i → PostsOnly s' i none :=
    fun hi => (tr.registered id i hi).step hs
  cases hs.fabricStep with
  | same hw | threw h a mem hw | posted h c a q req mem _ _ _ _ _ _ _ _ hw =>
    rw [hw] at hi
    exact hold hi
  | registered h c a q mem _ _ hc _ hreq hop hw =>
    rw [hw] at hi
    rcases Fabric.registered_of_register hi with hi | ⟨-, rfl⟩
    · exact hold hi
    · obtain ⟨c', hc', hpoint', -⟩ := op_eq_some.mp hop
      refine ⟨(tr.fresh i c hc).trans_le hs.seq_le, fun c₁ hc₁ b => ?_⟩
      rw [hc', Option.some.injEq] at hc₁
      subst hc₁
      refine ⟨by simp [hpoint'], fun hb => ?_⟩
      rw [hpoint', Point.io.injEq] at hb
      exact hb ▸ hreq
  | resumed h c a q _ _ _ _ hw =>
    rw [hw, (ConnOp.resume_snd a h _).2] at hi
    split at hi
    · exact hold (Fabric.registered_of_unRegister hi).1
    · exact hold hi
  | taken events _ tk =>
    rw [tk.immDataContexts] at hi
    exact hold hi
  | moved m hm _ =>
    rw [(Fabric.moved_of_move hm).2.1] at hi
    exact hold hi

/-- What a context has been given. -/
theorem entry_step (tr : Traced s) (hs : Step efaWorld code s s') : ∀ h,
    s'.world.entry h = {} ∨ s'.world.Tells h (s'.world.entry h) ∨ PostsOnly s' h none := by
  intro h
  have hgrow := hs.grows
  have hold : s'.world.entry h = s.world.entry h →
      s'.world.entry h = {} ∨ s'.world.Tells h (s'.world.entry h) ∨ PostsOnly s' h none := by
    intro heq
    rw [heq]
    exact (tr.entry h).imp_right (Or.imp (·.grows hgrow) (·.step hs))
  cases hs.fabricStep with
  | same hw | threw i a mem hw | posted i c a q req mem _ _ _ _ _ _ _ _ hw =>
    exact hold (by rw [hw])
  | registered i c a q mem _ _ _ _ _ _ hw =>
    refine hold ?_
    rw [hw]
    rfl
  | resumed i c a q _ _ _ _ hw => exact hold (by rw [hw, (ConnOp.resume_snd a i _).1])
  | moved m hm _ => exact hold (by rw [(Fabric.moved_of_move hm).2.2.1])
  | taken events _ tk =>
    rcases tk.entry h with ⟨heq, -⟩ | ⟨e, he, hctx, heq⟩
    · exact hold heq
    · right
      rw [heq]
      rcases Fabric.operation_or_registered hctx with ho | ⟨-, -, hreg⟩
      · obtain ⟨cq, hq⟩ := Contexts.mem_completions_of_batch he
        exact Or.inl ((tr.completed _ hq h ho).grows hgrow)
      · exact Or.inr ((tr.registered _ h hreg).step hs)

end Traced

/-- A move that puts in an entry for an operation completes it. -/
theorem Fabric.complete_of_move {m : Fabric.Move} (hm : f.move m = some f') {q : ℕ × Entry}
    (hq : q ∈ f'.completions) (ho : q.2.operation = some h) : q ∈ f.completions ∨
      ∃ cq p, m = .complete cq h q.2.len ∧ p ∈ f.inflight ∧ p.ctx = h ∧ f.Placed h ∧
        q.2.flags = p.req.flags := by
  cases m with
  | place ctx msg =>
    rw [Fabric.move] at hm
    split at hm
    · rename_i p _
      split at hm
      · cases hm
      · obtain ⟨mem, remote, bs, hcopy⟩ := Fabric.copy_eq p msg f
        rw [Option.some.injEq, hcopy] at hm
        subst hm
        exact Or.inl hq
    · cases hm
  | complete cq ctx len =>
    rw [Fabric.move] at hm
    split at hm
    · rename_i p hfind
      have hctx : p.ctx = ctx := by simpa using List.find?_some hfind
      split at hm
      · rename_i hplaced
        obtain rfl := Option.some.inj hm
        rcases List.mem_append.mp hq with hq | hq
        · exact Or.inl hq
        · rw [List.mem_singleton.mp hq] at ho ⊢
          have hflags : p.req.flags.remoteWrite = false := by cases p.req <;> rfl
          simp only [Entry.operation, hflags, Bool.false_eq_true, if_false,
            Option.some.injEq] at ho
          subst ho
          exact Or.inr ⟨cq, p, rfl, List.mem_of_find?_eq_some hfind, hctx, hplaced, rfl⟩
      · cases hm
    · cases hm
  | notify cq e =>
    rw [Fabric.move] at hm
    split at hm
    · rename_i he
      obtain rfl := Option.some.inj hm
      rcases List.mem_append.mp hq with hq | hq
      · exact Or.inl hq
      · rw [List.mem_singleton.mp hq, Entry.operation] at ho
        rcases he with he | he <;> simp [he] at ho
    · cases hm
  | fail cq err | setRc rc =>
    obtain rfl := Option.some.inj hm
    exact Or.inl hq

/-- What runs at the front of `ready_` puts in no entry. -/
theorem Loop.completions_of_resume (hs : s.resume efaWorld = some s') :
    s'.world.completions = s.world.completions := by
  obtain ⟨h, c, q, r, -, -, -, -, hfront⟩ := Loop.frontStep hs
  cases hfront with
  | idle _ _ hw _ | refused _ _ _ _ hw _ => rw [hw]
  | failed a e x _ henter hpost _ =>
    obtain ⟨mem, rfl⟩ := ConnOp.enter_ok henter
    rw [ConnOp.post_error hpost]
  | posted a x _ henter hpost _ =>
    obtain ⟨mem, rfl⟩ := ConnOp.enter_ok henter
    rcases ConnOp.post_ok hpost with ⟨req, -, hx⟩ | ⟨-, hx⟩
    · rw [hx]
    · rw [hx]
      rfl
  | ended a _ hw _ => rw [hw, show efaWorld.resume a h s.world = a.resume h s.world from rfl,
      (ConnOp.resume_snd a h _).1]

/-- **An entry that comes in for an operation** tells of what was copied for it. -/
theorem ProcessStep.completions (hs : ProcessStep code s l s') {q : ℕ × Entry}
    (hq : q ∈ s'.world.completions) (ho : q.2.operation = some h) :
    (∃ cq, (cq, q.2) ∈ s.world.completions) ∨
      ∃ p ∈ s.world.inflight, p.ctx = h ∧ s.world.Placed h ∧ q.2.flags = p.req.flags ∧
        ∀ p' ∈ s.world.history.placed, p'.1.ctx = h →
          ∀ base sz, p'.1.req = .recv base sz → q.2.len = p'.2.length := by
  have hmoved : ∀ {m : Fabric.Move} {f : Fabric}, s.world.move m = some f → q ∈ f.completions →
      (∀ cq ctx len, m = .complete cq ctx len → s.world.Own m) →
      (∃ cq, (cq, q.2) ∈ s.world.completions) ∨
        ∃ p ∈ s.world.inflight, p.ctx = h ∧ s.world.Placed h ∧ q.2.flags = p.req.flags ∧
          ∀ p' ∈ s.world.history.placed, p'.1.ctx = h →
            ∀ base sz, p'.1.req = .recv base sz → q.2.len = p'.2.length := by
    intro m f hm hq hown
    rcases Fabric.complete_of_move hm hq ho with hq | ⟨cq, p, rfl, hp, hctx, hplaced, hflags⟩
    · exact Or.inl ⟨q.1, hq⟩
    · exact Or.inr ⟨p, hp, hctx, hplaced, hflags, hown _ _ _ rfl⟩
  cases hs with
  | own hs =>
    cases hs with
    | exec now hs => exact Or.inl ⟨q.1, (exec_appends hs).world ▸ hq⟩
    | resume hstack hs =>
      have hs : s.resume efaWorld = some s' := hs
      exact Or.inl ⟨q.1, Loop.completions_of_resume hs ▸ hq⟩
    | round hr =>
      obtain ⟨events, due, -, hpoll, -⟩ := hr.world
      exact Or.inl ((Fabric.taken_of_select hpoll).mem_completions hq)
    | env henv =>
      obtain ⟨m, hown, hm⟩ := henv
      exact hmoved hm hq fun _ _ _ _ => hown
  | place _ _ hm | receive _ _ _ hm | notice _ hm =>
    exact hmoved hm hq fun _ _ _ heq => by cases heq

namespace Traced

/-- **A step keeps it.** -/
theorem step (tr : Traced s) (hs : ProcessStep code s l s') : Traced s' where
  fresh := hs.step.fresh tr.fresh
  record := tr.record.step hs.step
  posted := (tr.posted_step hs.step).1
  once := (tr.posted_step hs.step).2
  registered := tr.registered_step hs.step
  completed q hq h ho := by
    have hgrow := hs.step.grows
    rcases hs.completions hq ho with ⟨cq, hq⟩ | ⟨p, hp, hctx, hplaced, hflags, hlen⟩
    · exact (tr.completed _ hq h ho).grows hgrow
    · obtain ⟨p', hp', hctx'⟩ := hplaced
      -- what was copied for the context was posted with it, as was what completes
      have heq : p'.1 = p :=
        tr.eq_of_ctx (tr.record.placed p' hp') (tr.record.inflight p hp) (hctx'.trans hctx.symm)
      exact ⟨p', hgrow.placed.subset hp', hctx', heq ▸ hflags, hlen p' hp' hctx'⟩
  entry := tr.entry_step hs.step

/-- **Before the first step.** -/
theorem boot {isVoid : Bool} {l : Loc} {g : G} (hf : f.Idle) (hh : f.history = {})
    (he : ∀ h, f.entry h = {}) : Traced (Loop.boot isVoid l g f : Loop Loc G ConnOp Fabric Val) := by
  have hw : (Loop.boot isVoid l g f : Loop Loc G ConnOp Fabric Val).world = f := Loop.boot_world _ _ _ _
  refine ⟨fun h c hc => ?_, ⟨fun p hp => ?_, fun h hh' => ?_, fun p hp => ?_⟩, fun p hp => ?_, ?_,
    fun id h hr => ?_, fun q hq h ho => ?_, fun h => Or.inl ?_⟩
  · rw [boot_eq] at hc ⊢
    by_contra hn
    have : (if h = 0 then _ else none : Option (Coro Loc ConnOp Val)) = some c := hc
    split at this
    · rename_i h0
      exact hn (h0.symm ▸ Nat.one_pos)
    · cases this
  · rw [hw, hf.inflight] at hp
    cases hp
  · rw [hw, hf.outstanding] at hh'
    cases hh'
  · rw [hw, hh] at hp
    cases hp
  · rw [hw, hh] at hp
    cases hp
  · rw [hw, hh]
    exact List.nodup_nil
  · rw [hw, hf.immDataContexts] at hr
    cases hr
  · rw [hw] at hq
    rw [hf.completions q hq] at ho
    cases ho
  · rw [hw]
    exact he h

/-- **A value is of what was copied.** If an operation posts, what it returns is the
result of its own post, and a receive returns as many bytes as it got. -/
theorem placed_of_value (tr : Traced s) {c : Coro Loc ConnOp Val} {a : ConnOp} {v : Val}
    {req : Request} (hc : s.coros h = some c) (hp : c.point = .io a) (hreq : a.request = some req)
    (hv : (a.resume h s.world).1 = .ok (some v)) : ∃ bs, (⟨h, req⟩, bs) ∈ s.world.history.placed ∧
      ∀ base sz, req = .recv base sz → v = .buf base bs.length := by
  have hv : a.value (s.world.entry h) = .ok (some v) := hv
  rcases tr.entry h with he | ⟨p, hp', hctx, hflags, hlen⟩ | hnone
  · -- an entry that nobody has written is of no operation
    rw [he] at hv
    cases a <;> simp [ConnOp.value] at hv
  · have hb := (tr.posted _ (tr.record.placed p hp')).2 c (hctx ▸ hc) a
    obtain rfl := Option.some.inj (hreq.symm.trans (hb.2 hp))
    refine ⟨p.2, hctx ▸ hp', fun base sz hrecv => ?_⟩
    rw [← hlen base sz hrecv]
    rw [hrecv] at hreq
    cases a with
    | recv conn n =>
      cases hreq
      simp only [ConnOp.value] at hv
      split at hv
      · cases hv
        rfl
      · cases hv
    | send conn data n | write conn data n addr key immData | read conn immData => cases hreq
  · rw [(hnone.2 c hc a).2 hp] at hreq
    cases hreq

end Traced

/-! ## Along runs -/

/-- The loop as `Run` starts it, with nothing done before and no context written. -/
def Untouched (isVoid : Bool) (l : Loc) (g : G) (s : Loop Loc G ConnOp Fabric Val) : Prop :=
  ∃ f : Fabric, f.Idle ∧ f.history = {} ∧ (∀ h, f.entry h = {}) ∧ s = boot isVoid l g f

/-- **What an operation returns was copied for it.** In every run of every program, in any
surroundings: when a coroutine is to be resumed in an operation that posts, and this
will return a value, then the post of this very coroutine has had its bytes copied; and
of a receive the value is its buffer, with the number of bytes it got. -/
theorem returned_placed {isVoid : Bool} {l₀ : Loc} {g : G}
    {σ : ℕ → Loop Loc G ConnOp Fabric Val} {n : ℕ}
    (hrun : IsRun (Untouched isVoid l₀ g) (fun s s' => ∃ l, ProcessStep code s l s') σ n) :
    ∀ t ≤ n, ∀ h c a req v, (σ t).coros h = some c → c.point = .io a → a.request = some req →
      (a.resume h (σ t).world).1 = .ok (some v) →
      ∃ bs, (⟨h, req⟩, bs) ∈ (σ t).world.history.placed ∧
        ∀ base sz, req = .recv base sz → v = .buf base bs.length := by
  intro t ht h c a req v hc hp hreq hv
  have htraced : ∀ t ≤ n, Traced (σ t) := by
    refine hrun.invariant Traced ?_ fun s s' tr ⟨l, hs⟩ => tr.step hs
    rintro s ⟨f, hf, hh, he, rfl⟩
    exact .boot hf hh he
  exact (htraced t ht).placed_of_value hc hp hreq hv

/-- A body that receives once. The second half of a location is the handle of the `Recv`. -/
def recvCode : ℕ × ℕ → Op (ℕ × ℕ) Unit ConnOp Val
  | (0, _) => .io (.recv conn 8) fun h => (1, h)
  | (1, h) => .await h fun _ => (2, h)
  | _ => .ret (.ok none)

/-- It is told one byte. -/
def oneByte : ℕ → Loop (ℕ × ℕ) Unit ConnOp Fabric Val :=
  visited (fun a s => (processAct recvCode a s).map Prod.snd) (Loop.boot true (0, 0) () quiet)
    [.round 0, .resume, .exec 0, .exec 0, .round 0, .resume, .env (.place 1 [7]),
      .env (.complete 0 1 1), .round 0]

theorem oneByte_isRun : IsRun (Untouched true (0, 0) ())
    (fun s s' => ∃ l, ProcessStep recvCode s l s') oneByte 9 := by
  refine isRun_visited (fun a s s' hs => ?_) ⟨quiet, quiet_idle, rfl, fun _ => rfl, rfl⟩
    (by decide +kernel)
  obtain ⟨⟨l, s₁⟩, hact, rfl⟩ := Option.map_eq_some_iff.mp hs
  exact ⟨l, .of_act hact⟩

/-- The `Recv` is about to return. -/
theorem returned_placed_oneByte : ∃ bs, (⟨1, .recv 1000 8⟩, bs) ∈ (oneByte 9).world.history.placed ∧
    ∀ base sz, Request.recv 1000 8 = .recv base sz → Val.buf 1000 1 = .buf base bs.length :=
  returned_placed oneByte_isRun 9 le_rfl 1 _ (.recv conn 8) (.recv 1000 8) (.buf 1000 1) rfl rfl rfl
    (by decide +kernel)

end EfaExamples
