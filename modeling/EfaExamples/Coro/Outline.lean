import EfaExamples.Coro.Frames
import EfaExamples.Coro.Waiting
/-!
# The outline of a state

Proofs about one program follow its bodies: where each of them is, and which
coroutines it owns. An `Outline` keeps that and forgets the queues, the
states of the handles and the world. `Outline.Step` says what a program can
do to its outline, and `Outlined.step` that the loop does no more: every step
of the loop is a step of the outline or leaves it as it is.
-/

namespace EfaExamples

open Loop

variable {Loc G A X V : Type}

/-- **What a coroutine is to a program.** -/
inductive Role (Loc A V : Type)
  /-- one of its bodies, at a point, with the coroutines its frame owns -/
  | body (p : Point Loc A V) (locals : List ℕ)
  /-- a sleep -/
  | timer
  /-- one of the connection's coroutines, not scheduled yet -/
  | fresh (a : A)
  /-- one of the connection's coroutines, scheduled -/
  | leaf (a : A)
  /-- one of the library's, known to be done -/
  | ended
  /-- one of its bodies, done with an outcome -/
  | done (o : Outcome V)

namespace Role

/-- A coroutine has a role. -/
def Fits : Role Loc A V → Coro Loc A V → Prop
  | body p ls, c =>
    c.point = p ∧ p.isLeaf = false ∧ p.isFinal = false ∧ ∀ d, d ∈ c.locals ↔ d ∈ ls
  | timer, c => (c.point = .sleep ∨ c.point = .final) ∧ c.locals = []
  | fresh a, c => c.point = .initialIo a ∧ c.state ≠ .kSuspend ∧ c.locals = []
  | leaf a, c =>
    (c.point = .initialIo a ∧ c.state = .kScheduled ∨ c.point = .io a ∨ c.point = .final) ∧
      c.locals = []
  | ended, c => c.point = .final ∧ c.locals = []
  | done o, c => c.point = .final ∧ c.get = o ∧ c.locals = []

/-- The coroutines a role owns. -/
@[simp, grind]
def locals : Role Loc A V → List ℕ
  | body _ ls => ls
  | _ => []

/-- Somebody has scheduled the coroutine. -/
@[simp, grind]
def schedule : Role Loc A V → Role Loc A V
  | fresh a => leaf a
  | r => r

/-- The coroutine is known to be done. -/
@[simp, grind]
def settle : Role Loc A V → Role Loc A V
  | timer | leaf _ => ended
  | r => r

/-- The coroutine may be done, with outcome `o`. -/
@[simp, grind]
def mayEnd (o : Outcome V) : Role Loc A V → Prop
  | body _ _ | fresh _ => False
  | timer | leaf _ | ended => True
  | done o' => o = o'

/-- The body is at another point. -/
@[simp, grind]
def goto (p : Point Loc A V) : Role Loc A V → Role Loc A V
  | body _ ls => body p ls
  | r => r

/-- The body's frame owns other coroutines. -/
@[simp, grind]
def own (f : List ℕ → List ℕ) : Role Loc A V → Role Loc A V
  | body p ls => body p (f ls)
  | r => r

variable {r : Role Loc A V} {a : A} {p : Point Loc A V} {f : List ℕ → List ℕ}

theorem goto_eq_leaf (h : r.goto p = leaf a) : r = leaf a := by
  cases r <;> cases h
  rfl

theorem goto_eq_fresh (h : r.goto p = fresh a) : r = fresh a := by
  cases r <;> cases h
  rfl

theorem own_eq_leaf (h : r.own f = leaf a) : r = leaf a := by
  cases r <;> cases h
  rfl

theorem settle_eq_leaf (h : r.settle = leaf a) : r = leaf a := by
  cases r <;> cases h

end Role

/-- The outline of a state. -/
@[ext]
structure Outline (Loc G A V : Type) where
  role : ℕ → Option (Role Loc A V)
  stack : List (ℕ × Loc)
  seq : ℕ
  mem : G

namespace Outline

variable (O : Outline Loc G A V)

/-- Write to the role of a handle. -/
def map (h : ℕ) (f : Role Loc A V → Role Loc A V) : Outline Loc G A V :=
  { O with role := fun i => if i = h then (O.role i).map f else O.role i }

/-- Some coroutines are gone. -/
def drop (hs : List ℕ) : Outline Loc G A V :=
  { O with role := fun i => if i ∈ hs then none else O.role i }

/-- A coroutine is made, in the frame of `me`. -/
def spawn (me : ℕ) (r : Role Loc A V) : Outline Loc G A V :=
  { O with
    seq := O.seq + 1
    role := fun i =>
      if i = O.seq then some r else if i = me then (O.role i).map (.own (· ++ [O.seq])) else O.role i }

/-- The coroutines the frame of `h` owns. -/
def locals (h : ℕ) : List ℕ := ((O.role h).map Role.locals).getD []

/-- What an operation of the innermost body does. `res d o` says that
coroutine `d` is done with outcome `o`. -/
def Exec (res : ℕ → Outcome V → Prop) (me : ℕ) (rest : List (ℕ × Loc)) (O' : Outline Loc G A V) :
    Op Loc G A V → Prop
  | .step f => O' = { O with mem := (f O.mem).1, stack := (me, (f O.mem).2) :: rest }
  | .call oneway _ l k =>
    O' = { O.spawn me (.body (if oneway then .running else .initial l) []) with
      stack := (if oneway then [(O.seq, l)] else []) ++ (me, k O.seq) :: rest }
  | .io a k => O' = { O.spawn me (.fresh a) with stack := (me, k O.seq) :: rest }
  | .sleep _ k => O' = { O.spawn me .timer with stack := (me, k O.seq) :: rest }
  | .future h k => O' = { O.map h .schedule with stack := (me, k) :: rest }
  | .await h k =>
    (∃ o r, res h o ∧ O.role h = some r ∧ r.mayEnd o ∧
        O' = { O.map h .settle with stack := (me, k o) :: rest }) ∨
      O' = { (O.map me (.goto (.await h k))).map h .schedule with stack := rest }
  | .done _ k => ∃ b, O' = { O with stack := (me, k b) :: rest }
  | .destroy h k =>
    O' = { (O.map me (.own (·.filter (· ≠ h)))).drop [h] with stack := (me, k) :: rest }
  | .release h k => O' = { O.map me (.own (·.filter (· ≠ h))) with stack := (me, k) :: rest }
  | .ret o =>
    O' = { (O.drop (O.locals me)).map me (fun _ => .done o) with stack := rest }

/-- **What a program can do to its outline.** -/
inductive Step (code : Loc → Op Loc G A V) (res : ℕ → Outcome V → Prop)
    (O O' : Outline Loc G A V) : Prop
  /-- nothing -/
  | still : O' = O → Step code res O O'
  /-- the innermost body performs its operation -/
  | exec (me : ℕ) (l : Loc) (rest : List (ℕ × Loc)) : O.stack = (me, l) :: rest →
      O.Exec res me rest O' (code l) → Step code res O O'
  /-- one of the connection's coroutines begins -/
  | begin (h : ℕ) (a : A) : O.stack = [] → O.role h = some (.fresh a) →
      O' = O.map h .schedule → Step code res O O'
  /-- a body begins -/
  | start (h : ℕ) (l : Loc) (ls : List ℕ) : O.stack = [] →
      O.role h = some (.body (.initial l) ls) →
      O' = { O.map h (.goto .running) with stack := [(h, l)] } → Step code res O O'
  /-- a body goes on after a `co_await` -/
  | wake (h d : ℕ) (k : Outcome V → Loc) (ls : List ℕ) (o : Outcome V) (r : Role Loc A V) :
      O.stack = [] → O.role h = some (.body (.await d k) ls) → res d o → O.role d = some r →
      r.mayEnd o →
      O' = { (O.map h (.goto .running)).map d .settle with stack := [(h, k o)] } →
      Step code res O O'

variable {O} {code : Loc → Op Loc G A V} {res : ℕ → Outcome V → Prop} {O' : Outline Loc G A V}

/-- While a body executes, only its operation changes the outline. -/
theorem Step.of_stack {me : ℕ} {l : Loc} {rest : List (ℕ × Loc)} (hs : Step code res O O')
    (hstack : O.stack = (me, l) :: rest) : O' = O ∨ O.Exec res me rest O' (code l) := by
  cases hs with
  | still he => exact Or.inl he
  | exec me' l' rest' hstack' he =>
    rw [hstack] at hstack'
    cases hstack'
    exact Or.inr he
  | begin h a hnil | start h l ls hnil | wake h d k ls o r hnil =>
    rw [hstack] at hnil
    cases hnil

/-- A role that a change makes of itself only was there before. -/
theorem map_eq_some {i h : ℕ} {f : Role Loc A V → Role Loc A V} {r : Role Loc A V}
    (hf : ∀ r', f r' = r → r' = r) (hr : (O.map i f).role h = some r) : O.role h = some r := by
  simp only [map] at hr
  split at hr
  · obtain ⟨r', hr', he⟩ := Option.map_eq_some_iff.mp hr
    rw [hr', hf r' he]
  · exact hr

theorem schedule_eq_leaf {i h : ℕ} {a : A} (hr : (O.map i .schedule).role h = some (.leaf a)) :
    O.role h = some (.leaf a) ∨ O.role h = some (.fresh a) := by
  simp only [map] at hr
  split at hr
  · obtain ⟨r', hr', he⟩ := Option.map_eq_some_iff.mp hr
    rw [hr']
    cases r' <;> simp_all [Role.schedule]
  · exact Or.inl hr

/-- **A role of the connection's that is scheduled was one before**, or was fresh. -/
theorem Step.leaves (hs : Step code res O O') {h : ℕ} {a : A} (hr : O'.role h = some (.leaf a)) :
    O.role h = some (.leaf a) ∨ O.role h = some (.fresh a) := by
  cases hs with
  | still he =>
    rw [he] at hr
    exact Or.inl hr
  | begin i b _ hi he =>
    rw [he] at hr
    exact schedule_eq_leaf hr
  | start i l ls _ hi he =>
    rw [he] at hr
    exact Or.inl (map_eq_some (fun _ => Role.goto_eq_leaf) hr)
  | wake i d k ls o r _ hi _ hd hend he =>
    rw [he] at hr
    exact Or.inl (map_eq_some (fun _ => Role.goto_eq_leaf) (map_eq_some (fun _ => Role.settle_eq_leaf) hr))
  | exec me l rest _ he =>
    cases hop : code l with
    | step f =>
      rw [hop] at he
      rw [he] at hr
      exact Or.inl hr
    | call oneway isVoid l' k | io b k | sleep delay k =>
      rw [hop] at he
      rw [he] at hr
      simp only [spawn] at hr
      split at hr
      · cases hr
      · exact Or.inl (map_eq_some (i := me) (fun _ => Role.own_eq_leaf) hr)
    | future d k =>
      rw [hop] at he
      rw [he] at hr
      exact schedule_eq_leaf hr
    | await d k =>
      rw [hop] at he
      rcases he with ⟨o, r, -, -, -, he⟩ | he
      · rw [he] at hr
        exact Or.inl (map_eq_some (fun _ => Role.settle_eq_leaf) hr)
      · rw [he] at hr
        exact (schedule_eq_leaf hr).imp
          (map_eq_some fun _ => Role.goto_eq_leaf) (map_eq_some fun _ => Role.goto_eq_fresh)
    | done d k =>
      rw [hop] at he
      obtain ⟨b, he⟩ := he
      rw [he] at hr
      exact Or.inl hr
    | destroy d k =>
      rw [hop] at he
      rw [he] at hr
      simp only [drop] at hr
      split at hr
      · cases hr
      · exact Or.inl (map_eq_some (fun _ => Role.own_eq_leaf) hr)
    | release d k =>
      rw [hop] at he
      rw [he] at hr
      exact Or.inl (map_eq_some (fun _ => Role.own_eq_leaf) hr)
    | ret o =>
      rw [hop] at he
      rw [he] at hr
      have hr := map_eq_some (fun r' he => by cases he) hr
      simp only [drop] at hr
      split at hr
      · cases hr
      · exact Or.inl hr

variable (O) in
/-- Whoever executes is a body, and owns only coroutines that own none. -/
def Flat : Prop :=
  ∀ h ∈ O.stack.map Prod.fst, h < O.seq ∧ ∃ p ls, O.role h = some (.body p ls) ∧
    ∀ d ∈ ls, d ≠ h ∧ ∀ r, O.role d = some r → r.locals = []

end Outline

/-- **The state has the outline.** -/
structure Outlined (O : Outline Loc G A V) (s : Loop Loc G A X V) : Prop where
  stack : s.stack = O.stack
  seq : s.seq = O.seq
  mem : s.mem = O.mem
  role : ∀ h r, O.role h = some r → ∃ c, s.coros h = some c ∧ r.Fits c
  gone : ∀ h, O.role h = none → s.coros h = none

/-- Coroutine `d` is done, with outcome `o`. -/
def Loop.DoneWith (s : Loop Loc G A X V) (d : ℕ) (o : Outcome V) : Prop :=
  ∃ c, s.coros d = some c ∧ c.point.isFinal = true ∧ c.get = o


namespace Outlined

variable {w : World A X V} {code : Loc → Op Loc G A V} {O O' : Outline Loc G A V}
variable {s s' : Loop Loc G A X V} {h me d : ℕ} {c : Coro Loc A V}
variable {f : Coro Loc A V → Coro Loc A V} {g : Role Loc A V → Role Loc A V}

/-! ## The changes a step is made of -/

/-- Only the coroutines, the stack, `seq_` and the shared memory matter. -/
theorem of_fields (s' : Loop Loc G A X V) (ho : Outlined O s) (hcoros : s'.coros = s.coros)
    (hstack : s'.stack = s.stack) (hseq : s'.seq = s.seq) (hmem : s'.mem = s.mem) :
    Outlined O s' where
  stack := by rw [hstack]; exact ho.stack
  seq := by rw [hseq]; exact ho.seq
  mem := by rw [hmem]; exact ho.mem
  role := by rw [hcoros]; exact ho.role
  gone := by rw [hcoros]; exact ho.gone

/-- The innermost body may be at another location, or off the stack. -/
theorem goto (ho : Outlined O s) (stack : List (ℕ × Loc)) :
    Outlined { O with stack := stack } { s with stack := stack } where
  stack := rfl
  seq := ho.seq
  mem := ho.mem
  role := ho.role
  gone := ho.gone

/-- One coroutine is written to, and its role with it. -/
theorem modify (ho : Outlined O s)
    (hfit : ∀ r c, O.role h = some r → s.coros h = some c → r.Fits c → (g r).Fits (f c)) :
    Outlined (O.map h g) (s.modify h f) where
  stack := ho.stack
  seq := ho.seq
  mem := ho.mem
  role i r hr := by
    simp only [Outline.map] at hr
    split at hr
    · rename_i hi
      subst hi
      obtain ⟨r₀, hr₀, rfl⟩ := Option.map_eq_some_iff.mp hr
      obtain ⟨c, hc, hf⟩ := ho.role i r₀ hr₀
      exact ⟨f c, by rw [modify_coros_self, hc]; rfl, hfit r₀ c hr₀ hc hf⟩
    · rename_i hi
      obtain ⟨c, hc, hf⟩ := ho.role i r hr
      exact ⟨c, by rw [modify_coros_of_ne hi]; exact hc, hf⟩
  gone i hi := by
    simp only [Outline.map] at hi
    rw [modify_coros_eq_none]
    split at hi
    · exact ho.gone i (Option.map_eq_none_iff.mp hi)
    · exact ho.gone i hi

theorem map_id (O : Outline Loc G A V) (h : ℕ) : O.map h id = O := by
  unfold Outline.map
  congr 1
  funext i
  split <;> simp

/-- One coroutine is written to, and keeps its role. -/
theorem modify_of_same (ho : Outlined O s)
    (hfit : ∀ r c, O.role h = some r → s.coros h = some c → r.Fits c → r.Fits (f c)) :
    Outlined O (s.modify h f) := by
  have := ho.modify (g := id) (f := f) (h := h) hfit
  rwa [map_id] at this

/-- A call of `IO::Call` is seen by no role. -/
theorem call (ho : Outlined O s) : Outlined O (s.call h) := by
  refine (ho.modify_of_same (h := h) (f := fun c => { c with state := .kScheduled }) ?_).of_fields
    _ rfl rfl rfl rfl
  intro r c _ _ hf
  cases r with
  | fresh a => exact ⟨hf.1, by simp, hf.2.2⟩
  | leaf a => exact ⟨hf.1.imp (fun hi => ⟨hi.1, rfl⟩) id, hf.2⟩
  | body p ls | timer | ended | done o => exact hf

/-- A role changes, and its coroutine stays as it is. -/
theorem relabel (ho : Outlined O s)
    (hfit : ∀ r c, O.role h = some r → s.coros h = some c → r.Fits c → (g r).Fits c) :
    Outlined (O.map h g) s := by
  refine (ho.modify (h := h) (f := id) hfit).of_fields _ ?_ rfl rfl rfl
  funext i
  rw [modify_coros]
  split <;> simp

/-- `Handle::schedule` makes a fresh coroutine of the connection's one that is scheduled. -/
theorem schedule (ho : Outlined O s) : Outlined (O.map h .schedule) (Handle.schedule h s) := by
  have hstay : (∀ c, s.coros h = some c → c.state ≠ .kUnschedule) →
      Outlined (O.map h .schedule) s := by
    intro hst
    refine ho.relabel ?_
    intro r c _ hc hf
    cases r with
    | fresh a =>
      refine ⟨Or.inl ⟨hf.1, ?_⟩, hf.2.2⟩
      have hne := hst c hc
      cases hs : c.state with
      | kUnschedule => exact absurd hs hne
      | kScheduled => rfl
      | kSuspend => exact absurd hs hf.2.1
    | body p ls | timer | leaf a | ended | done o => exact hf
  unfold Handle.schedule
  cases hc : s.coros h with
  | none => exact hstay (by simp [hc])
  | some c =>
    simp only
    split
    · refine (ho.modify (h := h) (g := .schedule) (f := fun c => { c with state := .kScheduled })
        ?_).of_fields _ rfl rfl rfl rfl
      intro r c _ _ hf
      cases r with
      | fresh a => exact ⟨Or.inl ⟨hf.1, rfl⟩, hf.2.2⟩
      | leaf a => exact ⟨hf.1.imp (fun hi => ⟨hi.1, rfl⟩) id, hf.2⟩
      | body p ls | timer | ended | done o => exact hf
    · rename_i hst
      refine hstay fun c' hc' => ?_
      rw [hc, Option.some.injEq] at hc'
      rw [← hc']
      exact hst

/-- A coroutine is made in the frame of `me`. -/
theorem spawn {r : Role Loc A V} {p : Point Loc A V} {ls : List ℕ} (ho : Outlined O s)
    (hme : me < O.seq) (hbody : O.role me = some (.body p ls)) (hr : r.Fits c) :
    Outlined (O.spawn me r) ((s.spawn c).addLocal me s.seq) where
  stack := ho.stack
  seq := by
    show s.seq + 1 = O.seq + 1
    rw [ho.seq]
  mem := ho.mem
  role i ri hri := by
    simp only [Outline.spawn] at hri
    rw [Loop.addLocal, modify_coros, spawn_coros, ho.seq]
    by_cases hi : i = O.seq
    · rw [if_pos hi, Option.some.injEq] at hri
      rw [if_neg (by omega), if_pos hi, ← hri]
      exact ⟨c, rfl, hr⟩
    · rw [if_neg hi] at hri ⊢
      by_cases him : i = me
      · subst him
        rw [if_pos rfl, hbody, Option.map_some, Option.some.injEq] at hri
        obtain ⟨ci, hci, hp, hl, hfin, hmem⟩ := ho.role i _ hbody
        rw [if_pos rfl, hci, ← hri]
        exact ⟨_, rfl, hp, hl, hfin, fun d => by simp [hmem d, or_comm]⟩
      · rw [if_neg him] at hri ⊢
        exact ho.role i ri hri
  gone i hi := by
    simp only [Outline.spawn] at hi
    rw [Loop.addLocal, modify_coros_eq_none, spawn_coros, ho.seq]
    by_cases his : i = O.seq
    · rw [if_pos his] at hi
      cases hi
    · rw [if_neg his] at hi ⊢
      refine ho.gone i ?_
      split at hi
      · exact Option.map_eq_none_iff.mp hi
      · exact hi

/-- A frame gives up a coroutine. -/
theorem dropLocal {p : Point Loc A V} {ls : List ℕ} (ho : Outlined O s)
    (hbody : O.role me = some (.body p ls)) :
    Outlined (O.map me (.own (·.filter (· ≠ d)))) (s.dropLocal me d) := by
  refine ho.modify fun r c hr _ hfit => ?_
  rw [show r = .body p ls from Option.some.inj (hr.symm.trans hbody)] at hfit ⊢
  exact ⟨hfit.1, hfit.2.1, hfit.2.2.1, fun e => by simp [hfit.2.2.2 e]⟩

/-- Coroutines are gone. -/
theorem erased {hs : List ℕ} (ho : Outlined O s) (he : Erased s s')
    (hcoros : ∀ i, s'.coros i = if i ∈ hs then none else s.coros i) :
    Outlined (O.drop hs) s' where
  stack := he.stack.trans ho.stack
  seq := he.seq.trans ho.seq
  mem := he.mem.trans ho.mem
  role i r hr := by
    simp only [Outline.drop] at hr
    split at hr
    · cases hr
    · rename_i hi
      rw [hcoros, if_neg hi]
      exact ho.role i r hr
  gone i hi := by
    simp only [Outline.drop] at hi
    rw [hcoros]
    split
    · rfl
    · rename_i hn
      rw [if_neg hn] at hi
      exact ho.gone i hi

/-- Whoever exists has a role. -/
theorem fits (ho : Outlined O s) (hc : s.coros h = some c) : ∃ r, O.role h = some r ∧ r.Fits c := by
  cases hr : O.role h with
  | none =>
    rw [ho.gone h hr] at hc
    cases hc
  | some r =>
    obtain ⟨c', hc', hf⟩ := ho.role h r hr
    rw [hc, Option.some.injEq] at hc'
    exact ⟨r, rfl, hc' ▸ hf⟩

/-- What owns no other coroutine by its role owns none. -/
theorem locals_eq_nil (ho : Outlined O s) (hflat : ∀ r, O.role d = some r → r.locals = [])
    (hc : s.coros d = some c) : c.locals = [] := by
  obtain ⟨r, hr, hf⟩ := ho.fits hc
  have hls := hflat r hr
  cases r with
  | body p ls =>
    rw [Role.locals] at hls
    refine List.eq_nil_iff_forall_not_mem.mpr fun e he => ?_
    have := (hf.2.2.2 e).mp he
    rw [hls] at this
    cases this
  | timer | leaf a | ended => exact hf.2
  | fresh a | done o => exact hf.2.2

end Outlined

namespace Loop

variable {s : Loop Loc G A X V} {d : ℕ}

/-- The destruction of a coroutine that owns no other, if it is there. -/
theorem destroy_coros {n : ℕ} (hl : ∀ c, s.coros d = some c → c.locals = []) (i : ℕ) :
    (s.destroy n d).coros i = if i ∈ [d] then none else s.coros i := by
  simp only [List.mem_singleton]
  cases hc : s.coros d with
  | some c =>
    rw [destroy_of_locals_nil hc (hl c hc)]
    rfl
  | none =>
    cases n with
    | zero =>
      rw [destroy, cancel_eq]
      rfl
    | succ n =>
      simp only [destroy, hc]
      split
      · rename_i hi
        rw [hi, hc]
      · rfl

/-- Locals that own no other coroutine go out of scope. -/
theorem destroyLocals_coros {ds : List ℕ}
    (hl : ∀ d ∈ ds, ∀ c, s.coros d = some c → c.locals = []) (i : ℕ) :
    (s.destroyLocals ds).coros i = if i ∈ ds then none else s.coros i := by
  unfold destroyLocals
  generalize s.seq = n
  induction ds generalizing s with
  | nil => rw [List.foldl_nil, if_neg List.not_mem_nil]
  | cons d ds ih =>
    have hd := destroy_coros (n := n) (hl d List.mem_cons_self)
    have hleft : ∀ e ∈ ds, ∀ c, (s.destroy n d).coros e = some c → c.locals = [] :=
      fun e he c hc => hl e (List.mem_cons_of_mem _ he) c ((erased_destroy n d s).coros_eq hc)
    rw [List.foldl_cons, ih hleft, hd]
    by_cases hi : i = d
    · simp [hi]
    · simp [hi]

end Loop

namespace Outlined

variable {w : World A X V} {code : Loc → Op Loc G A V} {O O' : Outline Loc G A V}
variable {s s' : Loop Loc G A X V} {h me d : ℕ} {c : Coro Loc A V}

end Outlined

namespace Role

variable {r : Role Loc A V} {c : Coro Loc A V} {p : Point Loc A V} {a : A}

/-- A coroutine at a point of its own body is one of the program's bodies. -/
theorem Fits.eq_body (hfit : r.Fits c) (hp : c.point = p) (hl : p.isLeaf = false)
    (hf : p.isFinal = false) : ∃ ls, r = body p ls := by
  subst hp
  cases r with
  | body p ls => exact ⟨ls, by rw [hfit.1]⟩
  | timer =>
    rcases hfit.1 with hp | hp
    · rw [hp] at hl; cases hl
    · rw [hp] at hf; cases hf
  | fresh a => rw [hfit.1] at hl; cases hl
  | leaf a =>
    rcases hfit.1 with ⟨hp, -⟩ | hp | hp
    · rw [hp] at hl; cases hl
    · rw [hp] at hl; cases hl
    · rw [hp] at hf; cases hf
  | ended | done o => rw [hfit.1] at hf; cases hf

/-- A coroutine of the connection's that has not begun. -/
theorem Fits.of_initialIo (hfit : r.Fits c) (hp : c.point = .initialIo a) :
    r = fresh a ∨ r = leaf a := by
  cases r with
  | body p ls =>
    have hl := hfit.2.1
    rw [← hfit.1, hp] at hl
    cases hl
  | timer | ended | done o => simp [Fits, hp] at hfit
  | fresh b =>
    have := hfit.1
    rw [hp] at this
    cases this
    exact Or.inl rfl
  | leaf b =>
    simp only [Fits, hp] at hfit
    rcases hfit.1 with ⟨hb, -⟩ | hb | hb
    · cases hb
      exact Or.inr rfl
    · cases hb
    · cases hb

/-- A coroutine that is done has a role that may end. -/
theorem Fits.mayEnd (hfit : r.Fits c) (hf : c.point.isFinal = true) : r.mayEnd c.get := by
  cases r with
  | body p ls =>
    rw [hfit.1, hfit.2.2.1] at hf
    cases hf
  | fresh a =>
    rw [hfit.1] at hf
    cases hf
  | timer | leaf a | ended => trivial
  | done o => exact hfit.2.1

/-- A coroutine that is done may be taken for one. -/
theorem Fits.settle (hfit : r.Fits c) (hf : c.point.isFinal = true) : r.settle.Fits c := by
  cases r with
  | timer | leaf a => exact ⟨Point.eq_final hf, hfit.2⟩
  | body p ls | fresh a | ended | done o => exact hfit

end Role

/-- A change of a role is determined by what it makes of the role that is there. -/
theorem Outline.map_congr {O : Outline Loc G A V} {h : ℕ} {r : Role Loc A V}
    {f g : Role Loc A V → Role Loc A V} (hr : O.role h = some r) (hfg : f r = g r) :
    O.map h f = O.map h g := by
  unfold Outline.map
  congr 1
  funext i
  split
  · rename_i hi
    rw [hi, hr, Option.map_some, Option.map_some, hfg]
  · rfl

namespace Outlined

variable {w : World A X V} {code : Loc → Op Loc G A V} {O O' : Outline Loc G A V}
variable {s s' : Loop Loc G A X V} {h me d : ℕ} {c : Coro Loc A V}

/-! ## The step lemma -/

/-- A body ends, and what its frame owned is gone. -/
theorem finish {p : Point Loc A V} {ls : List ℕ} {o : Outcome V} (ho : Outlined O s)
    (hrole : O.role me = some (.body p ls))
    (hls : ∀ d ∈ ls, d ≠ me ∧ ∀ r, O.role d = some r → r.locals = [])
    (hf : s.finish me o = some s') :
    Outlined ((O.drop (O.locals me)).map me fun _ => .done o) s' := by
  obtain ⟨c, hc, -, -, -, hmem⟩ := ho.role me _ hrole
  have hlocals : O.locals me = ls := by rw [Outline.locals, hrole]; rfl
  have h₁ : Outlined (O.drop ls) (s.destroyLocals c.locals) := by
    refine ho.erased (erased_destroyLocals _ _) fun i => ?_
    rw [destroyLocals_coros fun d hd c' => ho.locals_eq_nil (hls d ((hmem d).mp hd)).2]
    simp only [hmem]
  have h₂ := h₁.modify (h := me) (g := fun _ => .done o)
    (f := fun c => { c with point := .final, result := some o, locals := [] })
    fun r c _ _ _ => ⟨rfl, rfl, rfl⟩
  rw [hlocals]
  unfold Loop.finish at hf
  simp only [hc] at hf
  unfold finalSuspend at hf
  split at hf
  · cases hf
  · split at hf
    · cases hf
      exact h₂
    · split at hf
      · cases hf
        exact h₂.call
      · cases hf

/-- The executing body performs its operation. -/
theorem exec {now : ℤ} {l : Loc} {rest : List (ℕ × Loc)} (ho : Outlined O s) (hflat : O.Flat)
    (hstack : s.stack = (me, l) :: rest) (hs : s.exec code now = some s') :
    ∃ O', Outlined O' s' ∧ O.Exec s.DoneWith me rest O' (code l) := by
  obtain ⟨hme, p, ls, hrole, hls⟩ := hflat me (by rw [← ho.stack, hstack]; simp)
  obtain ⟨me', l', rest', hstack', hop⟩ := operation_of_exec hs
  rw [hstack] at hstack'
  cases hstack'
  cases hop with
  | step f hop he =>
    rw [hop]
    subst he
    refine ⟨_, ?_, rfl⟩
    rw [← ho.mem]
    exact ⟨rfl, ho.seq, rfl, ho.role, ho.gone⟩
  | spawn c sched inner l' hmade he =>
    subst he
    cases hmade with
    | call isVoid l' k hop =>
      rw [hop]
      refine ⟨_, ?_, rfl⟩
      rw [← ho.seq]
      exact ((ho.spawn (r := .body (.initial l') [])
        (c := .new (.initial l') isVoid (some me)) hme hrole
        (by simp [Role.Fits, Coro.new, Point.isLeaf, Point.isFinal])).goto _ :)
    | oneway isVoid l' k hop =>
      rw [hop]
      refine ⟨_, ?_, rfl⟩
      rw [← ho.seq]
      exact ((ho.spawn (r := .body .running []) (c := .new .running isVoid (some me)) hme hrole
        (by simp [Role.Fits, Coro.new, Point.isLeaf, Point.isFinal])).goto _ :)
    | io a k hop =>
      rw [hop]
      refine ⟨_, ?_, rfl⟩
      rw [← ho.seq]
      exact ((ho.spawn (r := .fresh a) (c := .new (.initialIo a) false (some me)) hme hrole
        ⟨rfl, by simp [Coro.new], rfl⟩).goto _ :)
    | sleep delay k hop =>
      rw [hop]
      refine ⟨_, ?_, rfl⟩
      rw [← ho.seq]
      exact ((ho.spawn (r := .timer)
        (c := { Coro.new .sleep true (some me) with state := .kScheduled }) hme hrole
        ⟨Or.inl rfl, rfl⟩).goto ((me, k s.seq) :: rest)).of_fields _ rfl rfl rfl rfl
  | keep h k c hop hc _ hf he =>
    rw [hop]
    subst he
    refine ⟨_, ?_, rfl⟩
    -- a coroutine that is done is left as it is, and its role is not `fresh`
    refine ((ho.relabel (h := h) (g := .schedule) ?_).goto _ :)
    intro r c' _ hc' hfit
    cases r with
    | fresh a =>
      rw [hc, Option.some.injEq] at hc'
      rw [hc', hfit.1] at hf
      cases hf
    | body p ls | timer | leaf a | ended | done o => exact hfit
  | future h k c hop _ _ _ he =>
    rw [hop]
    subst he
    exact ⟨_, (ho.schedule.goto _ :), rfl⟩
  | got h k c hop hc hf he =>
    rw [hop]
    subst he
    obtain ⟨r, hr, hfit⟩ := ho.fits hc
    refine ⟨_, ?_, Or.inl ⟨c.get, r, ⟨c, hc, hf, rfl⟩, hr, hfit.mayEnd hf, rfl⟩⟩
    refine ((ho.relabel (h := h) (g := .settle) fun r c' _ hc' hfit => ?_).goto _ :)
    rw [hc, Option.some.injEq] at hc'
    exact hfit.settle (hc' ▸ hf)
  | suspend h k c hop hc hf he =>
    rw [hop]
    subst he
    refine ⟨_, ?_, Or.inr rfl⟩
    have h₁ : Outlined { O with stack := rest } ({ s with stack := rest }.setState .kSuspend me) :=
      (ho.goto rest).modify_of_same fun r c' hr _ hfit => by
        rw [show r = .body p ls from Option.some.inj (hr.symm.trans hrole)] at hfit ⊢
        exact hfit
    have h₂ := h₁.modify (h := me) (g := .goto (.await h k))
      (f := fun c => { c with point := .await h k }) fun r c' hr _ hfit => by
        rw [show r = .body p ls from Option.some.inj (hr.symm.trans hrole)] at hfit ⊢
        exact ⟨rfl, rfl, rfl, hfit.2.2.2⟩
    have h₃ := h₂.modify_of_same (h := h) (f := fun c => { c with next := some me })
      fun r c' _ _ hfit => by cases r <;> exact hfit
    exact (h₃.schedule (h := h) :)
  | done h k c hop _ he =>
    rw [hop]
    subst he
    exact ⟨_, ho.goto _, _, rfl⟩
  | destroy h k hop hholds he =>
    rw [hop]
    subst he
    refine ⟨_, ?_, rfl⟩
    have h₁ := (ho.dropLocal hrole (d := h)).goto ((me, k) :: rest)
    obtain ⟨cm, hcm, -, -, -, hmem⟩ := ho.role me _ hrole
    have hin : h ∈ ls := by
      simp only [holds, hcm, decide_eq_true_eq] at hholds
      exact (hmem h).mp hholds
    have hl : ∀ c, (Loop.dropLocal me h { s with stack := (me, k) :: rest }).coros h = some c →
        c.locals = [] := fun c hc => h₁.locals_eq_nil (d := h) (fun r hr => by
      simp only [Outline.map, if_neg (hls h hin).1] at hr
      exact (hls h hin).2 r hr) hc
    exact (h₁.erased (erased_destroy s.seq h _) (destroy_coros hl) :)
  | release h k hop _ he =>
    rw [hop]
    subst he
    exact ⟨_, ((ho.dropLocal hrole (d := h)).goto ((me, k) :: rest) :), rfl⟩
  | ret o hop hf =>
    rw [hop]
    exact ⟨_, ((ho.goto rest).finish hrole hls hf :), rfl⟩

/-- One of the library's coroutines ends, which has been written to since it had its role. -/
theorem finish_leaf {s₀ : Loop Loc G A X V} {f : Coro Loc A V → Coro Loc A V} {o : Outcome V}
    {g : Role Loc A V → Role Loc A V} (ho : Outlined O s₀)
    (hcoros : s.coros = (s₀.modify me f).coros) (hstack : s.stack = s₀.stack)
    (hseq : s.seq = s₀.seq) (hmem : s.mem = s₀.mem)
    (hfit : ∀ r c, O.role me = some r → r.Fits c → (f c).locals = [] ∧
      (g r).Fits { f c with point := .final, result := some o, locals := [] })
    (hf : s.finish me o = some s') : Outlined (O.map me g) s' := by
  have h₁ := ho.modify (h := me) (g := g)
    (f := fun c => { f c with point := .final, result := some o, locals := [] })
    fun r c hr _ hc => (hfit r c hr hc).2
  have h₂ : Outlined (O.map me g) (s.modify me fun c =>
      { c with point := .final, result := some o, locals := [] }) := by
    refine h₁.of_fields _ ?_ hstack hseq hmem
    rw [modify_coros_congr hcoros, modify_modify]
    rfl
  unfold Loop.finish at hf
  cases hc : s.coros me with
  | none => simp [hc] at hf
  | some c =>
    have hl : c.locals = [] := by
      rw [hcoros, modify_coros_self] at hc
      obtain ⟨c₀, hc₀, rfl⟩ := Option.map_eq_some_iff.mp hc
      obtain ⟨r, hr, hc₁⟩ := ho.fits hc₀
      exact (hfit r c₀ hr hc₁).1
    simp only [hc, hl, destroyLocals, List.foldl_nil] at hf
    unfold finalSuspend at hf
    split at hf
    · cases hf
    · split at hf
      · cases hf
        exact h₂
      · split at hf
        · cases hf
          exact h₂.call
        · cases hf

theorem coros_modify {s₀ : Loop Loc G A X V} {f g : Coro Loc A V → Coro Loc A V}
    (hcoros : s.coros = (s₀.modify h f).coros) :
    (s.modify h g).coros = (s₀.modify h (g ∘ f)).coros := by
  rw [modify_coros_congr hcoros, modify_modify]

/-- A body goes on executing. -/
theorem goOn {s₀ : Loop Loc G A X V} {p : Point Loc A V} {ls : List ℕ} {st : HandleState}
    (ho : Outlined O s₀) (hcoros : s.coros = (s₀.setState st h).coros) (hseq : s.seq = s₀.seq)
    (hmem : s.mem = s₀.mem) (hr : O.role h = some (.body p ls)) (stack : List (ℕ × Loc)) :
    Outlined { O.map h (.goto .running) with stack := stack }
      { s.setPoint .running h with stack := stack } := by
  refine ((ho.modify (h := h) (g := .goto .running)
    (f := (fun c => { c with point := .running }) ∘ fun c => { c with state := st })
    fun r c hr' _ hfit => ?_).goto stack).of_fields _ ?_ rfl hseq hmem
  · rw [hr, Option.some.injEq] at hr'
    subst hr'
    exact ⟨rfl, rfl, rfl, hfit.2.2.2⟩
  · exact coros_modify hcoros

/-- `Runone` runs the front of `ready_`. What the front awaits is done. -/
theorem resume (ho : Outlined O s) (hstack : s.stack = [])
    (hdone : ∀ h q c d k cd, s.ready = h :: q → s.coros h = some c → c.point = .await d k →
      s.coros d = some cd → cd.point.isFinal = true)
    (hs : s.resume w = some s') : ∃ O', Outlined O' s' ∧ Outline.Step code s.DoneWith O O' := by
  have hempty : O.stack = [] := by rw [← ho.stack, hstack]
  obtain ⟨h, n, q, c, -, hready, hc, hit⟩ := iteration_of_resume hs
  obtain ⟨r, hr, hfit⟩ := ho.fits hc
  have hcoros : (s.popped h n q).coros = (s.setState .kUnschedule h).coros := rfl
  -- the end of a coroutine of the library's does not change its role
  have hstay : ∀ (o : Outcome V) (x : X), (r = .timer ∨ ∃ a, r = .leaf a) →
      Loop.finish h o { s.popped h n q with world := x } = some s' →
      ∃ O', Outlined O' s' ∧ Outline.Step code s.DoneWith O O' := by
    intro o x hleaf hf
    refine ⟨O, ?_, .still rfl⟩
    have hid : Outlined (O.map h id) s' := by
      refine ho.finish_leaf (s := { s.popped h n q with world := x }) hcoros rfl rfl rfl
        (fun r' c' hr' hfit' => ?_) hf
      rw [hr, Option.some.injEq] at hr'
      subst hr'
      rcases hleaf with rfl | ⟨a, rfl⟩
      · exact ⟨hfit'.2, Or.inr rfl, rfl⟩
      · exact ⟨hfit'.2, Or.inr (Or.inr rfl), rfl⟩
    rwa [map_id] at hid
  -- one of the connection's that begins owns nothing
  have hlocals : ∀ a, c.point = .initialIo a →
      ∀ r' c', O.role h = some r' → r'.Fits c' → c'.locals = [] := by
    intro a hp r' c' hr' hfit'
    rw [hr, Option.some.injEq] at hr'
    subst hr'
    rcases hfit.of_initialIo hp with rfl | rfl
    · exact hfit'.2.2
    · exact hfit'.2
  -- whoever it was, it is now one of the connection's that has been scheduled
  have hbegin : ∀ a, c.point = .initialIo a → Outlined (O.map h fun _ => .leaf a) s' →
      ∃ O', Outlined O' s' ∧ Outline.Step code s.DoneWith O O' := by
    intro a hp ho'
    rcases hfit.of_initialIo hp with rfl | rfl
    · refine ⟨O.map h .schedule, ?_, .begin h a hempty hr rfl⟩
      rwa [Outline.map_congr hr (g := fun _ => .leaf a) rfl]
    · refine ⟨O, ?_, .still rfl⟩
      rwa [Outline.map_congr (f := fun _ => .leaf a) (g := id) hr rfl, map_id] at ho'
  cases hit with
  | initial l hp he =>
    obtain ⟨ls, rfl⟩ := hfit.eq_body hp rfl rfl
    refine ⟨_, ?_, .start h l ls hempty hr rfl⟩
    rw [he]
    exact ho.goOn hcoros rfl rfl hr _
  | refused a e hp _ hf =>
    exact hbegin a hp (ho.finish_leaf hcoros rfl rfl rfl
      (fun r' c' hr' hfit' => ⟨hlocals a hp r' c' hr' hfit', Or.inr (Or.inr rfl), rfl⟩) hf)
  | failed a e x x' hp _ _ hf =>
    have hcoros := coros_modify (s := { s.popped h n q with world := x' })
      (g := fun c => { c with state := .kSuspend }) hcoros
    exact hbegin a hp (ho.finish_leaf hcoros rfl rfl rfl
      (fun r' c' hr' hfit' => ⟨hlocals a hp r' c' hr' hfit', Or.inr (Or.inr rfl), rfl⟩) hf)
  | posted a x x' hp _ _ he =>
    refine hbegin a hp ?_
    rw [he]
    refine (ho.modify (h := h) (g := fun _ => .leaf a)
      (f := fun c => { c with point := .io a, state := .kSuspend })
      fun r' c' hr' _ hfit' => ⟨Or.inr (Or.inl rfl), hlocals a hp r' c' hr' hfit'⟩).of_fields _ ?_
      rfl rfl rfl
    exact coros_modify (coros_modify (s := { s.popped h n q with world := x' }) hcoros)
  | await d k cd hp hcd₁ he =>
    obtain ⟨ls, rfl⟩ := hfit.eq_body hp rfl rfl
    have hdh : d ≠ h := by
      rintro rfl
      have hfd := hdone d q c d k c hready hc hp hc
      rw [hp] at hfd
      cases hfd
    have hcd : s.coros d = some cd := (popped_coros_of_ne hdh).symm.trans hcd₁
    have hfd := hdone h q c d k cd hready hc hp hcd
    obtain ⟨rd, hrd, hfitd⟩ := ho.fits hcd
    refine ⟨_, ?_, .wake h d k ls cd.get rd hempty hr ⟨cd, hcd, hfd, rfl⟩ hrd
      (hfitd.mayEnd hfd) rfl⟩
    rw [he]
    refine ((ho.goOn hcoros rfl rfl hr [(h, k cd.get)]).relabel (h := d) (g := .settle) ?_ :)
    rintro r' c' - hc' hfit'
    have hcc : c' = cd := by
      rw [show Loop.coros { (s.popped h n q).setPoint .running h with stack := [(h, k cd.get)] } d =
        (s.popped h n q).coros d from modify_coros_of_ne hdh, hcd₁, Option.some.injEq] at hc'
      exact hc'.symm
    rw [hcc] at hfit' ⊢
    exact hfit'.settle hfd
  | sleep hp hf =>
    refine hstay _ s.world (Or.inl ?_) hf
    cases r with
    | timer => rfl
    | body p ls =>
      have hl := hfit.2.1
      rw [← hfit.1, hp] at hl
      cases hl
    | fresh a | leaf a | ended | done o => simp [Role.Fits, hp] at hfit
  | io a hp hf =>
    refine hstay _ _ (Or.inr ?_) hf
    cases r with
    | leaf b => exact ⟨b, rfl⟩
    | body p ls =>
      have hl := hfit.2.1
      rw [← hfit.1, hp] at hl
      cases hl
    | timer | fresh a | ended | done o => simp [Role.Fits, hp] at hfit

theorem callAll : ∀ {events : List ℕ} {s : Loop Loc G A X V}, Outlined O s →
    s.callAll events = some s' → Outlined O s' := by
  intro events
  induction events with
  | nil =>
    intro s ho hs
    rw [Loop.callAll, Option.some.injEq] at hs
    rw [← hs]
    exact ho
  | cons e events ih =>
    intro s ho hs
    rw [Loop.callAll] at hs
    split at hs
    · exact ih ho.call hs
    · cases hs

/-- **The loop does what the program can do to its outline**, as long as what is
resumed from a `co_await` awaited what is done. -/
theorem step (ho : Outlined O s) (hflat : O.Flat)
    (hdone : ∀ h q c d k cd, s.stack = [] → s.ready = h :: q → s.coros h = some c →
      c.point = .await d k → s.coros d = some cd → cd.point.isFinal = true)
    (hs : Step w code s s') : ∃ O', Outlined O' s' ∧ Outline.Step code s.DoneWith O O' := by
  cases hs with
  | exec now hs =>
    cases hstack : s.stack with
    | nil => simp [Loop.exec, hstack] at hs
    | cons p rest =>
      obtain ⟨me, l⟩ := p
      obtain ⟨O', ho', he⟩ := ho.exec hflat hstack hs
      exact ⟨O', ho', .exec me l rest (by rw [← ho.stack, hstack]) he⟩
  | resume hstack hs => exact ho.resume hstack (fun h q c d k cd => hdone h q c d k cd hstack) hs
  | round hs =>
    cases hs with
    | @mk s₁ now events x _ _ _ hcall =>
      have h₁ : Outlined O s₁ := (ho.of_fields { s with world := x } rfl rfl rfl rfl).callAll hcall
      exact ⟨O, h₁.of_fields (s₁.runone now) rfl rfl rfl rfl, .still rfl⟩
  | env hs => exact ⟨O, ho.of_fields _ rfl rfl rfl rfl, .still rfl⟩

/-- In the scheduler's table, what the front of `ready_` awaits is done. -/
theorem done_of_table (t : Table none s) : ∀ h q c d k cd, s.stack = [] → s.ready = h :: q →
    s.coros h = some c → c.point = .await d k → s.coros d = some cd → cd.point.isFinal = true := by
  intro h q c d k cd _ hready hc hp hcd
  exact (t.over_of_mem_queued hc hp (by simp [queued, hready])).2 cd hcd

/-- In the scheduler's table, what is resumed from a `co_await` awaited what is done. -/
theorem step_of_table (ho : Outlined O s) (hflat : O.Flat) (t : Table none s)
    (hs : Step w code s s') : ∃ O', Outlined O' s' ∧ Outline.Step code s.DoneWith O O' :=
  ho.step hflat (done_of_table t) hs

/-- The outline of the loop that `Run` starts. -/
theorem boot (isVoid : Bool) (l : Loc) (g : G) (x : X) :
    Outlined { role := fun i => if i = 0 then some (.body (.initial l) []) else none
               stack := [], seq := 1, mem := g } (Loop.boot isVoid l g x : Loop Loc G A X V) := by
  rw [boot_eq]
  refine ⟨rfl, rfl, rfl, fun h r hr => ?_, fun h hh => ?_⟩
  · simp only at hr
    split at hr
    · rename_i hh
      cases hr
      exact ⟨_, if_pos hh, rfl, rfl, rfl, fun d => Iff.rfl⟩
    · cases hr
  · simp only at hh
    split at hh
    · cases hh
    · exact if_neg ‹_›

end Outlined

end EfaExamples
