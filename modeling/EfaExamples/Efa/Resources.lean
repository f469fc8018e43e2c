import EfaExamples.Efa.Model.Resources
/-!
# What is done to resources

The ledger only goes on. `Extends` says of a piece of code that it leaves alone what
was there before, but for what it is known to give back, and `Constructs` of a
constructor that it leaves all of it alone: what it gives back when it throws, it
has got itself.
-/

namespace EfaExamples

open Ledger

variable {l l' : Resources} {r : Resource} {given given' : List Resource}

/-- What the destructor gives back. -/
def Buffer.owned (b : Buffer) : List Resource := b.mr.toList ++ b.raw.toList

/-! ## What is left alone -/

/-- **The ledger goes on**, and of what was handed out before only what is listed is given back. -/
structure Resources.Extends (given : List Resource) (l l' : Resources) : Prop where
  next_le : l.next ≤ l'.next
  log_mono : l.log <+: l'.log
  releases : ∀ r, r.id < l.next → r ∉ given → releases l'.log r = releases l.log r

namespace Resources

theorem Extends.refl (l : Resources) : Extends [] l l := ⟨le_rfl, List.prefix_refl _, fun _ _ _ => rfl⟩

theorem Extends.trans {l₁ l₂ l₃ : Resources} (h₁ : Extends given l₁ l₂)
    (h₂ : Extends given' l₂ l₃) : Extends (given ++ given') l₁ l₃ := by
  refine ⟨h₁.next_le.trans h₂.next_le, h₁.log_mono.trans h₂.log_mono, fun r hr hn => ?_⟩
  rw [List.mem_append, not_or] at hn
  rw [h₂.releases r (hr.trans_le h₁.next_le) hn.2, h₁.releases r hr hn.1]

/-- What was not there before need not be listed. -/
theorem Extends.mono (h : Extends given l l')
    (hsub : ∀ r ∈ given, r ∈ given' ∨ l.next ≤ r.id) : Extends given' l l' := by
  refine ⟨h.next_le, h.log_mono, fun r hr hn => h.releases r hr fun hm => ?_⟩
  rcases hsub r hm with hm | hle
  · exact hn hm
  · omega

theorem extends_acquire (kind : Kind) (l : Resources) : Extends [] l (l.acquire kind).2 :=
  ⟨Nat.le_succ _, List.prefix_append _ _, fun r _ _ => by simp [acquire]⟩

theorem extends_tie (r on : Resource) (l : Resources) : Extends [] l (l.tie r on) :=
  ⟨le_rfl, List.prefix_append _ _, fun r' _ _ => by simp [tie]⟩

theorem extends_drop (c : Release) (p : Option Resource) (l : Resources) :
    Extends p.toList l (l.drop c p) := by
  cases p with
  | none => exact Extends.refl l
  | some r =>
    refine ⟨le_rfl, List.prefix_append _ _, fun r' _ hn => ?_⟩
    have hne : r ≠ r' := fun h => hn (by simp [h])
    simp [drop, hne]

/-- What `Bind` does. -/
theorem bind_cases (sys : System) (domain block : Resource) (data size : UInt64) (l : Resources) :
    (∃ e, l.bind sys domain block data size = (.error e, l)) ∨
      l.bind sys domain block data size = (.ok ⟨.mr, l.next⟩,
        ((l.acquire .mr).2.tie ⟨.mr, l.next⟩ domain).tie ⟨.mr, l.next⟩ block) := by
  unfold bind
  cases Region.bind sys data size with
  | error e => exact Or.inl ⟨e, rfl⟩
  | ok mr => exact Or.inr rfl

theorem extends_bind (sys : System) (domain block : Resource) (data size : UInt64)
    (l : Resources) : Extends [] l (l.bind sys domain block data size).2 := by
  rcases bind_cases sys domain block data size l with ⟨e, h⟩ | h
  · rw [h]
    exact Extends.refl l
  · rw [h]
    exact ((extends_acquire _ _).trans (extends_tie _ _ _)).trans (extends_tie _ _ _)

/-- Nothing is given back before it is handed out. -/
def Bounded (l : Resources) : Prop := ∀ c r, .released c r ∈ l.log → r.id < l.next

namespace Bounded

/-- What is to be handed out has not been given back. -/
theorem releases_of_le (h : l.Bounded) (hr : l.next ≤ r.id) : releases l.log r = [] :=
  List.eq_nil_iff_forall_not_mem.mpr fun c hc => by
    have := h c r (mem_releases.mp hc)
    omega

theorem acquire (h : l.Bounded) (kind : Kind) : (l.acquire kind).2.Bounded := fun c r hr =>
  (h c r (by simpa [Resources.acquire] using hr)).trans (Nat.lt_succ_self _)

theorem tie (h : l.Bounded) (r on : Resource) : (l.tie r on).Bounded := fun c r' hr' =>
  h c r' (by simpa [Resources.tie] using hr')

theorem drop (h : l.Bounded) {p : Option Resource} (hp : ∀ r ∈ p.toList, r.id < l.next)
    (c : Release) : (l.drop c p).Bounded := by
  cases p with
  | none => exact h
  | some r =>
    intro c' r' hr'
    obtain hr' | ⟨-, rfl⟩ : .released c' r' ∈ l.log ∨ c' = c ∧ r' = r := by
      simpa [Resources.drop] using hr'
    · exact h c' r' hr'
    · exact hp r' (by simp)

theorem bind (h : l.Bounded) (sys : System) (domain block : Resource) (data size : UInt64) :
    (l.bind sys domain block data size).2.Bounded := by
  rcases bind_cases sys domain block data size l with ⟨e, hb⟩ | hb
  · rw [hb]
    exact h
  · rw [hb]
    exact ((h.acquire .mr).tie _ _).tie _ _

end Bounded

end Resources

open Resources

theorem Buffer.extends_destroy (b : Buffer) (l : Resources) : Extends b.owned l (b.destroy l) :=
  (extends_drop _ _ _).trans (extends_drop _ _ _)

theorem CUDABuffer.extends_destroy (b : CUDABuffer) (l : Resources) :
    Extends b.toBuffer.owned l (b.destroy l) :=
  (extends_drop _ _ _).trans (extends_drop _ _ _)

/-! ## What is added -/

/-- A piece of code that gives back nothing that was there before. -/
structure Resources.Adds (l l' : Resources) : Prop where
  extends_res : Extends [] l l'
  bounded : l.Bounded → l'.Bounded

/-- **What a constructor does**: it adds, and what the object owns is new. -/
structure Constructs {α : Type} (owned : α → List Resource) (l : Resources)
    (r : Except Thrown α × Resources) : Prop where
  adds : Adds l r.2
  owned_new : ∀ b, r.1 = .ok b → ∀ r' ∈ owned b, l.next ≤ r'.id ∧ r'.id < r.2.next

namespace Resources.Adds

theorem refl (l : Resources) : Adds l l := ⟨Extends.refl l, id⟩

theorem trans {l₁ l₂ l₃ : Resources} (h₁ : Adds l₁ l₂) (h₂ : Adds l₂ l₃) : Adds l₁ l₃ :=
  ⟨h₁.extends_res.trans h₂.extends_res, fun hl => h₂.bounded (h₁.bounded hl)⟩

theorem acquire (kind : Kind) (l : Resources) : Adds l (l.acquire kind).2 :=
  ⟨extends_acquire kind l, fun hl => hl.acquire kind⟩

theorem tie (r on : Resource) (l : Resources) : Adds l (l.tie r on) :=
  ⟨extends_tie r on l, fun hl => hl.tie r on⟩

/-- What the code has got itself it may give back. -/
theorem drop (h : Adds l l') {p : Option Resource}
    (hp : ∀ r ∈ p.toList, l.next ≤ r.id ∧ r.id < l'.next) (c : Release) : Adds l (l'.drop c p) :=
  ⟨(h.extends_res.trans (extends_drop c p l')).mono fun r hr => Or.inr (hp r hr).1,
    fun hl => (h.bounded hl).drop (fun r hr => (hp r hr).2) c⟩

theorem bind (sys : System) (domain block : Resource) (data size : UInt64) (l : Resources) :
    Adds l (l.bind sys domain block data size).2 :=
  ⟨extends_bind sys domain block data size l, fun hl => hl.bind sys domain block data size⟩

end Resources.Adds

/-- **A piece of code on its way**: since `l` it has added, and it holds `rs`, which it got since. -/
structure Resources.Holding (l l' : Resources) (rs : List Resource) : Prop where
  adds : Adds l l'
  new : ∀ r ∈ rs, l.next ≤ r.id ∧ r.id < l'.next

namespace Resources.Holding

variable {rs : List Resource}

theorem refl (l : Resources) : Holding l l [] := ⟨Adds.refl l, fun r hr => by cases hr⟩

theorem later (h : Holding l l' rs) {l'' : Resources} (a : Adds l' l'') : Holding l l'' rs :=
  ⟨h.adds.trans a, fun r hr => ⟨(h.new r hr).1, (h.new r hr).2.trans_le a.extends_res.next_le⟩⟩

/-- An object is made. -/
theorem constructed (h : Holding l l' rs) {α : Type} {owned : α → List Resource} {b : α}
    {l'' : Resources} (hc : Constructs owned l' (.ok b, l'')) : Holding l l'' (owned b ++ rs) := by
  refine ⟨h.adds.trans hc.adds, fun r hr => ?_⟩
  rcases List.mem_append.mp hr with hr | hr
  · obtain ⟨hle, hlt⟩ := hc.owned_new b rfl r hr
    exact ⟨h.adds.extends_res.next_le.trans hle, hlt⟩
  · exact (h.later hc.adds).new r hr

/-- A buffer goes, with what it owns. -/
theorem drop_owned {b : Buffer} (h : Holding l l' (b.owned ++ rs)) (c c' : Release) :
    Holding l ((l'.drop c b.mr).drop c' b.raw) rs := by
  have hnext : ((l'.drop c b.mr).drop c' b.raw).next = l'.next := by
    cases b.mr <;> cases b.raw <;> rfl
  have hown : ∀ r ∈ b.owned, l.next ≤ r.id ∧ r.id < l'.next := fun r hr =>
    h.new r (List.mem_append_left _ hr)
  refine ⟨(h.adds.drop (fun r hr => hown r (List.mem_append_left _ hr)) c).drop (fun r hr => ?_) c',
    fun r hr => ?_⟩
  · obtain ⟨hle, hlt⟩ := hown r (List.mem_append_right _ hr)
    exact ⟨hle, hlt.trans_le (extends_drop _ _ _).next_le⟩
  · rw [hnext]
    exact h.new r (List.mem_append_right _ hr)

end Resources.Holding

/-! ## The constructors -/

/-- What the constructor of a `HostBuffer` does: nothing, or it gets a block which it gives back, or
it gets a block and a region. -/
theorem Buffer.host_cases (sys : System) (domain : Option Resource) (size al : UInt64)
    (l : Resources) :
    (∃ e, Buffer.host sys domain size al l = (.error e, l)) ∨
      (∃ e, Buffer.host sys domain size al l =
        (.error e, (l.acquire .block).2.drop .free (some ⟨.block, l.next⟩))) ∨
      ∃ d data sz, domain = some d ∧ Buffer.host sys domain size al l =
        (.ok { raw := some ⟨.block, l.next⟩, data := data, size := sz, mr := some ⟨.mr, l.next + 1⟩ },
          ((((l.acquire .block).2.acquire .mr).2.tie ⟨.mr, l.next + 1⟩ d).tie
            ⟨.mr, l.next + 1⟩ ⟨.block, l.next⟩)) := by
  unfold Buffer.host
  cases domain with
  | none => exact Or.inl ⟨_, rfl⟩
  | some d =>
    dsimp only
    cases allocate sys size al with
    | error e => exact Or.inl ⟨e, rfl⟩
    | ok a =>
      obtain ⟨raw, data, sz⟩ := a
      dsimp only
      rcases bind_cases sys d (l.acquire .block).1 data sz (l.acquire .block).2 with ⟨e, h⟩ | h
      · rw [h]
        exact Or.inr (Or.inl ⟨e, rfl⟩)
      · rw [h]
        exact Or.inr (Or.inr ⟨d, data, sz, rfl, rfl⟩)

/-- What the constructor of a `CUDABuffer` does: nothing if `cudaMalloc` fails, and else it throws
and gives the block to `free`, or it returns with a descriptor. -/
theorem CUDABuffer.make_cases (sys : CudaSystem) (domain : Resource) (size al : UInt64)
    (l : Resources) :
    (∃ err, sys.cudaMalloc size = .error err ∧
      ∃ e, CUDABuffer.make sys domain size al l = (.error e, l)) ∨
    (∃ addr, sys.cudaMalloc size = .ok addr) ∧
      ((∃ e l', CUDABuffer.make sys domain size al l =
          (.error e, l'.drop .free (some ⟨.cudaBlock, l.next⟩)) ∧
          Adds (l.acquire .cudaBlock).2 l') ∨
        ∃ b, CUDABuffer.make sys domain size al l =
          (.ok b, ((((l.acquire .cudaBlock).2.acquire .dmabuf).2.acquire .mr).2.tie
            ⟨.mr, l.next + 2⟩ domain).tie ⟨.mr, l.next + 2⟩ ⟨.cudaBlock, l.next⟩) ∧
          b.toBuffer.owned = [⟨.mr, l.next + 2⟩, ⟨.cudaBlock, l.next⟩]) := by
  unfold CUDABuffer.make
  cases hmalloc : sys.cudaMalloc size with
  | error err => exact Or.inl ⟨err, rfl, _, rfl⟩
  | ok addr =>
    refine Or.inr ⟨⟨addr, rfl⟩, ?_⟩
    have hplain : ∀ e : Thrown, ∃ e' l', ((.error e, ({ raw := some (l.acquire .cudaBlock).1 } :
        Buffer).destroy (l.acquire .cudaBlock).2) : Except Thrown CUDABuffer × Resources) =
        (.error e', l'.drop .free (some ⟨.cudaBlock, l.next⟩)) ∧
        Adds (l.acquire .cudaBlock).2 l' := fun e => ⟨e, _, rfl, Adds.refl _⟩
    dsimp only
    cases sys.pointerGetAttributes addr with
    | error err => exact Or.inl (hplain _)
    | ok a =>
      obtain ⟨type, device⟩ := a
      cases type with
      | false => exact Or.inl (hplain _)
      | true =>
        dsimp only
        cases sys.getHandle (align addr al) size with
        | error rc => exact Or.inl (hplain _)
        | ok fd =>
          dsimp only
          by_cases hfd : fd = -1
          · rw [if_pos hfd]
            exact Or.inl (hplain _)
          · rw [if_neg hfd]
            rcases bind_cases sys.toSystem domain (l.acquire .cudaBlock).1 (align addr al)
              (addr + size - align addr al) ((l.acquire .cudaBlock).2.acquire .dmabuf).2
              with ⟨e, h⟩ | h
            · rw [h]
              exact Or.inl ⟨e, _, rfl, Adds.acquire _ _⟩
            · rw [h]
              exact Or.inr ⟨_, rfl, rfl⟩

theorem Buffer.constructs_host (sys : System) (domain : Option Resource) (size al : UInt64)
    (l : Resources) : Constructs Buffer.owned l (Buffer.host sys domain size al l) := by
  rcases Buffer.host_cases sys domain size al l with ⟨e, h⟩ | ⟨e, h⟩ | ⟨d, data, sz, -, h⟩
  · rw [h]
    exact ⟨Adds.refl l, fun b hb => by cases hb⟩
  · rw [h]
    have hown : ∀ r ∈ (some (⟨.block, l.next⟩ : Resource)).toList,
        l.next ≤ r.id ∧ r.id < (l.acquire .block).2.next := fun r hr => by
      obtain rfl := Option.some.inj (Option.mem_toList.mp hr)
      exact ⟨le_rfl, Nat.lt_succ_self _⟩
    exact ⟨(Adds.acquire .block l).drop hown _, fun b hb => by cases hb⟩
  · rw [h]
    refine ⟨(((Adds.acquire _ _).trans (Adds.acquire _ _)).trans (Adds.tie _ _ _)).trans
      (Adds.tie _ _ _), fun b hb r hr => ?_⟩
    obtain rfl := Except.ok.inj hb
    have hnext : ∀ i ≤ l.next + 1, i < l.next + 2 := fun i hi => by omega
    obtain rfl | rfl : r = ⟨.mr, l.next + 1⟩ ∨ r = ⟨.block, l.next⟩ := by simpa [owned] using hr
    · exact ⟨Nat.le_succ _, hnext _ le_rfl⟩
    · exact ⟨le_rfl, hnext _ (Nat.le_succ _)⟩

theorem CUDABuffer.constructs_make (sys : CudaSystem) (domain : Resource) (size al : UInt64)
    (l : Resources) :
    Constructs (fun b => b.toBuffer.owned) l (CUDABuffer.make sys domain size al l) := by
  rcases CUDABuffer.make_cases sys domain size al l with
    ⟨err, -, e, h⟩ | ⟨-, ⟨e, l', h, hl'⟩ | ⟨b, h, howned⟩⟩
  · rw [h]
    exact ⟨Adds.refl l, fun b hb => by cases hb⟩
  · rw [h]
    have hown : ∀ r ∈ (some (⟨.cudaBlock, l.next⟩ : Resource)).toList,
        l.next ≤ r.id ∧ r.id < l'.next := fun r hr => by
      obtain rfl := Option.some.inj (Option.mem_toList.mp hr)
      exact ⟨le_rfl, (Nat.lt_succ_self _).trans_le hl'.extends_res.next_le⟩
    exact ⟨((Adds.acquire .cudaBlock l).trans hl').drop hown _, fun b hb => by cases hb⟩
  · rw [h]
    refine ⟨((((Adds.acquire _ _).trans (Adds.acquire _ _)).trans (Adds.acquire _ _)).trans
      (Adds.tie _ _ _)).trans (Adds.tie _ _ _), fun b' hb r hr => ?_⟩
    obtain rfl := Except.ok.inj hb
    change r ∈ b.toBuffer.owned at hr
    rw [howned] at hr
    have hnext : ∀ i ≤ l.next + 2, i < l.next + 3 := fun i hi => by omega
    obtain rfl | rfl : r = ⟨.mr, l.next + 2⟩ ∨ r = ⟨.cudaBlock, l.next⟩ := by simpa using hr
    · exact ⟨Nat.le_add_right _ _, hnext _ le_rfl⟩
    · exact ⟨le_rfl, hnext _ (Nat.le_add_right _ _)⟩

namespace Calls

/-! ## Calls that succeed -/

/-- Every call succeeds. -/
def host : System where
  malloc _ := 4096
  regattr _ := 0
  errno := ""
  strerror _ := ""

/-- Every call succeeds, but for what `getHandle` may say. -/
def cuda (getHandle : Except ℤ ℤ) : CudaSystem where
  toSystem := host
  cudaMalloc _ := .ok 65536
  pointerGetAttributes _ := .ok (true, 0)
  getHandle _ _ := getHandle
  cudaGetErrorString _ := ""
  cuGetErrorString _ := none
  file := "buffer.h"

end Calls

end EfaExamples
