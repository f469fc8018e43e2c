import EfaExamples.Common.Run
import EfaExamples.Efa.Resources
/-!
# Who gives back what

A destructor gives back `raw_` and `mr_`, and nothing else does. So what no buffer owns
any more stays as it is (`BufferOp.bufferStep`), and a program of buffers is linear
exactly if it never comes to that: no descriptor is exported, no constructor of
`CUDABuffer` throws with a block in hand, and nothing is overwritten.
-/

namespace EfaExamples

open Ledger Resources

variable {l l' : Resources} {r on : Resource} {b b' : AnyBuffer} {s s' : Buffers} {op : BufferOp}

/-- **Ownership is linear.** Whatever was handed out is given back once, in its own way, and no
memory while a region in it is open. -/
def Resources.Linear (l : Resources) : Prop :=
  Balanced Resource.release (fun _ => True) l.log ∧ Ordered (fun _ => True) l.log

namespace AnyBuffer

/-- What the destructor gives back. -/
def owned : AnyBuffer → List Resource
  | host b => b.owned
  | cuda b => b.toBuffer.owned

theorem mem_owned_of_raw (h : b.raw = some r) : r ∈ b.owned := by
  cases b with
  | host b | cuda b =>
    rw [raw] at h
    simp [owned, Buffer.owned, h]

theorem extends_destroy (b : AnyBuffer) (l : Resources) : Extends b.owned l (b.destroy l) := by
  cases b with
  | host b => exact b.extends_destroy l
  | cuda b => exact b.extends_destroy l

end AnyBuffer

/-- What the buffers alive own. -/
def owners (bufs : List AnyBuffer) : List Resource := bufs.flatMap AnyBuffer.owned

/-! ## What the buffers alive own -/

section Owners

variable {bufs : List AnyBuffer} {i j : ℕ} {r : AnyBuffer × AnyBuffer}

@[simp] theorem owners_nil : owners [] = [] := rfl

@[simp] theorem owners_append (bufs bufs' : List AnyBuffer) :
    owners (bufs ++ bufs') = owners bufs ++ owners bufs' := List.flatMap_append

@[simp] theorem owners_singleton (b : AnyBuffer) : owners [b] = b.owned := by simp [owners]

theorem mem_owners : r' ∈ owners bufs ↔ ∃ b ∈ bufs, r' ∈ b.owned := List.mem_flatMap

/-- What one of them owns, and the others. -/
theorem owners_perm_eraseIdx (h : bufs[i]? = some b) :
    (owners bufs).Perm (b.owned ++ owners (bufs.eraseIdx i)) := by
  obtain ⟨hi, rfl⟩ := List.getElem?_eq_some_iff.mp h
  exact (List.getElem_cons_eraseIdx_perm hi).symm.flatMap_right _

/-- What the new one owns, and the others. -/
theorem owners_set_perm (h : bufs[i]? = some b) (b' : AnyBuffer) :
    (owners (bufs.set i b')).Perm (b'.owned ++ owners (bufs.eraseIdx i)) :=
  (List.set_perm_cons_eraseIdx (List.getElem?_eq_some_iff.mp h).1 b').flatMap_right _

theorem AnyBuffer.owned_move_snd (b : AnyBuffer) : b.move.2.owned = [] := by cases b <;> rfl

theorem AnyBuffer.move_fst (b : AnyBuffer) : b.move.1 = b := by cases b <;> rfl

/-- A buffer assigned to takes over, and leaves the other empty. -/
theorem AnyBuffer.assign_eq (h : b.assign b' = some r) :
    r.1 = b' ∧ (r.2 = .host {} ∨ r.2 = .cuda {}) := by
  cases b with
  | host b =>
    cases b' with
    | host b' =>
      cases h
      exact ⟨rfl, Or.inl rfl⟩
    | cuda b' => cases h
  | cuda b =>
    cases b' with
    | host b' => cases h
    | cuda b' =>
      cases h
      exact ⟨rfl, Or.inr rfl⟩

/-- A move construction passes on. -/
theorem owners_move (h : bufs[i]? = some b) :
    (owners bufs).Perm (owners (bufs.set i b.move.2 ++ [b.move.1])) := by
  rw [owners_append, owners_singleton, b.move_fst]
  refine (owners_perm_eraseIdx h).trans (List.perm_append_comm.trans ?_)
  have hset := owners_set_perm h b.move.2
  rw [b.owned_move_snd, List.nil_append] at hset
  exact hset.symm.append_right _

open scoped List in
/-- **A move assignment passes on, and loses what the target owned.** -/
theorem owners_assign (hij : i ≠ j) (hi : bufs[i]? = some b) (hj : bufs[j]? = some b')
    (hr : b.assign b' = some r) :
    (owners bufs).Perm (b.owned ++ owners ((bufs.set j r.2).set i r.1)) := by
  obtain ⟨hfst, hsnd⟩ := AnyBuffer.assign_eq hr
  have hempty : r.2.owned = [] := by rcases hsnd with h | h <;> rw [h] <;> rfl
  have htarget : (bufs.set j r.2)[i]? = some b := by rwa [List.getElem?_set_ne hij.symm]
  have hlose := owners_perm_eraseIdx htarget
  have hset := owners_set_perm hj r.2
  have htake := owners_set_perm htarget r.1
  rw [hempty, List.nil_append] at hset
  rw [hfst] at htake
  calc owners bufs
      _ ~ b'.owned ++ owners (bufs.eraseIdx j) := owners_perm_eraseIdx hj
      _ ~ b'.owned ++ owners (bufs.set j r.2) := hset.symm.append_left _
      _ ~ b'.owned ++ (b.owned ++ owners ((bufs.set j r.2).eraseIdx i)) := hlose.append_left _
      _ ~ b.owned ++ (b'.owned ++ owners ((bufs.set j r.2).eraseIdx i)) :=
        List.perm_append_comm_assoc _ _ _
      _ ~ b.owned ++ owners ((bufs.set j r.2).set i r.1) := by
        rw [hfst]
        exact htake.symm.append_left _

end Owners

/-! ## One operation -/

/-- **What an operation does**: it gives back only what a buffer owns, and what a buffer owns
afterwards one did before, or it is new. -/
structure BufferStep (s s' : Buffers) : Prop where
  extends_res : Extends (owners s.bufs) s.res s'.res
  owners_sub : ∀ r ∈ owners s'.bufs, r ∈ owners s.bufs ∨ s.res.next ≤ r.id

theorem Constructs.bufferStep {α : Type} {wrap : α → AnyBuffer} {r : Except Thrown α × Resources}
    (h : Constructs (fun b => (wrap b).owned) s.res r) :
    BufferStep s (BufferOp.construct s wrap r) := by
  obtain ⟨⟨hext, -⟩, hnew⟩ := h
  have hres : (BufferOp.construct s wrap r).res = r.2 := by
    unfold BufferOp.construct
    split <;> rfl
  rw [← hres] at hext
  refine ⟨hext.mono fun r hr => (by cases hr), fun r' hr' => ?_⟩
  unfold BufferOp.construct at hr'
  split at hr'
  · rename_i b l
    rw [owners_append, List.mem_append, owners_singleton] at hr'
    exact hr'.imp id fun hr' => (hnew b rfl r' hr').1
  · exact Or.inl hr'

theorem BufferOp.bufferStep (h : op.apply s = some s') : BufferStep s s' := by
  have hsame : ∀ bufs', (∀ r ∈ owners bufs', r ∈ owners s.bufs) → BufferStep s ⟨bufs', s.res⟩ :=
    fun bufs' hsub =>
      ⟨(Extends.refl _).mono fun r hr => (by cases hr), fun r hr => Or.inl (hsub r hr)⟩
  cases op with
  | emptyHost | emptyCuda =>
    cases h
    exact hsame _ fun r hr => by simpa [AnyBuffer.owned, Buffer.owned] using hr
  | host sys domain size al =>
    obtain rfl := Option.some.inj h
    exact Constructs.bufferStep (Buffer.constructs_host _ _ _ _ _)
  | cuda sys domain size al =>
    obtain rfl := Option.some.inj h
    exact Constructs.bufferStep (CUDABuffer.constructs_make _ _ _ _ _)
  | move i =>
    simp only [apply, Option.bind_eq_bind, Option.bind_eq_some_iff, Option.pure_def,
      Option.some.injEq] at h
    obtain ⟨b, hb, rfl⟩ := h
    exact hsame _ fun r hr => (owners_move hb).mem_iff.mpr hr
  | assign i j =>
    simp only [apply, Option.bind_eq_bind, Option.bind_eq_some_iff, Option.pure_def] at h
    obtain ⟨b, hb, b', hb', r, hr, h⟩ := h
    by_cases hij : i = j
    · rw [if_pos hij] at h
      cases h
      exact hsame _ fun r hr => hr
    · rw [if_neg hij] at h
      cases h
      exact hsame _ fun r' hr' =>
        (owners_assign hij hb hb' hr).mem_iff.mpr (List.mem_append_right _ hr')
  | destroy i =>
    simp only [apply, Option.bind_eq_bind, Option.bind_eq_some_iff, Option.pure_def,
      Option.some.injEq] at h
    obtain ⟨b, hb, rfl⟩ := h
    have hmem := fun r => (owners_perm_eraseIdx hb).mem_iff (a := r)
    exact ⟨(b.extends_destroy s.res).mono fun r hr =>
      Or.inl ((hmem r).mpr (List.mem_append_left _ hr)), fun r hr =>
      Or.inl ((hmem r).mpr (List.mem_append_right _ hr))⟩

/-- The operation gets a block from `cudaMalloc`, or overwrites a buffer that has one. -/
def BufferOp.Wastes : BufferOp → Buffers → Prop
  | cuda sys _ size _, _ => ∃ addr, sys.cudaMalloc size = .ok addr
  | assign this other, s => this ≠ other ∧ ∃ b ∈ s.bufs[this]?, b.raw ≠ none
  | _, _ => False

/-! ## What is lost -/

/-- **Something is lost for good**: no buffer owns it and it was not given back, or it is a block of
`cudaMalloc` that went to `free`. -/
def Buffers.Spoiled (s : Buffers) : Prop :=
  ∃ r, .acquired r ∈ s.res.log ∧
    (r.id < s.res.next ∧ r ∉ owners s.bufs ∧ releases s.res.log r = [] ∨
      r.kind = .cudaBlock ∧ .released .free r ∈ s.res.log)

theorem Buffers.Spoiled.step (hs : s.Spoiled) (h : BufferStep s s') : s'.Spoiled := by
  obtain ⟨r, hr, ⟨hlt, hown, hrel⟩ | ⟨hkind, hfree⟩⟩ := hs
  · refine ⟨r, h.extends_res.log_mono.subset hr, Or.inl ⟨?_, fun hm => ?_, ?_⟩⟩
    · exact hlt.trans_le h.extends_res.next_le
    · rcases h.owners_sub r hm with hm | hle
      · exact hown hm
      · omega
    · rw [h.extends_res.releases r hlt hown, hrel]
  · exact ⟨r, h.extends_res.log_mono.subset hr,
      Or.inr ⟨hkind, h.extends_res.log_mono.subset hfree⟩⟩

/-- What is lost makes the ledger unbalanced. -/
theorem Buffers.Spoiled.not_linear (hs : s.Spoiled) : ¬ s.res.Linear := by
  rintro ⟨hbal, -⟩
  obtain ⟨r, hr, ⟨-, -, hrel⟩ | ⟨hkind, hfree⟩⟩ := hs
  · have := hbal r trivial hr
    rw [hrel] at this
    cases this
  · have hmem := mem_releases.mpr hfree
    rw [hbal r trivial hr, List.mem_singleton, Resource.release, hkind] at hmem
    cases hmem

/-! ## What is kept -/

/-- A `HostBuffer` owns a block and the one region in it, or nothing; a `CUDABuffer` owns
nothing. -/
def AnyBuffer.Sound (l : Resources) : AnyBuffer → Prop
  | host b => b.owned = [] ∨ ∃ block mr, b.raw = some block ∧ b.mr = some mr ∧
      block.kind = .block ∧ mr.kind = .mr ∧ ∀ r, .tied r block ∈ l.log → r = mr
  | cuda b => b.toBuffer.owned = []

/-- **The state of a program that loses nothing.** -/
structure Buffers.Kept (s : Buffers) : Prop where
  account : Account Resource.release (owners s.bufs) s.res.log
  fresh : ∀ r, .acquired r ∈ s.res.log → r.id < s.res.next
  ties : ∀ r on, .tied r on ∈ s.res.log → on.kind = .domain ∨ on.kind = .block ∧ on.id < s.res.next
  ordered : Ordered (fun _ => True) s.res.log
  sound : ∀ b ∈ s.bufs, b.Sound s.res

namespace Buffers.Kept

theorem empty : ({} : Buffers).Kept where
  account := Account.nil
  fresh r hr := by cases hr
  ties r on hr := by cases hr
  ordered := ordered_nil
  sound b hb := by cases hb

/-- Buffers may be passed on. -/
theorem of_perm (k : s.Kept) {bufs : List AnyBuffer} (hp : (owners s.bufs).Perm (owners bufs))
    (hsound : ∀ b ∈ bufs, b.Sound s.res) : Kept ⟨bufs, s.res⟩ where
  account := k.account.perm hp
  fresh := k.fresh
  ties := k.ties
  ordered := k.ordered
  sound := hsound

/-- What is handed out next has not been before. -/
theorem acquired_next (k : s.Kept) (kind : Kind) :
    .acquired (⟨kind, s.res.next⟩ : Resource) ∉ s.res.log := fun h => by
  have := k.fresh _ h
  simp at this

/-- Nothing lies in a block that has not been handed out. -/
theorem tied_next (k : s.Kept) : .tied r ⟨.block, s.res.next⟩ ∉ s.res.log := fun h => by
  rcases k.ties _ _ h with h | ⟨-, h⟩
  · cases h
  · simp at h

/-- Buffers stay sound where nothing else is tied to their blocks. -/
theorem sound_of_ties (k : s.Kept) (ht : ∀ r on, .tied r on ∈ l'.log →
    .tied r on ∈ s.res.log ∨ on.kind ≠ .block ∨ s.res.next ≤ on.id) :
    ∀ b ∈ s.bufs, b.Sound l' := by
  intro b hb
  have hs := k.sound b hb
  cases b with
  | cuda b => exact hs
  | host b =>
    refine hs.imp id ?_
    rintro ⟨block, mr, hraw, hmr, hkb, hkm, htied⟩
    refine ⟨block, mr, hraw, hmr, hkb, hkm, fun r hr => ?_⟩
    have hown : block ∈ owners s.bufs :=
      mem_owners.mpr ⟨_, hb, by simp [AnyBuffer.owned, Buffer.owned, hraw]⟩
    have hlt := k.fresh block (k.account.acquired block hown)
    rcases ht r block hr with hr | hk | hle
    · exact htied r hr
    · exact absurd hkb hk
    · omega

/-- A block that goes back at once leaves the state as it was. -/
theorem wasted (k : s.Kept) :
    Kept ⟨s.bufs, (s.res.acquire .block).2.drop .free (some ⟨.block, s.res.next⟩)⟩ := by
  have ha := k.account.acquire (k.acquired_next .block)
  have ho : Ordered (fun _ => True) (s.res.acquire .block).2.log :=
    k.ordered.concat fun c on h => by cases h
  refine ⟨ha.release, fun r hr => ?_, fun r on hr => ?_, ho.concat ?_,
    k.sound_of_ties fun r on hr => Or.inl (by simpa [drop, acquire] using hr)⟩
  · obtain hr | rfl : .acquired r ∈ s.res.log ∨ r = ⟨.block, s.res.next⟩ := by
      simpa [drop, acquire] using hr
    · exact (k.fresh r hr).trans (Nat.lt_succ_self _)
    · exact Nat.lt_succ_self _
  · have hold : .tied r on ∈ s.res.log := by simpa [drop, acquire] using hr
    exact (k.ties r on hold).imp id fun h => ⟨h.1, h.2.trans (Nat.lt_succ_self _)⟩
  · rintro c on hc - r hr
    cases hc
    exact absurd (by simpa [acquire] using hr) (k.tied_next (r := r))

/-- A block with a region in it goes to a new buffer. -/
theorem made (k : s.Kept) {d : Resource} (hd : d.kind = .domain) {b : Buffer}
    (hraw : b.raw = some ⟨.block, s.res.next⟩) (hmr : b.mr = some ⟨.mr, s.res.next + 1⟩) :
    Kept ⟨s.bufs ++ [.host b], (((s.res.acquire .block).2.acquire .mr).2.tie
      ⟨.mr, s.res.next + 1⟩ d).tie ⟨.mr, s.res.next + 1⟩ ⟨.block, s.res.next⟩⟩ := by
  have ha := k.account.acquire (k.acquired_next .block)
  have hnew : .acquired (⟨.mr, s.res.next + 1⟩ : Resource) ∉ (s.res.acquire .block).2.log := by
    intro h
    have hold : .acquired (⟨.mr, s.res.next + 1⟩ : Resource) ∈ s.res.log := by
      simpa [acquire] using h
    have hlt : s.res.next + 1 < s.res.next := k.fresh _ hold
    omega
  have hperm : (⟨.mr, s.res.next + 1⟩ :: ⟨.block, s.res.next⟩ :: owners s.bufs).Perm
      (owners (s.bufs ++ [.host b])) := by
    rw [owners_append, owners_singleton, AnyBuffer.owned, Buffer.owned, hraw, hmr]
    let new : List Resource := [⟨.mr, s.res.next + 1⟩, ⟨.block, s.res.next⟩]
    have hswap : (new ++ owners s.bufs).Perm (owners s.bufs ++ new) := List.perm_append_comm
    exact hswap
  have hties : ∀ r on, .tied r on ∈ ((((s.res.acquire .block).2.acquire .mr).2.tie
      ⟨.mr, s.res.next + 1⟩ d).tie ⟨.mr, s.res.next + 1⟩ ⟨.block, s.res.next⟩).log →
      .tied r on ∈ s.res.log ∨ (r = ⟨.mr, s.res.next + 1⟩ ∧ on = d) ∨
        r = ⟨.mr, s.res.next + 1⟩ ∧ on = ⟨.block, s.res.next⟩ := by
    intro r on hr
    simpa [tie, acquire, or_assoc] using hr
  have hnext : s.res.next < s.res.next + 2 := by omega
  refine ⟨(((ha.acquire hnew).tied _ _).tied _ _).perm hperm, fun r hr => ?_, fun r on hr => ?_,
    ?_, fun b hb => ?_⟩
  · obtain hr | rfl | rfl : .acquired r ∈ s.res.log ∨ r = ⟨.block, s.res.next⟩ ∨
        r = ⟨.mr, s.res.next + 1⟩ := by
      simpa [tie, acquire, or_assoc] using hr
    · exact (k.fresh r hr).trans hnext
    · exact hnext
    · exact Nat.lt_succ_self (s.res.next + 1)
  · rcases hties r on hr with hr | ⟨-, rfl⟩ | ⟨-, rfl⟩
    · exact (k.ties r on hr).imp id fun h => ⟨h.1, h.2.trans hnext⟩
    · exact Or.inl hd
    · exact Or.inr ⟨rfl, hnext⟩
  · exact (((k.ordered.concat fun c on h => by cases h).concat fun c on h => by cases h).concat
      fun c on h => by cases h).concat fun c on h => by cases h
  · rcases List.mem_append.mp hb with hb | hb
    · refine k.sound_of_ties (fun r on hr => (hties r on hr).imp id ?_) b hb
      rintro (⟨-, rfl⟩ | ⟨-, rfl⟩)
      · exact Or.inl (by rw [hd]; decide)
      · exact Or.inr le_rfl
    · obtain rfl := List.mem_singleton.mp hb
      refine Or.inr ⟨_, _, hraw, hmr, rfl, rfl, fun r hr => ?_⟩
      rcases hties r _ hr with hr | ⟨-, h⟩ | ⟨h, -⟩
      · exact absurd hr k.tied_next
      · rw [← h] at hd
        cases hd
      · exact h

/-- A buffer goes, and what it owns. -/
theorem destroyed (k : s.Kept) {i : ℕ} (hb : s.bufs[i]? = some b) :
    Kept ⟨s.bufs.eraseIdx i, b.destroy s.res⟩ := by
  have hperm := owners_perm_eraseIdx hb
  have hmem : b ∈ s.bufs := List.mem_of_getElem? hb
  have hsub : ∀ b' ∈ s.bufs.eraseIdx i, b' ∈ s.bufs := fun b' hb' =>
    List.mem_of_mem_eraseIdx hb'
  have hempty : ∀ b : Buffer, b.owned = [] → b.mr = none ∧ b.raw = none := by
    intro b h
    simpa [Buffer.owned] using h
  have hs := k.sound b hmem
  cases b with
  | cuda b =>
    obtain ⟨hmr, hraw⟩ := hempty _ hs
    have hsame : (AnyBuffer.cuda b).destroy s.res = s.res := by
      simp [AnyBuffer.destroy, CUDABuffer.destroy, hmr, hraw, drop]
    rw [show (AnyBuffer.cuda b).owned = [] from hs] at hperm
    rw [hsame]
    exact k.of_perm hperm fun b' hb' => k.sound b' (hsub b' hb')
  | host b =>
    rcases hs with hs | ⟨block, mr, hraw, hmr, hkb, hkm, htied⟩
    · obtain ⟨hmr, hraw⟩ := hempty _ hs
      have hsame : (AnyBuffer.host b).destroy s.res = s.res := by
        simp [AnyBuffer.destroy, Buffer.destroy, hmr, hraw, drop]
      rw [show (AnyBuffer.host b).owned = [] from hs] at hperm
      rw [hsame]
      exact k.of_perm hperm fun b' hb' => k.sound b' (hsub b' hb')
    · have hown : (AnyBuffer.host b).owned = [mr, block] := by
        simp [AnyBuffer.owned, Buffer.owned, hraw, hmr]
      have hrel : (AnyBuffer.host b).destroy s.res =
          { s.res with log := s.res.log ++ [.released .fiClose mr] ++ [.released .free block] } := by
        simp [AnyBuffer.destroy, Buffer.destroy, hmr, hraw, drop]
      have hfi : mr.release = .fiClose := by rw [Resource.release, hkm]; rfl
      have hfree : block.release = .free := by rw [Resource.release, hkb]; rfl
      rw [hown] at hperm
      have ha := (k.account.perm hperm).release
      rw [hfi] at ha
      have ha₂ := Account.release ha
      rw [hfree] at ha₂
      have ho : Ordered (fun _ => True) (s.res.log ++ [.released .fiClose mr]) := by
        refine k.ordered.concat ?_
        rintro c on hc - r hr
        cases hc
        -- nothing lies in a region
        rcases k.ties r _ hr with h | ⟨h, -⟩ <;> rw [hkm] at h <;> cases h
      rw [hrel]
      refine ⟨ha₂, fun r hr => k.fresh r (by simpa using hr), fun r on hr =>
        k.ties r on (by simpa using hr), ho.concat ?_, fun b' hb' => ?_⟩
      · rintro c on hc - r hr
        cases hc
        -- what lies in the block is its region
        obtain rfl := htied r (by simpa using hr)
        simp
      · exact k.sound_of_ties (fun r on hr => Or.inl (by simpa using hr)) b' (hsub b' hb')

/-- **An operation that wastes nothing.** -/
theorem apply (k : s.Kept) (h : op.apply s = some s') (hw : ¬ op.Wastes s) : s'.Kept := by
  cases op with
  | emptyHost | emptyCuda =>
    cases h
    refine k.of_perm (by simp [AnyBuffer.owned, Buffer.owned]) fun b hb => ?_
    rcases List.mem_append.mp hb with hb | hb
    · exact k.sound b hb
    · obtain rfl := List.mem_singleton.mp hb
      first | exact Or.inl rfl | exact rfl
  | host sys domain size al =>
    obtain rfl := Option.some.inj h
    rcases Buffer.host_cases sys (domain.map (⟨.domain, ·⟩)) size al s.res with
      ⟨e, hb⟩ | ⟨e, hb⟩ | ⟨d, data, sz, hd, hb⟩
    · rw [hb]
      exact k
    · rw [hb]
      exact k.wasted
    · rw [hb]
      obtain ⟨i, -, rfl⟩ := Option.map_eq_some_iff.mp hd
      exact k.made rfl rfl rfl
  | cuda sys domain size al =>
    obtain rfl := Option.some.inj h
    rcases CUDABuffer.make_cases sys ⟨.domain, domain⟩ size al s.res with
      ⟨err, -, e, hb⟩ | ⟨hmalloc, -⟩
    · rw [hb]
      exact k
    · exact absurd hmalloc hw
  | move i =>
    simp only [BufferOp.apply, Option.bind_eq_bind, Option.bind_eq_some_iff, Option.pure_def,
      Option.some.injEq] at h
    obtain ⟨b, hb, rfl⟩ := h
    have hsound := k.sound b (List.mem_of_getElem? hb)
    refine k.of_perm (owners_move hb) fun b' hb' => ?_
    rw [List.mem_append, List.mem_singleton] at hb'
    rcases hb' with hb' | rfl
    · rcases List.mem_or_eq_of_mem_set hb' with hb' | rfl
      · exact k.sound b' hb'
      · cases b with
        | host b => exact Or.inl rfl
        | cuda b => exact rfl
    · rwa [b.move_fst]
  | assign i j =>
    simp only [BufferOp.apply, Option.bind_eq_bind, Option.bind_eq_some_iff, Option.pure_def] at h
    obtain ⟨b, hb, b', hb', r, hr, h⟩ := h
    by_cases hij : i = j
    · rw [if_pos hij] at h
      cases h
      exact k
    · rw [if_neg hij] at h
      cases h
      have hraw : b.raw = none := by
        by_contra hraw
        exact hw ⟨hij, b, hb, hraw⟩
      have hempty : b.owned = [] := by
        have hs := k.sound b (List.mem_of_getElem? hb)
        cases b with
        | cuda b => exact hs
        | host b =>
          rcases hs with hs | ⟨block, -, hblock, -⟩
          · exact hs
          · rw [show b.raw = none from hraw] at hblock
            cases hblock
      obtain ⟨hfst, hsnd⟩ := AnyBuffer.assign_eq hr
      have hperm := owners_assign hij hb hb' hr
      rw [hempty, List.nil_append] at hperm
      refine k.of_perm hperm fun x hx => ?_
      rcases List.mem_or_eq_of_mem_set hx with hx | rfl
      · rcases List.mem_or_eq_of_mem_set hx with hx | rfl
        · exact k.sound x hx
        · rcases hsnd with h | h <;> rw [h]
          · exact Or.inl rfl
          · exact rfl
      · rw [hfst]
        exact k.sound b' (List.mem_of_getElem? hb')
  | destroy i =>
    simp only [BufferOp.apply, Option.bind_eq_bind, Option.bind_eq_some_iff, Option.pure_def,
      Option.some.injEq] at h
    obtain ⟨b, hb, rfl⟩ := h
    exact k.destroyed hb

theorem bounded (k : s.Kept) : s.res.Bounded := fun c r hr => k.fresh r (k.account.known c r hr)

/-- **An operation that wastes something.** -/
theorem spoiled (k : s.Kept) (h : op.apply s = some s') (hw : op.Wastes s) : s'.Spoiled := by
  cases op with
  | emptyHost | emptyCuda | host | move | destroy => exact absurd hw id
  | cuda sys domain size al =>
    obtain rfl := Option.some.inj h
    obtain ⟨addr, hmalloc⟩ := hw
    rcases CUDABuffer.make_cases sys ⟨.domain, domain⟩ size al s.res with
      ⟨err, herr, -⟩ | ⟨-, ⟨e, l', hb, hl'⟩ | ⟨b, hb, howned⟩⟩
    · rw [hmalloc] at herr
      cases herr
    · -- `~Buffer` frees the block
      rw [hb]
      refine ⟨⟨.cudaBlock, s.res.next⟩, ?_, Or.inr ⟨rfl, ?_⟩⟩
      · have hacq : .acquired (⟨.cudaBlock, s.res.next⟩ : Resource) ∈
            (s.res.acquire .cudaBlock).2.log := by simp [acquire]
        exact List.mem_append_left _ (hl'.extends_res.log_mono.subset hacq)
      · exact List.mem_append_right _ (List.mem_singleton.mpr rfl)
    · -- nobody closes the descriptor
      rw [hb]
      refine ⟨⟨.dmabuf, s.res.next + 1⟩, ?_, Or.inl ⟨?_, fun hm => ?_, ?_⟩⟩
      · simp [BufferOp.construct, tie, acquire]
      · show s.res.next + 1 < s.res.next + 3
        omega
      · simp only [BufferOp.construct, owners_append, owners_singleton, AnyBuffer.owned, howned,
          List.mem_append, List.mem_cons, Resource.mk.injEq, reduceCtorEq, false_and,
          List.not_mem_nil, or_false] at hm
        have : s.res.next + 1 < s.res.next := k.fresh _ (k.account.acquired _ hm)
        omega
      · have hold := k.bounded.releases_of_le (r := ⟨.dmabuf, s.res.next + 1⟩) (Nat.le_succ _)
        simp [BufferOp.construct, tie, acquire, hold]
  | assign i j =>
    obtain ⟨hij, b, hb, hraw⟩ := hw
    obtain ⟨r, hr⟩ := Option.ne_none_iff_exists'.mp hraw
    have hown := AnyBuffer.mem_owned_of_raw hr
    simp only [BufferOp.apply, Option.bind_eq_bind, Option.bind_eq_some_iff, Option.pure_def] at h
    obtain ⟨b₁, hb₁, b', hb', p, hp, h⟩ := h
    rw [Option.mem_def.mp hb] at hb₁
    cases hb₁
    rw [if_neg hij] at h
    cases h
    have hperm := owners_assign hij hb hb' hp
    have hold : r ∈ owners s.bufs := hperm.mem_iff.mpr (List.mem_append_left _ hown)
    have hdisj := List.disjoint_of_nodup_append (hperm.nodup_iff.mp k.account.nodup)
    exact ⟨r, k.account.acquired r hold, Or.inl ⟨k.fresh r (k.account.acquired r hold),
      fun hm => hdisj hown hm, k.account.kept r hold⟩⟩

end Buffers.Kept

/-! ## Programs -/

/-- The states of a program of buffers. -/
structure BufferRun (ops : ℕ → BufferOp) (σ : ℕ → Buffers) (n : ℕ) : Prop where
  start : σ 0 = {}
  next : ∀ i < n, (ops i).apply (σ i) = some (σ (i + 1))

/-- **Ownership is linear, exactly if nothing is wasted.** At the end of a program, when all buffers
are gone, the ledger is linear if and only if no operation got a block from `cudaMalloc` or
overwrote a buffer that had one. -/
theorem linear_iff {ops : ℕ → BufferOp} {σ : ℕ → Buffers} {n : ℕ} (h : BufferRun ops σ n)
    (hgone : (σ n).bufs = []) :
    (σ n).res.Linear ↔ ∀ i < n, ¬ (ops i).Wastes (σ i) := by
  have hkept : ∀ m ≤ n, (∀ i < m, ¬ (ops i).Wastes (σ i)) → (σ m).Kept := by
    intro m
    induction m with
    | zero =>
      intro _ _
      rw [h.start]
      exact Buffers.Kept.empty
    | succ m ih =>
      intro hm hw
      exact (ih (by omega) fun i hi => hw i (by omega)).apply (h.next m (by omega)) (hw m (by omega))
  constructor
  · intro hlin
    by_contra hw
    -- the first operation that wastes something
    obtain ⟨m, -, hm, hsafe, hwaste⟩ := exists_step_of_not
      (P := fun m => ∀ i < m, ¬ (ops i).Wastes (σ i)) (Nat.zero_le n) (fun i hi => by omega) hw
    have hm' : (ops m).Wastes (σ m) := by
      by_contra hno
      refine hwaste fun i hi => ?_
      rcases Nat.lt_succ_iff_lt_or_eq.mp hi with hi | rfl
      · exact hsafe i hi
      · exact hno
    have hspoiled : ∀ d, m + 1 + d ≤ n → (σ (m + 1 + d)).Spoiled := by
      intro d
      induction d with
      | zero => exact fun _ => (hkept m (by omega) hsafe).spoiled (h.next m hm) hm'
      | succ d ih =>
        exact fun hd => (ih (by omega)).step (BufferOp.bufferStep (h.next (m + 1 + d) (by omega)))
    obtain ⟨d, hd⟩ := Nat.exists_eq_add_of_le hm
    have hn := hspoiled d (by omega)
    rw [show m + 1 + d = n by omega] at hn
    exact hn.not_linear hlin
  · intro hw
    have k := hkept n le_rfl hw
    have ha := k.account
    rw [hgone, owners_nil] at ha
    exact ⟨ha.balanced _, k.ordered⟩

namespace BufferPrograms

/-! ## Three programs -/

open Calls

/-- The states of a program. -/
def states (ops : List BufferOp) (i : ℕ) : Buffers :=
  (ops.take i).foldl (fun s op => (op.apply s).getD s) {}

/-- A `HostBuffer` is passed on. -/
def passed : List BufferOp := [.host host (some 0) 8129 128, .move 0, .destroy 1, .destroy 0]

theorem bufferRun_passed : BufferRun (passed.getD · .emptyHost) (states passed) 4 where
  start := rfl
  next i hi := match i, hi with
    | 0, _ | 1, _ | 2, _ | 3, _ => rfl

theorem linear_iff_passed : (states passed 4).res.Linear :=
  (linear_iff bufferRun_passed rfl).mpr fun i hi => match i, hi with
    | 0, _ | 1, _ | 2, _ | 3, _ => id

/-- **What is lost.** A `CUDABuffer` is made and destroyed, and its descriptor is not closed; one is
not made for want of a descriptor, and its block goes to `free`; a `HostBuffer` is
assigned to another, whose block and region are not given back. -/
theorem linear_not :
    ((states [.cuda (cuda (.ok 7)) 0 4096 128, .destroy 0] 2).bufs = [] ∧
      ¬ (states [.cuda (cuda (.ok 7)) 0 4096 128, .destroy 0] 2).res.Linear) ∧
    ((states [.cuda (cuda (.error 1)) 0 4096 128] 1).bufs = [] ∧
      ¬ (states [.cuda (cuda (.error 1)) 0 4096 128] 1).res.Linear) ∧
    ((states [.host host (some 0) 8129 128, .host host (some 0) 8129 128, .assign 0 1, .destroy 1,
        .destroy 0] 5).bufs = [] ∧
      ¬ (states [.host host (some 0) 8129 128, .host host (some 0) 8129 128, .assign 0 1, .destroy 1,
        .destroy 0] 5).res.Linear) := by
  refine ⟨⟨rfl, fun h => ?_⟩, ⟨rfl, fun h => ?_⟩, rfl, fun h => ?_⟩
  · have hfd := h.1 ⟨.dmabuf, 1⟩ trivial (by decide +kernel)
    revert hfd
    decide +kernel
  · have hblock := h.1 ⟨.cudaBlock, 0⟩ trivial (by decide +kernel)
    revert hblock
    decide +kernel
  · have hblock := h.1 ⟨.block, 0⟩ trivial (by decide +kernel)
    revert hblock
    decide +kernel

end BufferPrograms

end EfaExamples
