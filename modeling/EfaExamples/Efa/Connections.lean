import EfaExamples.Efa.AddressText
import EfaExamples.Efa.Resources
/-!
# The connections a `Net` returns

`Connect` takes the pointer before it hands the `Conn` to `conns_`, which keeps what it has
under the key. So a second connection to one address is destroyed before it is returned,
and a `Net` owns whatever it returns exactly if no two calls that succeed are for
one address.
-/

namespace EfaExamples

open Ledger Resources

variable {l l' : Resources} {s s' : NetState} {r : Except Thrown Resource} {p : Resource}

/-! ## When a buffer is made -/

/-- The calls in the constructor of a `HostBuffer` succeed. -/
def System.MakesHost (sys : System) (size al : UInt64) : Prop :=
  sys.malloc size ≠ 0 ∧
    sys.regattr ⟨align (sys.malloc size) al, sys.malloc size + size - align (sys.malloc size) al⟩ = 0

/-- The calls in the constructor of a `CUDABuffer` succeed. -/
def CudaSystem.MakesCuda (sys : CudaSystem) (size al : UInt64) : Prop :=
  ∃ addr device fd, sys.cudaMalloc size = .ok addr ∧
    sys.pointerGetAttributes addr = .ok (true, device) ∧
    sys.getHandle (align addr al) size = .ok fd ∧ fd ≠ -1 ∧
    sys.regattr ⟨align addr al, addr + size - align addr al⟩ = 0

/-- `Bind` returns a region exactly if the registration succeeds. -/
theorem Resources.bind_isOk {sys : System} {domain block : Resource} {data size : UInt64} :
    (l.bind sys domain block data size).1.isOk = true ↔ sys.regattr ⟨data, size⟩ = 0 := by
  unfold Resources.bind Region.bind
  by_cases h : sys.regattr ⟨data, size⟩ = 0
  · simp [h, Except.isOk, Except.toBool]
  · simp [h, Except.isOk, Except.toBool]

theorem Buffer.host_isOk {sys : System} {d : Resource} {size al : UInt64} :
    (Buffer.host sys (some d) size al l).1.isOk = true ↔ sys.MakesHost size al := by
  rw [System.MakesHost]
  unfold Buffer.host allocate
  by_cases hraw : sys.malloc size = 0
  · simp [hraw, Except.isOk, Except.toBool]
  · have hbind : ((l.acquire .block).2.bind sys d (l.acquire .block).1 (align (sys.malloc size) al)
        (sys.malloc size + size - align (sys.malloc size) al)).1.isOk = true ↔ sys.regattr
        ⟨align (sys.malloc size) al, sys.malloc size + size - align (sys.malloc size) al⟩ = 0 :=
      bind_isOk
    simp only [hraw, if_false, ne_eq, not_false_eq_true, true_and, ← hbind]
    generalize Resources.bind _ _ _ _ _ _ = r
    obtain ⟨e | mr, l'⟩ := r <;> simp [Except.isOk, Except.toBool]

theorem CUDABuffer.make_isOk {sys : CudaSystem} {d : Resource} {size al : UInt64} :
    (CUDABuffer.make sys d size al l).1.isOk = true ↔ sys.MakesCuda size al := by
  unfold CudaSystem.MakesCuda CUDABuffer.make
  cases sys.cudaMalloc size with
  | error err => simp [Except.isOk, Except.toBool]
  | ok addr =>
    dsimp only
    cases hattr : sys.pointerGetAttributes addr with
    | error err => simp [hattr, Except.isOk, Except.toBool]
    | ok a =>
      obtain ⟨type, device⟩ := a
      cases type with
      | false => simp [hattr, Except.isOk, Except.toBool]
      | true =>
        dsimp only
        cases hfd : sys.getHandle (align addr al) size with
        | error rc => simp [hattr, hfd, Except.isOk, Except.toBool]
        | ok fd =>
          dsimp only
          by_cases hone : fd = -1
          · simp [hattr, hfd, hone, Except.isOk, Except.toBool]
          · rw [if_neg hone]
            have hbind : (((l.acquire .cudaBlock).2.acquire .dmabuf).2.bind sys.toSystem d
                (l.acquire .cudaBlock).1 (align addr al) (addr + size - align addr al)).1.isOk =
                true ↔ sys.regattr ⟨align addr al, addr + size - align addr al⟩ = 0 := bind_isOk
            have hmakes : (∃ addr' device fd, (Except.ok addr : Except ℤ UInt64) = .ok addr' ∧
                sys.pointerGetAttributes addr' = .ok (true, device) ∧
                sys.getHandle (align addr' al) size = .ok fd ∧ fd ≠ -1 ∧
                sys.regattr ⟨align addr' al, addr' + size - align addr' al⟩ = 0) ↔
                sys.regattr ⟨align addr al, addr + size - align addr al⟩ = 0 := by
              constructor
              · rintro ⟨addr', device', fd', h, -, -, -, hreg⟩
                obtain rfl := Except.ok.inj h
                exact hreg
              · exact fun hreg => ⟨addr, device, fd, rfl, hattr, hfd, hone, hreg⟩
            rw [hmakes, ← hbind]
            generalize Resources.bind _ _ _ _ _ _ = r
            obtain ⟨e | mr, l'⟩ := r <;> simp [Except.isOk, Except.toBool]

/-! ## When a `Conn` is made -/

/-- The calls of a `Connect` succeed. -/
structure ConnectSystem.Succeeds (sys : ConnectSystem) : Prop where
  avInsert : sys.avInsert = 1
  recv : sys.recv.MakesHost kBufferSize kAlign
  send : sys.send.MakesHost kBufferSize kAlign
  read : sys.read.MakesCuda (.ofNat kMemoryRegionSize) kAlign
  write : sys.write.MakesCuda (.ofNat kMemoryRegionSize) kAlign

namespace ConnObject

/-- What `delete` gives back. -/
def owned (c : ConnObject) : List Resource :=
  c.writeBuffer.toBuffer.owned ++ (c.readBuffer.toBuffer.owned ++ (c.sendBuffer.owned ++
    (c.recvBuffer.owned ++ [c.self])))

/-- A `Conn` goes, with what it owns. -/
theorem adds_destroy {c : ConnObject} (h : Holding l l' c.owned) : Adds l (c.destroy l') := by
  have hself := (((h.drop_owned .fiClose .cudaFree).drop_owned .fiClose .cudaFree).drop_owned
    .fiClose .free).drop_owned .fiClose .free
  have hown : ∀ r ∈ (some c.self).toList, _ := hself.new
  exact hself.adds.drop hown .delete

/-- The object itself is given back. -/
theorem releases_destroy (c : ConnObject) (l : Resources) :
    releases (c.destroy l).log c.self ≠ [] := by
  simp [destroy, drop]

/-- **A `Conn` is made** exactly if the calls succeed, of new things, and it has not been given
back. -/
theorem make_cases (sys : ConnectSystem) (ep : Option Resource) (d : Resource) (remote : ℕ)
    (l : Resources) (hav : sys.avInsert = 1) :
    (∃ e l', make sys ep d remote l = (.error e, l') ∧ ¬ sys.Succeeds ∧ Adds l l') ∨
      ∃ c l', make sys ep d remote l = (.ok c, l') ∧ sys.Succeeds ∧ Holding l l' c.owned ∧
        (l.Bounded → releases l'.log c.self = []) := by
  unfold make
  have ok₁ : _ ↔ sys.recv.MakesHost kBufferSize kAlign := Buffer.host_isOk (l := l) (d := d)
  have c₁ := Buffer.constructs_host sys.recv (some d) kBufferSize kAlign l
  generalize Buffer.host sys.recv (some d) kBufferSize kAlign l = r₁ at ok₁ c₁ ⊢
  obtain ⟨e | recv, l₁⟩ := r₁
  · exact Or.inl ⟨e, _, rfl, fun h => (by cases ok₁.mpr h.recv), c₁.adds⟩
  have h₁ := (Holding.refl l).constructed c₁
  dsimp only
  have ok₂ : _ ↔ sys.send.MakesHost kBufferSize kAlign := Buffer.host_isOk (l := l₁) (d := d)
  have c₂ := Buffer.constructs_host sys.send (some d) kBufferSize kAlign l₁
  generalize Buffer.host sys.send (some d) kBufferSize kAlign l₁ = r₂ at ok₂ c₂ ⊢
  obtain ⟨e | send, l₂⟩ := r₂
  · exact Or.inl ⟨e, _, rfl, fun h => (by cases ok₂.mpr h.send),
      ((h₁.later c₂.adds).drop_owned _ _).adds⟩
  have h₂ := h₁.constructed c₂
  dsimp only
  have ok₃ : _ ↔ sys.read.MakesCuda (.ofNat kMemoryRegionSize) kAlign :=
    CUDABuffer.make_isOk (l := l₂) (d := d)
  have c₃ := CUDABuffer.constructs_make sys.read d (.ofNat kMemoryRegionSize) kAlign l₂
  generalize CUDABuffer.make sys.read d (.ofNat kMemoryRegionSize) kAlign l₂ = r₃ at ok₃ c₃ ⊢
  obtain ⟨e | read, l₃⟩ := r₃
  · exact Or.inl ⟨e, _, rfl, fun h => (by cases ok₃.mpr h.read),
      (((h₂.later c₃.adds).drop_owned _ _).drop_owned _ _).adds⟩
  have h₃ := h₂.constructed c₃
  dsimp only
  have ok₄ : _ ↔ sys.write.MakesCuda (.ofNat kMemoryRegionSize) kAlign :=
    CUDABuffer.make_isOk (l := l₃) (d := d)
  have c₄ := CUDABuffer.constructs_make sys.write d (.ofNat kMemoryRegionSize) kAlign l₃
  generalize CUDABuffer.make sys.write d (.ofNat kMemoryRegionSize) kAlign l₃ = r₄ at ok₄ c₄ ⊢
  obtain ⟨e | write, l₄⟩ := r₄
  · exact Or.inl ⟨e, _, rfl, fun h => (by cases ok₄.mpr h.write),
      ((((h₃.later c₄.adds).drop_owned _ _).drop_owned _ _).drop_owned _ _).adds⟩
  have h₄ := h₃.constructed c₄
  refine Or.inr ⟨_, _, rfl, ⟨hav, ok₁.mp rfl, ok₂.mp rfl, ok₃.mp rfl, ok₄.mp rfl⟩, ⟨?_, ?_⟩, ?_⟩
  · exact h₄.adds.trans (Adds.acquire .conn l₄)
  · intro r hr
    have h₅ := h₄.later (Adds.acquire .conn l₄)
    obtain hr | rfl : r ∈ write.toBuffer.owned ++ (read.toBuffer.owned ++ (send.owned ++
        (recv.owned ++ []))) ∨ r = ⟨.conn, l₄.next⟩ := by
      simpa [owned, acquire, or_assoc] using hr
    · exact h₅.new r hr
    · exact ⟨h₄.adds.extends_res.next_le, Nat.lt_succ_self _⟩
  · intro hl
    have hnew : releases l₄.log ⟨.conn, l₄.next⟩ = [] :=
      (h₄.adds.bounded hl).releases_of_le le_rfl
    simp [acquire, hnew]

end ConnObject

/-! ## One call -/

variable {sys : ConnectSystem} {remote : ℕ → UInt8} {key : String}

namespace NetState

/-- The `Net` owns the `Conn` at `p` under the key, and it is alive. -/
def Holds (s : NetState) (key : String) (p : Resource) : Prop :=
  ∃ c, s.net.conns.lookup key = some c ∧ c.self = p ∧ releases s.res.log p = []

/-- **What a `Connect` does.** -/
inductive ConnectStep (sys : ConnectSystem) (key : String) (s s' : NetState)
    (r : Except Thrown Resource) : Prop
  /-- it throws, and the `Net` is as before -/
  | threw (e : Thrown) : r = .error e → ¬ sys.Succeeds → s'.net = s.net → ConnectStep sys key s s' r
  /-- it returns a `Conn` that goes into `conns_` -/
  | kept (c : ConnObject) : r = .ok c.self → sys.Succeeds → s.net.conns.lookup key = none →
      s'.net = { s.net with conns := s.net.conns ++ [(key, c)] } → c.self.id < s'.res.next →
      (s.res.Bounded → releases s'.res.log c.self = []) → ConnectStep sys key s s' r
  /-- it returns a `Conn` that has been destroyed -/
  | refused (c : ConnObject) : r = .ok c.self → sys.Succeeds → s.net.conns.lookup key ≠ none →
      s'.net = s.net → releases s'.res.log c.self ≠ [] → ConnectStep sys key s s' r

theorem connect_cases (h : connect sys remote s = some (r, s')) :
    ConnectStep sys (addr2Str remote) s s' r ∧ Adds s.res s'.res := by
  unfold connect at h
  split at h
  · rename_i av domain _ _
    split at h
    · rename_i hav
      rcases ConnObject.make_cases sys s.net.ep domain sys.addr s.res hav with
        ⟨e, l, hmake, hno, ha⟩ | ⟨c, l, hmake, hyes, hold, hnew⟩
      · rw [hmake] at h
        cases h
        exact ⟨.threw e rfl hno rfl, ha⟩
      · rw [hmake] at h
        cases h
        unfold emplace
        split
        · rename_i hnone
          have hself : c.self ∈ c.owned := by simp [ConnObject.owned]
          exact ⟨.kept c rfl hyes hnone rfl (hold.new _ hself).2 hnew, hold.adds⟩
        · rename_i c' hsome
          exact ⟨.refused c rfl hyes (by rw [show s.net.conns.lookup _ = _ from hsome]; simp) rfl
            (c.releases_destroy l), ConnObject.adds_destroy hold⟩
    · rename_i hav
      cases h
      exact ⟨.threw _ rfl (fun h => hav h.avInsert) rfl, Adds.refl _⟩
  · cases h

/-! ## Runs -/

/-- A program that calls `Connect` on one `Net`, whatever comes of it. -/
def ConnectRun (sys : ℕ → ConnectSystem) (remote : ℕ → ℕ → UInt8)
    (result : ℕ → Except Thrown Resource) (σ : ℕ → NetState) (n : ℕ) : Prop :=
  ∀ i < n, connect (sys i) (remote i) (σ i) = some (result i, σ (i + 1))

/-- What is in `conns_` stays there, and alive. -/
theorem Holds.step (hs : s.Holds key p) (hp : p.id < s.res.next) {key' : String}
    (h : ConnectStep sys key' s s' r) (ha : Adds s.res s'.res) : s'.Holds key p := by
  obtain ⟨c, hc, hself, hrel⟩ := hs
  refine ⟨c, ?_, hself, by rw [ha.extends_res.releases p hp (by simp), hrel]⟩
  cases h with
  | threw _ _ _ hnet => rw [hnet, hc]
  | refused _ _ _ _ hnet _ => rw [hnet, hc]
  | kept c' _ _ _ hnet _ _ => rw [hnet, List.lookup_append, hc, Option.some_or]

/-- What each call keeps, they keep, wherever they stop. -/
theorem check_induction {P : NetState → Prop} {strerror : ℤ → String}
    {calls : List (String × ℤ × (NetState → NetState))}
    (h : ∀ c ∈ calls, ∀ s, P s → P (c.2.2 s)) (hs : P s) : P (check strerror calls s).2 := by
  induction calls generalizing s with
  | nil => exact hs
  | cons c calls ih =>
    obtain ⟨exp, rc, f⟩ := c
    rw [check]
    by_cases hrc : rc = 0
    · rw [if_pos hrc]
      exact ih (fun c hc => h c (List.mem_cons_of_mem _ hc)) (h _ List.mem_cons_self s hs)
    · rwa [if_neg hrc]

/-- What `Open` leaves is what its calls leave. -/
theorem netOpen_snd (o : OpenSystem) (s : NetState) :
    (netOpen o s).2.net = (check o.strerror (calls o) s).2.net ∧
      (netOpen o s).2.res = (check o.strerror (calls o) s).2.res := by
  unfold netOpen
  generalize check o.strerror (calls o) s = r
  obtain ⟨e | u, s'⟩ := r
  · exact ⟨rfl, rfl⟩
  · dsimp only [register]
    split <;> exact ⟨rfl, rfl⟩

/-- There are no connections, and nothing has been given back. -/
def Fresh (s : NetState) : Prop := s.net.conns = [] ∧ ∀ c r, .released c r ∉ s.res.log

theorem fresh_netOpen (o : OpenSystem) : (netOpen o {}).2.Fresh := by
  have hon : ∀ (l : Resources) kind on, (∀ c r, .released c r ∉ l.log) →
      ∀ c r, .released c r ∉ (l.openOn kind on).2.log := by
    intro l kind on hl c r
    cases on <;> simpa [openOn, acquire, tie] using hl c r
  have hbind : ∀ (l : Resources) ep on, (∀ c r, .released c r ∉ l.log) →
      ∀ c r, .released c r ∉ (l.epBind ep on).log := by
    intro l ep on hl c r
    cases ep <;> cases on <;> simpa [epBind, tie] using hl c r
  have hcheck : (check o.strerror (calls o) {}).2.Fresh := by
    refine check_induction (fun c hc s hs => ?_) ⟨rfl, fun c r hr => by cases hr⟩
    simp only [calls, List.mem_cons, List.not_mem_nil, or_false] at hc
    rcases hc with rfl | rfl | rfl | rfl | rfl | rfl | rfl | rfl | rfl
    iterate 5 exact ⟨hs.1, hon _ _ _ hs.2⟩
    iterate 2 exact ⟨hs.1, hbind _ _ _ hs.2⟩
    all_goals exact hs
  rw [Fresh, (netOpen_snd o {}).1, (netOpen_snd o {}).2]
  exact hcheck

section Run

variable {sys : ℕ → ConnectSystem} {remote : ℕ → ℕ → UInt8} {result : ℕ → Except Thrown Resource}
variable {σ : ℕ → NetState} {n : ℕ}

theorem ConnectRun.bounded (h : ConnectRun sys remote result σ n) (h₀ : (σ 0).res.Bounded) :
    ∀ i ≤ n, (σ i).res.Bounded := by
  intro i
  induction i with
  | zero => exact fun _ => h₀
  | succ i ih => exact fun hi => (connect_cases (h i hi)).2.bounded (ih (by omega))

/-- A key in `conns_` is that of a call that succeeded. -/
theorem ConnectRun.exists_of_lookup (h : ConnectRun sys remote result σ n)
    (h₀ : (σ 0).net.conns = []) : ∀ i ≤ n, ∀ key, (σ i).net.conns.lookup key ≠ none →
      ∃ j < i, (sys j).Succeeds ∧ addr2Str (remote j) = key := by
  intro i
  induction i with
  | zero =>
    intro _ key hkey
    rw [h₀] at hkey
    exact absurd rfl hkey
  | succ i ih =>
    intro hi key hkey
    have hold : (σ i).net.conns.lookup key ≠ none → ∃ j < i + 1, (sys j).Succeeds ∧
        addr2Str (remote j) = key := fun hkey => by
      obtain ⟨j, hj, hcall⟩ := ih (by omega) key hkey
      exact ⟨j, by omega, hcall⟩
    cases (connect_cases (h i hi)).1 with
    | threw _ _ _ hnet => exact hold (by rwa [← hnet])
    | refused _ _ _ _ hnet _ => exact hold (by rwa [← hnet])
    | kept c _ hyes _ hnet _ _ =>
      by_cases hk : (σ i).net.conns.lookup key = none
      · refine ⟨i, by omega, hyes, ?_⟩
        rw [hnet, List.lookup_append, hk, Option.none_or, List.lookup_cons] at hkey
        by_contra hne
        have hbeq : (key == addr2Str (remote i)) = false := beq_false_of_ne (Ne.symm hne)
        rw [hbeq] at hkey
        exact hkey rfl
      · exact hold hk

/-- **What `Connect` returns is owned and alive, exactly if** no two calls that succeed are for one
address. -/
theorem connect_holds_iff {o : OpenSystem} (hopen : netOpen o {} = (.ok (), σ 0))
    (h : ConnectRun sys remote result σ n) :
    (∀ i < n, ∀ p, result i = .ok p → ∀ k, i < k → k ≤ n →
      (σ k).Holds (addr2Str (remote i)) p) ↔
    ∀ i j, i < j → j < n → (sys i).Succeeds → (sys j).Succeeds →
      addr2Str (remote i) ≠ addr2Str (remote j) := by
  obtain ⟨hconns, hlog⟩ := fresh_netOpen o
  rw [hopen] at hconns hlog
  have hbound := h.bounded fun c r hr => absurd hr (hlog c r)
  constructor
  · intro hall i j hij hj hi hj' hkey
    -- the first call has put its `Conn` under the key
    have hthere : (σ j).net.conns.lookup (addr2Str (remote j)) ≠ none := by
      cases (connect_cases (h i (by omega))).1 with
      | threw _ _ hno => exact absurd hi hno
      | refused c hr | kept c hr =>
        obtain ⟨c', hc', -⟩ := hall i (by omega) c.self hr j hij (by omega)
        rw [← hkey, hc']
        simp
    cases (connect_cases (h j hj)).1 with
    | threw _ _ hno => exact hno hj'
    | kept _ _ _ hnone => exact hthere hnone
    | refused c hr _ _ _ hrel =>
      obtain ⟨-, -, -, halive⟩ := hall j hj c.self hr (j + 1) (by omega) hj
      exact hrel halive
  · intro hdistinct i hi p hp k hik hk
    have hstart : (σ (i + 1)).Holds (addr2Str (remote i)) p ∧ p.id < (σ (i + 1)).res.next := by
      cases (connect_cases (h i hi)).1 with
      | threw e he => rw [hp] at he; cases he
      | refused c _ hyes hsome =>
        obtain ⟨j, hj, hyes', hkey⟩ := h.exists_of_lookup hconns i (by omega) _ hsome
        exact absurd hkey (hdistinct j i hj hi hyes' hyes)
      | kept c hc _ hnone hnet hlt hrel =>
        rw [hp] at hc
        obtain rfl := Except.ok.inj hc
        refine ⟨⟨c, ?_, rfl, hrel (hbound i (by omega))⟩, hlt⟩
        rw [hnet, List.lookup_append, hnone, Option.none_or, List.lookup_cons, beq_self_eq_true]
    obtain ⟨d, rfl⟩ := Nat.exists_eq_add_of_le hik
    clear hik
    suffices hd : (σ (i + 1 + d)).Holds (addr2Str (remote i)) p ∧
        p.id < (σ (i + 1 + d)).res.next from hd.1
    induction d with
    | zero => exact hstart
    | succ d ih =>
      obtain ⟨hhold, hlt⟩ := ih (by omega)
      obtain ⟨hstep, ha⟩ := connect_cases (h (i + 1 + d) (by omega))
      exact ⟨hhold.step hlt hstep ha, hlt.trans_le ha.extends_res.next_le⟩

end Run

end NetState

namespace TwoConnections

/-! ## Two connections -/

/-- Every call of `Open` succeeds. -/
def opened : OpenSystem where
  fabric := 0
  domain := 0
  cqOpen := 0
  avOpen := 0
  endpoint := 0
  bindCq := 0
  bindAv := 0
  enable := 0
  getname := 0
  addr := []
  strerror _ := ""

/-- Every call of `Connect` succeeds. -/
def connected : ConnectSystem where
  avInsert := 1
  addr := 0
  recv := Calls.host
  send := Calls.host
  read := Calls.cuda (.ok 7)
  write := Calls.cuda (.ok 7)
  strerror _ := ""

/-- The states of a program that connects to each address. -/
def states (remote : ℕ → ℕ → UInt8) : ℕ → NetState
  | 0 => (NetState.netOpen opened {}).2
  | i + 1 => (((states remote i).connect connected (remote i)).map Prod.snd).getD (states remote i)

/-- What each call returns. -/
def results (remote : ℕ → ℕ → UInt8) (i : ℕ) : Except Thrown Resource :=
  (((states remote i).connect connected (remote i)).map Prod.fst).getD (.error (.runtimeError ""))

/-- Every address has its number in its first byte. -/
def numbered (i j : ℕ) : UInt8 := if j = 0 then .ofNat i else 0

theorem connectRun (remote : ℕ → ℕ → UInt8) : NetState.ConnectRun (fun _ => connected) remote
    (results remote) (states remote) 2 := by
  intro i hi
  obtain rfl | rfl : i = 0 ∨ i = 1 := by omega
  · rfl
  · rfl

/-- Two addresses that differ. -/
theorem connect_holds_iff_numbered :
    (states numbered 2).Holds (addr2Str (numbered 0)) ⟨.conn, 15⟩ ∧
      (states numbered 2).Holds (addr2Str (numbered 1)) ⟨.conn, 26⟩ := by
  have hopen : NetState.netOpen opened {} = (.ok (), states numbered 0) := rfl
  have hall := (NetState.connect_holds_iff hopen (connectRun numbered)).mpr
    fun i j hij hj _ _ hkey => by
      obtain ⟨rfl, rfl⟩ : i = 0 ∧ j = 1 := by omega
      exact absurd (addr2Str_eq_iff.mp hkey 0 (by decide)) (by decide)
  exact ⟨hall 0 (by omega) _ rfl 2 (by omega) le_rfl, hall 1 (by omega) _ rfl 2 (by omega) le_rfl⟩

/-- **One address, twice.** The second `Connect` returns a `Conn` that it has deleted. -/
theorem connect_twice :
    (states (fun _ => numbered 0) 1).connect connected (numbered 0) =
        some (.ok ⟨.conn, 26⟩, states (fun _ => numbered 0) 2) ∧
      releases (states (fun _ => numbered 0) 2).res.log ⟨.conn, 26⟩ = [.delete] ∧
      ¬ (states (fun _ => numbered 0) 2).Holds (addr2Str (numbered 0)) ⟨.conn, 26⟩ := by
  have hdel : releases (states (fun _ => numbered 0) 2).res.log ⟨.conn, 26⟩ = [.delete] := by
    decide +kernel
  refine ⟨rfl, hdel, ?_⟩
  rintro ⟨c, -, -, halive⟩
  rw [hdel] at halive
  cases halive

end TwoConnections

end EfaExamples
