import EfaExamples.Coro.Assertions
import EfaExamples.Efa.Bytes
import EfaExamples.Efa.Traced
/-!
# What a message says when it arrives

Every process sends one text, from its send buffer, and receives into its
receive buffer. If every text is what the process it goes to expects, then what
a receive returns is the buffer and the length of the text that is expected, and
the text is there (`Talks.bytes_eq`), in every interleaving of the processes.
-/

namespace EfaExamples

open Loop

variable {Loc G : Type} {code : Loc → Op Loc G ConnOp Val}
variable {s s' : Loop Loc G ConnOp Fabric Val} {l : Label ℕ Packet} {f f' : Fabric}

/-! ## The memory of a process -/

/-- A copy onto itself. -/
theorem memcpy_self (dst sz : ℕ) (mem : ℕ → UInt8) : memcpy dst dst sz mem mem = mem := by
  funext a
  rw [memcpy]
  split
  · rw [Nat.add_sub_cancel' (by omega)]
  · rfl

/-- What is read of a list that has been copied. -/
theorem bytes_getD (l : List UInt8) : bytes (fun j => l.getD j 0) 0 l.length = l := by
  refine List.ext_getElem (by simp [bytes]) fun j hj hj' => ?_
  simp [bytes, hj']

theorem bytes_memcpy_getD (dst : ℕ) (l : List UInt8) (mem : ℕ → UInt8) :
    bytes (memcpy dst 0 l.length (fun j => l.getD j 0) mem) dst l.length = l := by
  rw [bytes_memcpy le_rfl, bytes_getD]

/-- **What a step does to the memory**, and what it copies. -/
inductive MemStep (s : Loop Loc G ConnOp Fabric Val) (l : Label ℕ Packet) (f : Fabric) : Prop
  | same : f.mem = s.world.mem → f.history.placed = s.world.history.placed → MemStep s l f
  /-- an operation begins -/
  | began (h : ℕ) (c : Coro Loc ConnOp Val) (a : ConnOp) (f' : Fabric) : s.coros h = some c →
      c.point = .initialIo a → a.enter s.world = .ok f' → f.mem = f'.mem →
      f.history.placed = s.world.history.placed → MemStep s l f
  /-- bytes are copied out -/
  | copied (p : Posted) : p ∈ s.world.inflight → (∀ base sz, p.req ≠ .recv base sz) →
      f.mem = s.world.mem →
      f.history.placed = s.world.history.placed ++ [(p, p.req.copied s.world.mem [])] →
      MemStep s l f
  /-- a message comes in -/
  | received (p : Posted) (base sz : ℕ) (msg : List UInt8) : p ∈ s.world.inflight →
      p.req = .recv base sz → l = .take (.message msg) → msg.length ≤ sz →
      f.mem = memcpy base 0 msg.length (fun j => msg.getD j 0) s.world.mem →
      f.history.placed = s.world.history.placed ++ [(p, msg)] → MemStep s l f

theorem Loop.memStep_of_resume (hs : s.resume efaWorld = some s') : MemStep s l s'.world := by
  obtain ⟨h, c, q, r, -, -, hc, -, hfront⟩ := Loop.frontStep hs
  cases hfront with
  | idle _ _ hw _ | refused _ _ _ _ hw _ => exact .same (by rw [hw]) (by rw [hw])
  | failed a e x hp henter hpost _ =>
    have hx : s'.world = x := ConnOp.post_error hpost
    obtain ⟨mem, hmem⟩ := ConnOp.enter_ok henter
    exact .began h c a x hc hp henter (by rw [hx]) (by rw [hx, hmem])
  | posted a x hp henter hpost _ =>
    obtain ⟨mem, hmem⟩ := ConnOp.enter_ok henter
    rcases ConnOp.post_ok hpost with ⟨req, -, hx⟩ | ⟨-, hx⟩
    · exact .began h c a x hc hp henter (by rw [hx]) (by rw [hx, hmem])
    · exact .began h c a x hc hp henter (by rw [hx]; rfl) (by rw [hx, hmem]; rfl)
  | ended a _ hw _ =>
    have hw : s'.world = (a.resume h s.world).2 := hw
    rw [hw, (ConnOp.resume_snd a h _).1]
    exact .same rfl rfl

/-- A move that copies nothing. -/
theorem Fabric.mem_of_own {m : Fabric.Move} (ho : f.Own m) (hm : f.move m = some f') :
    f'.mem = f.mem := by
  cases m with
  | place ctx msg => exact ho.elim
  | complete cq ctx len =>
    rw [Fabric.move] at hm
    split at hm
    · split at hm
      · rw [← Option.some.inj hm]
      · cases hm
    · cases hm
  | notify cq e =>
    rw [Fabric.move] at hm
    split at hm
    · rw [← Option.some.inj hm]
    · cases hm
  | fail cq err | setRc rc => rw [← Option.some.inj hm]

/-- A receive copies what comes. -/
theorem Fabric.mem_copy_recv {p : Posted} {base sz : ℕ} {msg : List UInt8}
    (hreq : p.req = .recv base sz) : (f.copy p msg).mem =
      memcpy base 0 (min sz msg.length) (fun j => msg.getD j 0) f.mem := by
  unfold Fabric.copy
  rw [hreq]

theorem ProcessStep.memStep (hs : ProcessStep code s l s') : MemStep s l s'.world := by
  cases hs with
  | own hs =>
    cases hs with
    | exec now hs => exact .same (by rw [(exec_appends hs).world]) (by rw [(exec_appends hs).world])
    | resume hstack hs =>
      have hs : s.resume efaWorld = some s' := hs
      exact Loop.memStep_of_resume hs
    | round hr =>
      obtain ⟨events, due, -, hpoll, -⟩ := hr.world
      have tk := Fabric.taken_of_select hpoll
      exact .same (by rw [tk.eq]) tk.placed
    | env henv =>
      obtain ⟨m, hown, hm⟩ := henv
      exact .same (Fabric.mem_of_own hown hm) (hown.settled hm).placed
  | @place ctx p f hfind hne hm =>
    rw [Fabric.copy_of_place hfind hm]
    refine .copied p (List.mem_of_find?_eq_some hfind) hne ?_ (Fabric.placed_copy p [] s.world).1
    unfold Fabric.copy
    split
    · exact absurd ‹_› (hne _ _)
    · rfl
    · rfl
  | @receive ctx base sz p msg f hfind hreq hlen hm =>
    rw [Fabric.copy_of_place hfind hm]
    refine .received p base sz msg (List.mem_of_find?_eq_some hfind) hreq rfl hlen ?_ ?_
    · rw [Fabric.mem_copy_recv hreq, Nat.min_eq_right hlen]
    · rw [(Fabric.placed_copy p msg s.world).1, hreq, Request.copied, List.take_of_length_le hlen]
  | notice hrw hm =>
    rw [Fabric.move] at hm
    split at hm
    · rw [← Option.some.inj hm]
      exact .same rfl rfl
    · cases hm

/-! ## One process -/

/-- A receive has got its bytes. -/
def Fabric.Received (f : Fabric) : Prop := ∃ p ∈ f.history.placed, ∃ base sz, p.1.req = .recv base sz

/-- **What a process says and expects**: its connection, how many bytes it receives at
most, the text it sends, and the one that is sent to it. -/
structure Talk where
  conn : Conn
  room : ℕ
  text : List UInt8
  expected : List UInt8

namespace Talk

variable (k : Talk)

/-- The operations it calls. -/
def Calls : ConnOp → Prop
  | .send conn data sz => conn = k.conn ∧ data = k.conn.sendBuffer ∧ sz = k.text.length
  | .recv conn sz => conn = k.conn ∧ sz = k.room
  | .write .. => False
  | .read .. => True

/-- A buffer that is returned holds what is expected. -/
def Returns (received : Prop) (v : Val) : Prop :=
  ∀ data n, v = .buf data n → received ∧ data = k.conn.recvBuffer ∧ n = k.expected.length

/-- What its program is asserted to do, with the locations it comes to before it has
received something and after. -/
def asserts (L : Prop → Loc → Prop) (hL : ∀ u u' l, u ≤ u' → L u l → L u' l) :
    Assertions Prop Loc ConnOp Val where
  loc := L
  op := k.Calls
  val := k.Returns
  loc_mono := hL
  val_mono _ _ _ hu hv data n hd := (hv data n hd).imp_left hu

/-- What is sent and what is received do not overlap. -/
def Apart : Prop := k.conn.sendBuffer + k.text.length ≤ k.conn.recvBuffer ∨
  k.conn.recvBuffer + k.expected.length ≤ k.conn.sendBuffer

variable {k}

/-- Its sends copy the buffer onto itself. -/
theorem Calls.mem_eq {a : ConnOp} (hk : k.Calls a) (he : a.enter f = .ok f') : f'.mem = f.mem := by
  cases a with
  | send conn data sz =>
    obtain ⟨rfl, rfl, -⟩ := hk
    rw [ConnOp.enter] at he
    split at he
    · cases he
    · split at he
      · cases he
      · rw [← Except.ok.inj he]
        exact memcpy_self _ _ _
  | recv conn sz | read conn immData =>
    rw [ConnOp.enter] at he
    split at he
    · cases he
    · rw [← Except.ok.inj he]
  | write conn data sz addr key immData => exact hk.elim

end Talk

/-- **A process that talks.** -/
structure Talks (k : Talk) (P : Assertions Prop Loc ConnOp Val) (s : Loop Loc G ConnOp Fabric Val) :
    Prop where
  hold : P.Hold s.world.Received s
  traced : Traced s
  posted : ∀ p ∈ s.world.history.posted,
    p.req = .send k.conn.sendBuffer k.text.length k.conn.remote ∨
      p.req = .recv k.conn.recvBuffer k.room
  text : bytes s.world.mem k.conn.sendBuffer k.text.length = k.text
  copied : ∀ p ∈ s.world.history.placed,
    p.1.req = .send k.conn.sendBuffer k.text.length k.conn.remote ∧ p.2 = k.text ∨
      p.1.req = .recv k.conn.recvBuffer k.room ∧ p.2 = k.expected
  there : s.world.Received →
    bytes s.world.mem k.conn.recvBuffer k.expected.length = k.expected

namespace Talks

variable {k : Talk} {L : Prop → Loc → Prop} {hL : ∀ u u' l, u ≤ u' → L u l → L u' l}

/-- What its operations return. -/
theorem returns (tk : Talks k (k.asserts L hL) s) {h : ℕ} {c : Coro Loc ConnOp Val} {a : ConnOp}
    (hc : s.coros h = some c) (hp : c.point = .io a) {v : Val}
    (hv : (a.resume h s.world).1 = .ok (some v)) : k.Returns s.world.Received v := by
  rintro data n rfl
  have hcall : k.Calls a := by
    have := tk.hold.point h c hc
    rwa [hp] at this
  have hval : a.value (s.world.entry h) = .ok (some (.buf data n)) := hv
  cases a with
  | recv conn sz =>
    obtain ⟨rfl, rfl⟩ := hcall
    obtain ⟨bs, hbs, hbuf⟩ := tk.traced.placed_of_value hc hp rfl hv
    obtain ⟨rfl, rfl⟩ := Val.buf.inj (hbuf _ _ rfl)
    rcases tk.copied _ hbs with ⟨hreq, -⟩ | ⟨-, hbytes⟩
    · cases hreq
    · exact ⟨⟨_, hbs, _, _, rfl⟩, rfl, congrArg _ hbytes⟩
  | send conn d sz | read conn immData =>
    rw [ConnOp.value] at hval
    split at hval <;> cases hval
  | write => exact hcall.elim

/-- What it posts. -/
theorem posted_step (tk : Talks k (k.asserts L hL) s) (hs : Step efaWorld code s s') :
    ∀ p ∈ s'.world.history.posted,
      p.req = .send k.conn.sendBuffer k.text.length k.conn.remote ∨
        p.req = .recv k.conn.recvBuffer k.room := by
  intro p hp
  rcases hs.posted_cases with hsame | ⟨h, a, req, hpost⟩
  · exact tk.posted p (hsame ▸ hp)
  · rw [hpost.posted] at hp
    rcases List.mem_append.mp hp with hp | hp
    · exact tk.posted p hp
    · obtain rfl := List.mem_singleton.mp hp
      obtain ⟨c, hc, hpoint⟩ := hpost.point
      have hreq := hpost.request
      have hcall : k.Calls a := by
        have := tk.hold.point h c hc
        rwa [hpoint] at this
      cases a with
      | send conn data sz =>
        obtain ⟨rfl, rfl, rfl⟩ := hcall
        exact Or.inl (Option.some.inj hreq).symm
      | recv conn sz =>
        obtain ⟨rfl, rfl⟩ := hcall
        exact Or.inr (Option.some.inj hreq).symm
      | read conn immData => cases hreq
      | write => exact hcall.elim

/-- **A step keeps it**, if the message that comes is the one expected. -/
theorem step (tk : Talks k (k.asserts L hL) s) (hmet : (k.asserts L hL).Met code) (hk : k.Apart)
    (hs : ProcessStep code s l s') (hmsg : ∀ m, l = .take (.message m) → m = k.expected) :
    Talks k (k.asserts L hL) s' := by
  have hhold : (k.asserts L hL).Hold s'.world.Received s' := by
    refine (tk.hold.step hmet hs.step fun h q c a _ _ hc hp v hv => tk.returns hc hp hv).mono ?_
    rintro ⟨p, hp, hrecv⟩
    exact ⟨p, hs.step.grows.placed.subset hp, hrecv⟩
  have htraced := tk.traced.step hs
  have hposted := tk.posted_step hs.step
  -- where neither memory nor record changes
  have hstay : s'.world.mem = s.world.mem → s'.world.history.placed = s.world.history.placed →
      Talks k (k.asserts L hL) s' := by
    intro hm hp
    refine ⟨hhold, htraced, hposted, hm ▸ tk.text, hp ▸ tk.copied, ?_⟩
    rintro ⟨p, hp', hrecv⟩
    rw [hm]
    exact tk.there ⟨p, hp ▸ hp', hrecv⟩
  cases hs.memStep with
  | same hm hp => exact hstay hm hp
  | began h c a f' hc hpoint henter hm hp =>
    have hcall : k.Calls a := by
      have := tk.hold.point h c hc
      rwa [hpoint] at this
    exact hstay (hm.trans (hcall.mem_eq henter)) hp
  | copied p hp hne hm hpl =>
    have hreq := (tk.posted p (tk.traced.record.inflight p hp)).resolve_right (hne _ _)
    refine ⟨hhold, htraced, hposted, hm ▸ tk.text, fun q hq => ?_, ?_⟩
    · rw [hpl] at hq
      rcases List.mem_append.mp hq with hq | hq
      · exact tk.copied q hq
      · rw [List.mem_singleton.mp hq, hreq]
        exact Or.inl ⟨rfl, tk.text⟩
    · rintro ⟨q, hq, base, sz, hrecv⟩
      rw [hm]
      rw [hpl] at hq
      rcases List.mem_append.mp hq with hq | hq
      · exact tk.there ⟨q, hq, base, sz, hrecv⟩
      · rw [List.mem_singleton.mp hq] at hrecv
        exact absurd hrecv (hne _ _)
  | received p base sz msg hp hreq hl hlen hm hpl =>
    obtain rfl := hmsg msg hl
    have hrecv : p.req = .recv k.conn.recvBuffer k.room := by
      refine (tk.posted p (tk.traced.record.inflight p hp)).resolve_left fun hsend => ?_
      rw [hreq] at hsend
      cases hsend
    obtain ⟨rfl, rfl⟩ := Request.recv.inj (hreq.symm.trans hrecv)
    refine ⟨hhold, htraced, hposted, ?_, fun q hq => ?_, fun _ => ?_⟩
    · rw [hm, bytes_memcpy_of_disjoint hk]
      exact tk.text
    · rw [hpl] at hq
      rcases List.mem_append.mp hq with hq | hq
      · exact tk.copied q hq
      · rw [List.mem_singleton.mp hq]
        exact Or.inr ⟨hrecv, rfl⟩
    · rw [hm]
      exact bytes_memcpy_getD _ k.expected _

/-- **What is returned is there.** -/
theorem bytes_eq (tk : Talks k (k.asserts L hL) s) {data n : ℕ}
    (hr : k.Returns s.world.Received (.buf data n)) : bytes s.world.mem data n = k.expected := by
  obtain ⟨hrecv, rfl, rfl⟩ := hr data n rfl
  exact tk.there hrecv

/-- **Before the first step.** -/
theorem boot {isVoid : Bool} {l : Loc} {g : G} (hl : L False l) (hf : f.Idle) (hh : f.history = {})
    (he : ∀ h, f.entry h = {}) (ht : bytes f.mem k.conn.sendBuffer k.text.length = k.text) :
    Talks k (k.asserts L hL) (Loop.boot isVoid l g f : Loop Loc G ConnOp Fabric Val) := by
  have hw : (Loop.boot isVoid l g f : Loop Loc G ConnOp Fabric Val).world = f :=
    Loop.boot_world _ _ _ _
  have hnone : ∀ p, p ∉ f.history.placed := by
    intro p hp
    rw [hh] at hp
    cases hp
  refine ⟨Assertions.Hold.boot (hL _ _ l (fun h => h.elim) hl), .boot hf hh he, fun p hp => ?_, ?_,
    fun p hp => ?_, ?_⟩
  · rw [hw, hh] at hp
    cases hp
  · rw [hw]
    exact ht
  · rw [hw] at hp
    exact absurd hp (hnone p)
  · rintro ⟨p, hp, -⟩
    rw [hw] at hp
    exact absurd hp (hnone p)

end Talks

/-! ## All of them -/

variable {ι : Type} [Fintype ι] [DecidableEq ι] {Locs Mem : ι → Type}

/-- A process as `Run` starts it, with its text in its send buffer. -/
def Talk.Begins (k : Talk) (l : Loc) (s : Loop Loc G ConnOp Fabric Val) : Prop :=
  ∃ f isVoid g, f.Idle ∧ f.history = {} ∧ f.completions = [] ∧ (∀ h, f.entry h = {}) ∧
    bytes f.mem k.conn.sendBuffer k.text.length = k.text ∧ s = Loop.boot isVoid l g f

/-- **In every run each of them is told what it expects.** -/
theorem talks_of_run {code : ∀ i, Locs i → Op (Locs i) (Mem i) ConnOp Val} {k : ι → Talk}
    {address : ι → ℕ} {L : ∀ i, Prop → Locs i → Prop} {hL : ∀ i u u' l, u ≤ u' → L i u l → L i u' l}
    {start : ∀ i, Locs i}
    {σ : ℕ → Network (fun i => Loop (Locs i) (Mem i) ConnOp Fabric Val) ℕ Packet} {n : ℕ}
    (hmet : ∀ i, ((k i).asserts (L i) (hL i)).Met (code i)) (hl : ∀ i, L i False (start i))
    (hk : ∀ i, (k i).Apart)
    (hroute : ∀ i j, (k i).conn.remote = address j → (k i).text = (k j).expected)
    (hrun : IsRun (fun x => (∀ i, (k i).Begins (start i) (x.party i)) ∧ x.wire = 0)
      (Network.Step address fun i => ProcessStep (code i)) σ n) :
    ∀ t ≤ n, ∀ i, Talks (k i) ((k i).asserts (L i) (hL i)) ((σ t).party i) := by
  refine hrun.rely (processAccounts code) ?_ _
    (fun dest p => ∀ m j, p = .message m → dest = address j → m = (k j).expected) ?_ ?_ ?_
  · rintro x ⟨hx, hwire⟩
    refine conserved_of_empty (fun i => ?_) (fun i => ?_) hwire
    · obtain ⟨f, isVoid, g, -, hh, -, -, -, heq⟩ := hx i
      rw [heq, Loop.boot_world, hh]
    · obtain ⟨f, isVoid, g, -, -, hq, -, -, heq⟩ := hx i
      rw [heq, Loop.boot_world, hq]
  · rintro x ⟨hx, -⟩ i
    obtain ⟨f, isVoid, g, hf, hh, -, he, ht, heq⟩ := hx i
    rw [heq]
    exact .boot (hl i) hf hh he ht
  · rintro i s tk q hq m j hm hdest
    obtain ⟨p, hp, hpacket⟩ := List.mem_filterMap.mp (Multiset.mem_coe.mp hq)
    obtain ⟨⟨ctx, req⟩, data⟩ := p
    rcases tk.copied _ hp with ⟨hreq, hdata⟩ | ⟨hreq, -⟩
    · cases hreq
      cases hpacket
      cases hm
      exact hdata.trans (hroute i j hdest)
    · cases hreq
      cases hpacket
  · rintro i s l s' tk hs hgood
    exact tk.step (hmet i) (hk i) hs fun m hl => hgood _ hl m i rfl rfl

end EfaExamples
