import EfaExamples.Common.Run
import EfaExamples.Efa.Bytes
import EfaExamples.Efa.Resumption
/-!
# Sends on one connection

Every `Send` of a connection copies its bytes into the one `send_buffer_` when
it first runs, and the fabric reads them from there at any time before it
completes the operation. A `Send` that starts while another has not been read
is harmless only if it copies what is there already.
-/

namespace EfaExamples

namespace Sends

/-- A `Send` that was posted, by its context: how long it is, and the bytes
that were at its `data` when it started. -/
structure Row where
  handle : ℕ
  sz : ℕ
  data : List UInt8
  deriving DecidableEq

/-- The fabric, with the `Send`s posted so far. -/
structure State where
  world : Fabric
  rows : List Row

variable (c : Conn) (size : ℕ)

/-- What `send_awaiter` posts for the row. -/
def Row.posted (r : Row) : Posted := ⟨r.handle, .send c.sendBuffer r.sz c.remote⟩

/-- `Send(data, sz)` runs from its beginning to its suspension, or to the
exception of its post. -/
inductive Start (s : State) (data sz : ℕ) : State → Prop
  | posted {f f' : Fabric} (h : ℕ) : sz ≤ size → (∀ r ∈ s.rows, r.handle ≠ h) →
      (ConnOp.send c data sz).enter s.world = .ok f →
      (ConnOp.send c data sz).post h f = (none, f') →
      Start s data sz ⟨f', s.rows ++ [⟨h, sz, bytes s.world.mem data sz⟩]⟩
  | thrown {f f' : Fabric} (h : ℕ) (e : Exn Val) : sz ≤ size →
      (ConnOp.send c data sz).enter s.world = .ok f →
      (ConnOp.send c data sz).post h f = (some e, f') → Start s data sz ⟨f', s.rows⟩

/-- Starts, reads of the fabric and completions, in any order. -/
inductive Step : State → State → Prop
  | start {s s' : State} (data sz : ℕ) : Start c size s data sz s' → Step s s'
  /-- the fabric reads the bytes of a `Send` -/
  | place {s : State} {f : Fabric} (h : ℕ) (msg : List UInt8) :
      s.world.move (.place h msg) = some f → Step s ⟨f, s.rows⟩
  /-- the fabric completes a `Send` -/
  | complete {s : State} {f : Fabric} (cq h len : ℕ) :
      s.world.move (.complete cq h len) = some f → Step s ⟨f, s.rows⟩
  /-- anything else, which leaves the send buffer and the fabric's `Send`s alone -/
  | world {s : State} {f : Fabric} : f.inflight = s.world.inflight →
      f.history.placed = s.world.history.placed →
      (∀ j < size, f.mem (c.sendBuffer + j) = s.world.mem (c.sendBuffer + j)) →
      Step s ⟨f, s.rows⟩

/-- Nothing has been sent. -/
def Begins (s : State) : Prop :=
  s.rows = [] ∧ s.world.inflight = [] ∧ s.world.history.placed = []

/-- The `Send` has been posted, and the fabric has not read its bytes. -/
def State.Unread (s : State) (r : Row) : Prop :=
  r ∈ s.rows ∧ r.posted c ∈ s.world.inflight ∧ ¬ s.world.Placed r.handle

/-- **What was transmitted is what was to be sent**, and so it is for what the
fabric would transmit now. -/
def State.Transmits (s : State) : Prop :=
  (∀ p ∈ s.world.history.placed, ∀ r ∈ s.rows, p.1 = r.posted c → p.2 = r.data) ∧
    ∀ r, s.Unread c r → bytes s.world.mem c.sendBuffer r.sz = r.data

/-- **A `Send` that starts copies over unread bytes only what they are.** -/
def Undisturbed (s s' : State) : Prop :=
  ∀ data sz, Start c size s data sz s' → ∀ r, s.Unread c r → ∀ j < min r.sz sz,
    s.world.mem (data + j) = s.world.mem (c.sendBuffer + j)

/-- The rows are the fabric's `Send`s, each within the buffer. -/
structure Inv (s : State) : Prop where
  nodup : (s.rows.map Row.handle).Nodup
  fits : ∀ r ∈ s.rows, r.sz ≤ size
  inflight : ∀ p ∈ s.world.inflight, ∃ r ∈ s.rows, p = r.posted c
  placed : ∀ p ∈ s.world.history.placed, ∃ r ∈ s.rows, p.1 = r.posted c
  transmits : s.Transmits c

variable {c size} {s s' : State}

theorem Begins.inv (hb : Begins s) : Inv c size s := by
  obtain ⟨hr, hi, hp⟩ := hb
  refine ⟨by simp [hr], by simp [hr], by simp [hi], by simp [hp], by simp [hp], fun r hu => ?_⟩
  have hmem := hu.1
  rw [hr] at hmem
  cases hmem

/-- **What a start does**: it copies its bytes, and is posted or thrown. -/
theorem Start.effect (hs : Start c size s data sz s') :
    s'.world.mem = memcpy c.sendBuffer data sz s.world.mem s.world.mem ∧
      s'.world.history.placed = s.world.history.placed ∧
      (s'.rows = s.rows ∧ s'.world.inflight = s.world.inflight ∨
        ∃ r : Row, r.sz = sz ∧ sz ≤ size ∧ r.data = bytes s.world.mem data sz ∧
          (∀ q ∈ s.rows, q.handle ≠ r.handle) ∧ s'.rows = s.rows ++ [r] ∧
          s'.world.inflight = s.world.inflight ++ [r.posted c]) := by
  have hent : ∀ {f : Fabric}, (ConnOp.send c data sz).enter s.world = .ok f →
      f = { s.world with mem := memcpy c.sendBuffer data sz s.world.mem s.world.mem } := by
    intro f hf
    rw [ConnOp.enter] at hf
    split at hf
    · cases hf
    · split at hf
      · cases hf
      · exact (Except.ok.inj hf).symm
  cases hs with
  | posted h hsz hnew he hpost =>
    obtain rfl := hent he
    obtain ⟨req, hreq, rfl⟩ | ⟨hnone, -⟩ := ConnOp.post_ok hpost
    · obtain rfl := Option.some.inj hreq
      exact ⟨rfl, rfl, Or.inr ⟨_, rfl, hsz, rfl, hnew, rfl, rfl⟩⟩
    · cases hnone
  | thrown h e _ he hpost =>
    obtain rfl := hent he
    obtain rfl := ConnOp.post_error hpost
    exact ⟨rfl, rfl, Or.inl ⟨rfl, rfl⟩⟩

theorem Row.posted_inj {q r : Row} (h : q.posted c = r.posted c) : q.handle = r.handle :=
  congrArg Posted.ctx h

/-- What has not been read after a step that copies and posts nothing had not
been before. -/
theorem State.Unread.of_subset {f : Fabric} {r : Row} (hu : State.Unread c ⟨f, s.rows⟩ r)
    (hin : ∀ p ∈ f.inflight, p ∈ s.world.inflight)
    (hpl : ∀ p ∈ s.world.history.placed, p ∈ f.history.placed) : s.Unread c r := by
  refine ⟨hu.1, hin _ hu.2.1, ?_⟩
  rintro ⟨p, hp, hctx⟩
  exact hu.2.2 ⟨p, hpl p hp, hctx⟩

namespace Inv

/-- The row of a context. -/
theorem eq_of_handle (hi : Inv c size s) {q r : Row} (hq : q ∈ s.rows) (hr : r ∈ s.rows)
    (he : q.handle = r.handle) : q = r :=
  List.inj_on_of_nodup_map hi.nodup hq hr he

/-- A `Send` starts. -/
theorem start (hi : Inv c size s) (hs : Start c size s data sz s')
    (hu : ∀ r, s.Unread c r → ∀ j < min r.sz sz,
      s.world.mem (data + j) = s.world.mem (c.sendBuffer + j)) : Inv c size s' := by
  obtain ⟨hmem, hpl, hcase⟩ := hs.effect
  have hold : ∀ r, s.Unread c r → bytes s'.world.mem c.sendBuffer r.sz = r.data := by
    intro r hr
    rw [hmem, bytes_memcpy_eq_iff.mpr (hu r hr)]
    exact hi.transmits.2 r hr
  have hread : ∀ r : Row, ¬ s'.world.Placed r.handle → ¬ s.world.Placed r.handle := by
    intro r hn hp
    rw [Fabric.Placed, ← hpl] at hp
    exact hn hp
  rcases hcase with ⟨hrows, hin⟩ | ⟨new, rfl, hsz, hdata, hnew, hrows, hin⟩
  · refine ⟨hrows ▸ hi.nodup, hrows ▸ hi.fits, hrows ▸ hin ▸ hi.inflight, hrows ▸ hpl ▸ hi.placed,
      hrows ▸ hpl ▸ hi.transmits.1, fun r hr => hold r ⟨hrows ▸ hr.1, hin ▸ hr.2.1, hread r hr.2.2⟩⟩
  · have hmemr : ∀ {r}, r ∈ s'.rows → r ∈ s.rows ∨ r = new := by simp [hrows]
    refine ⟨?_, fun r hr => ?_, fun p hp => ?_, fun p hp => ?_, fun p hp r hr he => ?_,
      fun r hr => ?_⟩
    · rw [hrows, List.map_append, List.nodup_append]
      refine ⟨hi.nodup, by simp, fun h hh h' hh' => ?_⟩
      obtain ⟨q, hq, rfl⟩ := List.mem_map.mp hh
      obtain rfl : h' = new.handle := by simpa using hh'
      exact hnew q hq
    · rcases hmemr hr with hr | rfl
      · exact hi.fits r hr
      · exact hsz
    · rw [hin] at hp
      rcases List.mem_append.mp hp with hp | hp
      · obtain ⟨r, hr, hpr⟩ := hi.inflight p hp
        exact ⟨r, hrows ▸ List.mem_append_left _ hr, hpr⟩
      · exact ⟨new, by simp [hrows], by simpa using hp⟩
    · rw [hpl] at hp
      obtain ⟨r, hr, hpr⟩ := hi.placed p hp
      exact ⟨r, hrows ▸ List.mem_append_left _ hr, hpr⟩
    · rw [hpl] at hp
      rcases hmemr hr with hr | rfl
      · exact hi.transmits.1 p hp r hr he
      · -- what was read was not the new one
        obtain ⟨q, hq, hpq⟩ := hi.placed p hp
        exact absurd (Row.posted_inj (hpq.symm.trans he)) (hnew q hq)
    · rcases hmemr hr.1 with hmr | rfl
      · have hin' := hr.2.1
        rw [hin] at hin'
        rcases List.mem_append.mp hin' with hin' | hin'
        · exact hold r ⟨hmr, hin', hread r hr.2.2⟩
        · exact absurd (Row.posted_inj (List.mem_singleton.mp hin')) (hnew r hmr)
      · rw [hmem, bytes_memcpy le_rfl, hdata]

/-- The fabric reads the bytes of a `Send`. -/
theorem place (hi : Inv c size s) {f : Fabric} {h : ℕ} {msg : List UInt8}
    (hm : s.world.move (.place h msg) = some f) : Inv c size ⟨f, s.rows⟩ := by
  simp only [Fabric.move] at hm
  split at hm
  · rename_i p hfind
    split at hm
    · cases hm
    · rename_i hnot
      have hp := List.mem_of_find?_eq_some hfind
      have hctx : p.ctx = h := by simpa using List.find?_some hfind
      subst hctx
      obtain ⟨r, hr, rfl⟩ := hi.inflight p hp
      obtain rfl := Option.some.inj hm
      have hur : s.Unread c r := ⟨hr, hp, hnot⟩
      have hplaced : ∀ q ∈ s.world.history.placed ++
          [(r.posted c, bytes s.world.mem c.sendBuffer r.sz)], q ∈ s.world.history.placed ∨
          q = (r.posted c, bytes s.world.mem c.sendBuffer r.sz) := by simp
      refine ⟨hi.nodup, hi.fits, hi.inflight, fun q hq => ?_, fun q hq r' hr' he => ?_,
        fun r' hu => ?_⟩
      · rcases hplaced q hq with hq | rfl
        · exact hi.placed q hq
        · exact ⟨r, hr, rfl⟩
      · rcases hplaced q hq with hq | rfl
        · exact hi.transmits.1 q hq r' hr' he
        · obtain rfl := hi.eq_of_handle hr hr' (Row.posted_inj he)
          exact hi.transmits.2 r hur
      · exact hi.transmits.2 r' (hu.of_subset (fun _ => id) fun q hq => List.mem_append_left _ hq)
  · cases hm

/-- The fabric completes a `Send`. -/
theorem complete (hi : Inv c size s) {f : Fabric} {cq h len : ℕ}
    (hm : s.world.move (.complete cq h len) = some f) : Inv c size ⟨f, s.rows⟩ := by
  simp only [Fabric.move] at hm
  split at hm
  · rename_i p hfind
    split at hm
    · obtain rfl := Option.some.inj hm
      have hsub : ∀ q ∈ s.world.inflight.erase p, q ∈ s.world.inflight :=
        fun q => List.mem_of_mem_erase
      exact ⟨hi.nodup, hi.fits, fun q hq => hi.inflight q (hsub q hq), hi.placed, hi.transmits.1,
        fun r hu => hi.transmits.2 r (hu.of_subset hsub fun _ => id)⟩
    · cases hm
  · cases hm

/-- **A step keeps what is transmitted right**, if a start disturbs nothing. -/
theorem step (hi : Inv c size s) (hs : Step c size s s') (hu : Undisturbed c size s s') :
    Inv c size s' := by
  cases hs with
  | start data sz hst => exact hi.start hst (hu data sz hst)
  | place h msg hm => exact hi.place hm
  | complete cq h len hm => exact hi.complete hm
  | world hin hpl hmem =>
    refine ⟨hi.nodup, hi.fits, hin ▸ hi.inflight, hpl ▸ hi.placed, hpl ▸ hi.transmits.1,
      fun r hr => ?_⟩
    have hold : s.Unread c r := hr.of_subset (fun _ hp => hin ▸ hp) fun _ hp => hpl ▸ hp
    rw [← hi.transmits.2 r hold]
    exact bytes_congr fun j hj => hmem j (hj.trans_le (hi.fits r hr.1))

/-- A start that disturbs an unread `Send` makes it transmit something else. -/
theorem undisturbed (hi : Inv c size s) (ht : s'.Transmits c) : Undisturbed c size s s' := by
  intro data sz hst r hr
  obtain ⟨hmem, hpl, hcase⟩ := hst.effect
  have hr' : s'.Unread c r := by
    have hnot : ¬ s'.world.Placed r.handle := by
      rw [Fabric.Placed, hpl]
      exact hr.2.2
    rcases hcase with ⟨hrows, hin⟩ | ⟨new, -, -, -, -, hrows, hin⟩
    · exact ⟨hrows ▸ hr.1, hin ▸ hr.2.1, hnot⟩
    · exact ⟨hrows ▸ List.mem_append_left _ hr.1, hin ▸ List.mem_append_left _ hr.2.1, hnot⟩
  have heq := (ht.2 r hr').trans (hi.transmits.2 r hr).symm
  rw [hmem] at heq
  exact bytes_memcpy_eq_iff.mp heq

end Inv

/-- **Concurrent `Send`s.** Along a run every `Send` transmits the bytes that
were at its `data` exactly if no start copies, over the bytes of a `Send` that
has not been read, anything but what is there. -/
theorem transmits_iff {σ : ℕ → State} {n : ℕ} (hrun : IsRun Begins (Step c size) σ n) :
    (∀ t ≤ n, (σ t).Transmits c) ↔ ∀ t < n, Undisturbed c size (σ t) (σ (t + 1)) :=
  hrun.forall_iff_forall_guard (Inv c size) (State.Transmits c) (Undisturbed c size)
    (fun _ => Begins.inv) (fun _ _ hi => hi.step) (fun _ hi => hi.transmits)
    (fun _ _ hi _ ht => hi.undisturbed ht)

/-- An idle fabric, with two messages of two bytes in memory. -/
def written : Fabric :=
  { quiet with mem := fun a => if a = 100 ∨ a = 101 then 1 else if a = 200 ∨ a = 201 then 2 else 0 }

/-- `Send(data, 2)` as coroutine `h`, which posts. -/
def send (h data : ℕ) (s : State) : State :=
  match (ConnOp.send conn data 2).enter s.world with
  | .ok f => ⟨((ConnOp.send conn data 2).post h f).2,
      s.rows ++ [⟨h, 2, bytes s.world.mem data 2⟩]⟩
  | .error _ => s

/-- The fabric reads the bytes of the `Send`. -/
def read (h : ℕ) (s : State) : State := ⟨((s.world.move (.place h [])).getD s.world), s.rows⟩

/-- The second `Send` starts when the first has been read. -/
def inTurn : ℕ → State
  | 0 => ⟨written, []⟩
  | 1 => send 1 100 ⟨written, []⟩
  | 2 => read 1 (send 1 100 ⟨written, []⟩)
  | _ => send 2 200 (read 1 (send 1 100 ⟨written, []⟩))

/-- The second `Send` starts before that. -/
def together : ℕ → State
  | 0 => ⟨written, []⟩
  | 1 => send 1 100 ⟨written, []⟩
  | 2 => send 2 200 (send 1 100 ⟨written, []⟩)
  | _ => read 1 (send 2 200 (send 1 100 ⟨written, []⟩))

theorem start_send {h data : ℕ} {s : State} (hdata : data ≠ 0) (hrc : s.world.rc = 0)
    (hnew : ∀ r ∈ s.rows, r.handle ≠ h) : Start conn 8129 s data 2 (send h data s) := by
  have hent : (ConnOp.send conn data 2).enter s.world =
      .ok { s.world with mem := memcpy conn.sendBuffer data 2 s.world.mem s.world.mem } := by
    simp [ConnOp.enter, hdata]
  simp only [send, hent]
  refine Start.posted h (by decide) hnew hent ?_
  simp [ConnOp.post, ConnOp.request, Fabric.submit, hrc]

theorem inTurn_isRun : IsRun Begins (Step conn 8129) inTurn 3 := by
  refine ⟨⟨rfl, rfl, rfl⟩, fun t ht => ?_⟩
  obtain rfl | rfl | rfl : t = 0 ∨ t = 1 ∨ t = 2 := by omega
  · exact Step.start 100 2 (start_send (by decide) rfl (by decide))
  · exact Step.place 1 [] rfl
  · exact Step.start 200 2 (start_send (by decide) rfl (by decide))

theorem together_isRun : IsRun Begins (Step conn 8129) together 3 := by
  refine ⟨⟨rfl, rfl, rfl⟩, fun t ht => ?_⟩
  obtain rfl | rfl | rfl : t = 0 ∨ t = 1 ∨ t = 2 := by omega
  · exact Step.start 100 2 (start_send (by decide) rfl (by decide))
  · exact Step.start 200 2 (start_send (by decide) rfl (by decide))
  · exact Step.place 1 [] rfl

/-- In turn, both transmit what they were given. -/
theorem transmits_iff_inTurn : (inTurn 3).Transmits conn := by
  refine (transmits_iff inTurn_isRun).mpr (fun t ht => ?_) 3 le_rfl
  intro data sz hst r hr
  obtain ⟨hmem, -, hnot⟩ := hr
  obtain rfl | rfl | rfl : t = 0 ∨ t = 1 ∨ t = 2 := by omega
  · cases hmem
  · -- the second step is no start: it is a read
    exact absurd hst.effect.2.1 (by decide)
  · obtain rfl : r = ⟨1, 2, [1, 1]⟩ := List.mem_singleton.mp hmem
    exact absurd (by decide) hnot

/-- Together, the first transmits what the second was given. -/
theorem together_overwrites : IsRun Begins (Step conn 8129) together 3 ∧
    ¬ (together 2).Transmits conn ∧ ¬ (together 3).Transmits conn ∧
    (⟨1, 2, [1, 1]⟩ : Row) ∈ (together 3).rows ∧
    (together 3).world.history.placed = [((⟨1, 2, [1, 1]⟩ : Row).posted conn, [2, 2])] := by
  have hplaced : (together 3).world.history.placed =
      [((⟨1, 2, [1, 1]⟩ : Row).posted conn, [2, 2])] := by decide
  refine ⟨together_isRun, fun ht => ?_, fun ht => ?_, by decide, hplaced⟩
  · have hr : (together 2).Unread conn ⟨1, 2, [1, 1]⟩ := ⟨by decide, by decide, by decide⟩
    exact absurd (ht.2 _ hr) (by decide)
  · -- the fabric has read the second's bytes for the first
    have heq := ht.1 _ (hplaced ▸ List.mem_singleton_self _) ⟨1, 2, [1, 1]⟩ (by decide) rfl
    exact absurd heq (by decide)

end Sends

end EfaExamples
