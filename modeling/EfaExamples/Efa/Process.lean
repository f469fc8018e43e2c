import EfaExamples.Coro.Script
import EfaExamples.Efa.Model.Process
import EfaExamples.Efa.Step
/-!
# What a process sends and what it gets

A process among others takes no step that the loop on its own could not take
(`ProcessStep.step`), so what holds of every behaviour of the fabric holds of
each process of a system. What it has sent and what it has got can be read off
its history and its queues (`processAccounts`), and with the conservation of
packets this is all that has to be known of the other processes.
-/

namespace EfaExamples

open Loop

variable {Loc G : Type} {code : Loc → Op Loc G ConnOp Val}
variable {s s' : Loop Loc G ConnOp Fabric Val} {l : Label ℕ Packet}

/-- What a process does by itself, it can do anywhere. -/
theorem Loop.Step.of_own (hs : Loop.Step ownWorld code s s') : Loop.Step efaWorld code s s' := by
  cases hs with
  | exec now hs => exact .exec now hs
  | resume hstack hs => exact .resume hstack hs
  | round hr =>
    obtain ⟨hhead, hstop, hpoll, hcall⟩ := hr
    exact .round ⟨hhead, hstop, hpoll, hcall⟩
  | env henv =>
    obtain ⟨m, -, hm⟩ := henv
    exact .env ⟨m, hm⟩

/-- **Every step of a process is one of the loop**, in which the fabric stands for the
other processes. -/
theorem ProcessStep.step (hs : ProcessStep code s l s') : Loop.Step efaWorld code s s' := by
  cases hs with
  | own hs => exact hs.of_own
  | place _ _ hm | receive _ _ _ hm | notice _ hm => exact .env ⟨_, hm⟩

/-- The loop may stand still. -/
theorem Loop.Step.stand (code : Loc → Op Loc G ConnOp Val) (s : Loop Loc G ConnOp Fabric Val) :
    Loop.Step efaWorld code s s :=
  .env ⟨.setRc s.world.rc, rfl⟩

/-! ## The record of a process -/

/-- The packet that an operation left on the wire when its bytes were copied. -/
def Posted.packet : Posted × List UInt8 → Option (ℕ × Packet)
  | (⟨_, .send _ _ remote⟩, data) => some (remote, .message data)
  | (⟨_, .write _ _ remote _ _ data true⟩, _) => some (remote, .notice data)
  | (⟨_, .write _ _ _ _ _ _ false⟩, _) | (⟨_, .recv _ _⟩, _) => none

/-- The message that an operation took off the wire. -/
def Posted.received : Posted × List UInt8 → Option Packet
  | (⟨_, .recv _ _⟩, data) => some (.message data)
  | (⟨_, .send _ _ _⟩, _) | (⟨_, .write _ _ _ _ _ _ _⟩, _) => none

namespace Fabric

/-- The entries of remote writes that have come into a queue. -/
def arrivals (f : Fabric) : List Entry :=
  (f.history.taken ++ f.completions.map Prod.snd).filter (·.flags.remoteWrite)

/-- The packets this process has put on the wire. -/
def sent (f : Fabric) : Multiset (ℕ × Packet) := f.history.placed.filterMap Posted.packet

/-- The packets it has taken off the wire. -/
def got (f : Fabric) : Multiset Packet :=
  (f.history.placed.filterMap Posted.received : Multiset Packet) +
    (f.arrivals.map fun e => Packet.notice e.data : List Packet)

/-- Nothing has been copied, and no remote write has come. -/
structure Settled (f f' : Fabric) : Prop where
  placed : f'.history.placed = f.history.placed
  arrivals : f'.arrivals.Perm f.arrivals

variable {f f' : Fabric}

namespace Settled

theorem of_eq (hplaced : f'.history.placed = f.history.placed)
    (htaken : f'.history.taken = f.history.taken) (hcompl : f'.completions = f.completions) :
    Settled f f' :=
  ⟨hplaced, by rw [Fabric.arrivals, Fabric.arrivals, htaken, hcompl]⟩

theorem sent_eq (h : Settled f f') : f'.sent = f.sent := by rw [sent, sent, h.placed]

theorem got_eq (h : Settled f f') : f'.got = f.got := by
  rw [got, got, h.placed, Multiset.coe_eq_coe.mpr (h.arrivals.map _)]

end Settled

/-- What is read from the queues is still there. -/
theorem Taken.settled {es : List Entry} {events : List ℕ} (tk : Taken f es events f') :
    Settled f f' := by
  refine ⟨tk.placed, ?_⟩
  have htaken : f'.history.taken = f.history.taken ++ es := by rw [tk.eq]
  rw [arrivals, arrivals, htaken, List.append_assoc]
  exact (tk.perm.append_left _).filter _

/-- A move that is the fabric's own. -/
theorem Own.settled {m : Move} (ho : f.Own m) (hm : f.move m = some f') : Settled f f' := by
  cases m with
  | place ctx msg => exact ho.elim
  | complete cq ctx len =>
    simp only [move] at hm
    split at hm
    · rename_i p _
      split at hm
      · obtain rfl := Option.some.inj hm
        have hflags : p.req.flags.remoteWrite = false := by cases p.req <;> rfl
        exact ⟨rfl, by simp [arrivals, hflags]⟩
      · cases hm
    · cases hm
  | notify cq e =>
    simp only [move] at hm
    split at hm
    · obtain rfl := Option.some.inj hm
      have hflags : e.flags.remoteWrite = false := ho
      exact ⟨rfl, by simp [arrivals, hflags]⟩
    · cases hm
  | fail cq err | setRc rc =>
    obtain rfl := Option.some.inj hm
    exact .of_eq rfl rfl rfl

end Fabric

/-- **By itself a process sends nothing and gets nothing.** -/
theorem Loop.Step.settled (hs : Loop.Step ownWorld code s s') :
    Fabric.Settled s.world s'.world := by
  have hsame : s'.world = s.world → Fabric.Settled s.world s'.world := fun hw => by
    rw [hw]
    exact .of_eq rfl rfl rfl
  cases hs with
  | exec now hs => exact hsame (exec_appends hs).world
  | resume hstack hs =>
    have hs : s.resume efaWorld = some s' := hs
    obtain ⟨h, c, q, r, -, -, -, -, hfront⟩ := Loop.frontStep hs
    cases hfront with
    | idle _ _ hw _ | refused _ _ _ _ hw _ => exact hsame hw
    | failed a e x _ henter hpost _ =>
      obtain ⟨mem, rfl⟩ := ConnOp.enter_ok henter
      rw [ConnOp.post_error hpost]
      exact .of_eq rfl rfl rfl
    | posted a x _ henter hpost _ =>
      obtain ⟨mem, rfl⟩ := ConnOp.enter_ok henter
      rcases ConnOp.post_ok hpost with ⟨req, -, hx⟩ | ⟨-, hx⟩
      · rw [hx]
        exact .of_eq rfl rfl rfl
      · rw [hx]
        exact .of_eq rfl rfl rfl
    | ended a _ hw _ =>
      have hw : s'.world = (a.resume h s.world).2 := hw
      rw [hw, (ConnOp.resume_snd a h _).1]
      exact .of_eq rfl rfl rfl
  | round hr =>
    obtain ⟨events, due, -, hpoll, -⟩ := hr.world
    exact (Fabric.taken_of_select hpoll).settled
  | env henv =>
    obtain ⟨m, hown, hm⟩ := henv
    exact hown.settled hm

/-! ## What is copied -/

/-- The bytes that are noted when those of an operation are copied. -/
def Request.copied (mem : ℕ → UInt8) (msg : List UInt8) : Request → List UInt8
  | .recv _ len => msg.take len
  | .send base len _ | .write base len _ _ _ _ _ => bytes mem base len

namespace Fabric

variable {f f' : Fabric}

/-- What is copied is noted with its bytes. -/
theorem placed_copy (p : Posted) (msg : List UInt8) (f : Fabric) :
    (f.copy p msg).history.placed = f.history.placed ++ [(p, p.req.copied f.mem msg)] ∧
      (f.copy p msg).arrivals = f.arrivals := by
  unfold copy
  split <;> rename_i hreq <;> exact ⟨by rw [hreq]; rfl, rfl⟩

theorem copy_of_place {ctx : ℕ} {p : Posted} {msg : List UInt8}
    (hp : f.inflight.find? (·.ctx = ctx) = some p) (hm : f.move (.place ctx msg) = some f') :
    f' = f.copy p msg := by
  simp only [move, hp] at hm
  split at hm
  · cases hm
  · exact (Option.some.inj hm).symm

theorem sent_copy (p : Posted) (msg : List UInt8) (f : Fabric) :
    (f.copy p msg).sent =
      (Posted.packet (p, p.req.copied f.mem msg)).elim f.sent (· ::ₘ f.sent) := by
  rw [sent, (placed_copy p msg f).1, List.filterMap_append, ← Multiset.coe_add, add_comm, sent]
  cases hx : Posted.packet (p, p.req.copied f.mem msg) with
  | none => simp [hx]
  | some x => simp [hx]

theorem got_copy (p : Posted) (msg : List UInt8) (f : Fabric) :
    (f.copy p msg).got =
      (Posted.received (p, p.req.copied f.mem msg)).elim f.got (· ::ₘ f.got) := by
  obtain ⟨hplaced, harrivals⟩ := placed_copy p msg f
  rw [got, got, hplaced, harrivals, List.filterMap_append, ← Multiset.coe_add, add_right_comm]
  cases hx : Posted.received (p, p.req.copied f.mem msg) with
  | none => simp [hx]
  | some x => simp [hx, add_comm]

/-- An immediate that comes is a packet more. -/
theorem sent_got_of_notice {cq : ℕ} {e : Entry} (hrw : e.flags.remoteWrite = true)
    (hm : f.move (.notify cq e) = some f') :
    f'.sent = f.sent ∧ f'.got = .notice e.data ::ₘ f.got := by
  simp only [move, hrw, true_or, if_true, Option.some.injEq] at hm
  have harr : f'.arrivals = f.arrivals ++ [e] := by
    rw [← hm]
    simp [arrivals, hrw]
  refine ⟨by rw [← hm]; rfl, ?_⟩
  rw [got, harr, List.map_append, ← Multiset.coe_add, ← add_assoc, add_comm,
    show f'.history = f.history by rw [← hm]]
  exact Multiset.singleton_add _ _

end Fabric

/-- **The record of a process.** -/
def processAccounts {ι : Type} {Loc G : ι → Type}
    (code : ∀ i, Loc i → Op (Loc i) (G i) ConnOp Val) :
    Network.Accounts (fun i => ProcessStep (code i)) where
  sent _ s := s.world.sent
  got _ s := s.world.got
  own i s s' hs := by
    generalize hl : (Label.own : Label ℕ Packet) = l at hs
    cases hs with
    | own hs => exact ⟨hs.settled.sent_eq, hs.settled.got_eq⟩
    | @place ctx p f hfind hrecv hm =>
      rw [Fabric.copy_of_place hfind hm, Fabric.sent_copy, Fabric.got_copy]
      match p, hrecv, hl with
      | ⟨_, .recv base sz⟩, hrecv, _ => exact absurd rfl (hrecv base sz)
      | ⟨_, .write _ _ _ _ _ _ false⟩, _, _ => exact ⟨rfl, rfl⟩
    | receive | notice => cases hl
  put i s dest p s' hs := by
    generalize hl : Label.put dest p = l at hs
    cases hs with
    | @place ctx p f hfind _ hm =>
      rw [Fabric.copy_of_place hfind hm, Fabric.sent_copy, Fabric.got_copy]
      match p, hl with
      | ⟨_, .send base len remote⟩, hl
      | ⟨_, .write _ _ remote _ _ data true⟩, hl =>
        cases hl
        exact ⟨rfl, rfl⟩
    | own | receive | notice => cases hl
  take i s p s' hs := by
    generalize hl : Label.take p = l at hs
    cases hs with
    | @place ctx p f _ _ _ =>
      match p, hl with
      | ⟨_, .write _ _ _ _ _ _ true⟩, hl => cases hl
    | @receive ctx base sz p msg f hfind hreq hlen hm =>
      cases hl
      rw [Fabric.copy_of_place hfind hm, Fabric.sent_copy, Fabric.got_copy]
      obtain ⟨_, _⟩ := p
      cases hreq
      simp [Posted.packet, Posted.received, Request.copied, List.take_of_length_le hlen]
    | notice hrw hm =>
      cases hl
      exact Fabric.sent_got_of_notice hrw hm
    | own => cases hl

/-- Before anything is sent or taken, nothing is missing. -/
theorem conserved_of_empty {ι : Type} [Fintype ι] {Loc G : ι → Type}
    {code : ∀ i, Loc i → Op (Loc i) (G i) ConnOp Val} {address : ι → ℕ}
    {x : Network (fun i => Loop (Loc i) (G i) ConnOp Fabric Val) ℕ Packet}
    (hh : ∀ i, (x.party i).world.history = {}) (hq : ∀ i, (x.party i).world.completions = [])
    (hwire : x.wire = 0) : (processAccounts code).Conserved address x := by
  have hsent : ∀ i, (x.party i).world.sent = 0 := fun i => by
    rw [Fabric.sent, hh i]
    rfl
  have hgot : ∀ i, (x.party i).world.got = 0 := fun i => by
    rw [Fabric.got, Fabric.arrivals, hh i, hq i]
    rfl
  rw [Network.Accounts.Conserved, hwire, zero_add]
  refine Finset.sum_congr rfl fun i _ => ?_
  show (x.party i).world.sent = Multiset.map _ (x.party i).world.got
  rw [hsent i, hgot i, Multiset.map_zero]

/-! ## The step as a function -/

/-- The label of a move of the fabric, where the move is one of a process. -/
def Fabric.label (f : Fabric) : Fabric.Move → Option (Label ℕ Packet)
  | .place ctx msg =>
    (f.inflight.find? (·.ctx = ctx)).bind fun p =>
      match p.req with
      | .recv _ sz => if msg.length ≤ sz then some (.take (.message msg)) else none
      | req => if msg = [] then some (req.label f.mem) else none
  | .complete _ ctx len =>
    if f.history.placed.all fun p =>
        match p.1.req with
        | .recv _ _ => p.1.ctx != ctx || len == p.2.length
        | _ => true
    then some .own else none
  | .notify _ e => if e.flags.remoteWrite then some (.take (.notice e.data)) else some .own
  | .fail _ _ | .setRc _ => some .own

/-- Perform a step of a process. -/
def processAct (code : Loc → Op Loc G ConnOp Val) (a : Act Fabric.Move)
    (s : Loop Loc G ConnOp Fabric Val) :
    Option (Label ℕ Packet × Loop Loc G ConnOp Fabric Val) :=
  match a with
  | .env m =>
    (s.world.label m).bind fun l => (s.world.move m).map fun f => (l, { s with world := f })
  | a => (s.act ownWorld code (fun _ _ => none) a).map fun s' => (.own, s')

/-- A move that is the fabric's own is a step. -/
theorem ProcessStep.of_own {m : Fabric.Move} {f : Fabric} (hm : s.world.move m = some f)
    (ho : s.world.Own m) : ProcessStep code s .own { s with world := f } :=
  .own (.env ⟨m, ho, hm⟩)

/-- A move of the fabric with its label is a step. -/
theorem ProcessStep.of_label {m : Fabric.Move} {f : Fabric} (hl : s.world.label m = some l)
    (hm : s.world.move m = some f) : ProcessStep code s l { s with world := f } := by
  cases m with
  | place ctx msg =>
    obtain ⟨p, hfind, hp⟩ := Option.bind_eq_some_iff.mp hl
    split at hp
    · rename_i base sz hreq
      split at hp
      · rename_i hlen
        cases hp
        exact .receive hfind hreq hlen hm
      · cases hp
    · rename_i hreq
      split at hp
      · rename_i hmsg
        subst hmsg
        obtain rfl := Option.some.inj hp
        exact .place hfind hreq hm
      · cases hp
  | complete cq ctx len =>
    simp only [Fabric.label] at hl
    split at hl
    · rename_i hall
      obtain rfl := Option.some.inj hl
      refine .of_own hm fun p hp hctx base sz hreq => ?_
      have := List.all_eq_true.mp hall p hp
      simpa [hreq, hctx] using this
    · cases hl
  | notify cq e =>
    simp only [Fabric.label] at hl
    split at hl
    · rename_i hrw
      obtain rfl := Option.some.inj hl
      exact .notice hrw hm
    · rename_i hrw
      obtain rfl := Option.some.inj hl
      exact .of_own hm (Bool.eq_false_iff.mpr hrw)
  | fail cq err | setRc rc =>
    obtain rfl := Option.some.inj hl
    exact .of_own hm trivial

/-- **What `processAct` performs is a step.** -/
theorem ProcessStep.of_act {a : Act Fabric.Move} (h : processAct code a s = some (l, s')) :
    ProcessStep code s l s' := by
  have hown : ∀ {a : Act Fabric.Move},
      (s.act ownWorld code (fun _ _ => none) a).map (fun s' => (Label.own, s')) = some (l, s') →
      ProcessStep code s l s' := by
    intro a ha
    obtain ⟨s₁, hs, heq⟩ := Option.map_eq_some_iff.mp ha
    obtain ⟨rfl, rfl⟩ := Prod.mk.inj heq
    exact .own (step_of_act (fun _ _ _ hm => by cases hm) hs)
  cases a with
  | env m =>
    obtain ⟨l', hl, h⟩ := Option.bind_eq_some_iff.mp h
    obtain ⟨f, hf, heq⟩ := Option.map_eq_some_iff.mp h
    obtain ⟨rfl, rfl⟩ := Prod.mk.inj heq
    exact .of_label hl hf
  | exec now | resume | round now => exact hown h

end EfaExamples
