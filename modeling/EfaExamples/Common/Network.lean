import Mathlib.Algebra.BigOperators.Group.Finset.Basic
import Mathlib.Algebra.Order.Group.Multiset
import Mathlib.Data.Fintype.Basic
import EfaExamples.Common.Run
/-!
# Parties around a network

A party is a transition system whose steps are labelled by what they do to
the network: nothing, put a packet on the wire for an address, or take one
that is for the party itself. The network loses nothing, makes nothing up and
keeps no order. `Step` interleaves the parties. What a party does in a run of
the whole is a run of its own (`IsRun.party`), and what has been put is at
every time what is on the wire together with what has been taken
(`IsRun.conserved`). Where the parties' steps are functions of a choice, a run
of the whole is a list of choices, evaluated (`isRun_visited`).
-/

namespace EfaExamples

/-- What a step of a party does to the network. -/
inductive Label (A P : Type*)
  /-- nothing -/
  | own
  /-- a packet for address `dest` goes on the wire -/
  | put (dest : A) (p : P)
  /-- a packet for the party is taken off the wire -/
  | take (p : P)

variable {ι A P : Type*} {S : ι → Type*}

/-- The parties, and the packets on the wire with their addresses. -/
structure Network (S : ι → Type*) (A P : Type*) where
  party : ∀ i, S i
  wire : Multiset (A × P)

namespace Network

/-- What a label does to the wire, at the party with address `me`. -/
inductive Passes (me : A) : Label A P → Multiset (A × P) → Multiset (A × P) → Prop
  | own {m : Multiset (A × P)} : Passes me .own m m
  | put {dest : A} {p : P} {m : Multiset (A × P)} : Passes me (.put dest p) m ((dest, p) ::ₘ m)
  | take {p : P} {m : Multiset (A × P)} : Passes me (.take p) ((me, p) ::ₘ m) m

/-- What is taken was on the wire. -/
theorem Passes.mem {me : A} {p : P} {m m' : Multiset (A × P)} (h : Passes me (.take p) m m') :
    (me, p) ∈ m := by
  cases h
  exact Multiset.mem_cons_self _ _

variable (act : ∀ i, S i → Label A P → S i → Prop)

/-- **A record of the packets** that every party keeps: those it has put, and those
it has taken. -/
structure Accounts where
  sent : ∀ i, S i → Multiset (A × P)
  got : ∀ i, S i → Multiset P
  own : ∀ i s s', act i s .own s' → sent i s' = sent i s ∧ got i s' = got i s
  put : ∀ i s dest p s', act i s (.put dest p) s' →
    sent i s' = (dest, p) ::ₘ sent i s ∧ got i s' = got i s
  take : ∀ i s p s', act i s (.take p) s' → sent i s' = sent i s ∧ got i s' = p ::ₘ got i s

variable {act} {address : ι → A}

namespace Accounts

variable (ac : Accounts act)

/-- What a party has taken, with its address. -/
def addressed (address : ι → A) (i : ι) (s : S i) : Multiset (A × P) :=
  (ac.got i s).map (Prod.mk (address i))

/-- What a label does to the wire, the record of the party makes up for. -/
theorem passes {i : ι} {s s' : S i} {l : Label A P} {m m' : Multiset (A × P)}
    (hs : act i s l s') (hp : Passes (address i) l m m') :
    ac.sent i s' + (m + ac.addressed address i s) =
      ac.sent i s + (m' + ac.addressed address i s') := by
  cases hp with
  | own =>
    obtain ⟨hsent, hgot⟩ := ac.own _ _ _ hs
    rw [addressed, addressed, hsent, hgot]
  | put =>
    obtain ⟨hsent, hgot⟩ := ac.put _ _ _ _ _ hs
    rw [addressed, addressed, hsent, hgot, Multiset.cons_add, Multiset.cons_add,
      Multiset.add_cons]
  | take =>
    obtain ⟨hsent, hgot⟩ := ac.take _ _ _ _ hs
    rw [addressed, addressed, hsent, hgot, Multiset.map_cons, Multiset.cons_add, Multiset.add_cons,
      Multiset.add_cons, Multiset.add_cons]

end Accounts

/-! ## Interleaving -/

variable [DecidableEq ι] (address : ι → A) (act : ∀ i, S i → Label A P → S i → Prop)

/-- **One party moves**, and the others stand. -/
inductive Step : Network S A P → Network S A P → Prop
  | mk {x : Network S A P} {i : ι} {l : Label A P} {s : S i} {m : Multiset (A × P)} :
      act i (x.party i) l s → Passes (address i) l x.wire m →
      Step x ⟨Function.update x.party i s, m⟩

variable {address act} {x y : Network S A P}

/-- A party moves or stands. -/
theorem Step.party (hs : Step address act x y) (j : ι) :
    y.party j = x.party j ∨ ∃ l, act j (x.party j) l (y.party j) := by
  cases hs with
  | @mk i l s m hstep _ =>
    by_cases hj : j = i
    · subst hj
      exact Or.inr ⟨l, by simpa only [Function.update_self] using hstep⟩
    · exact Or.inl (Function.update_of_ne hj _ _)

/-! ## Conservation -/

namespace Accounts

variable (ac : Accounts act)
variable [Fintype ι]

/-- **What has been put is on the wire, or has been taken.** -/
def Conserved (address : ι → A) (x : Network S A P) : Prop :=
  ∑ i, ac.sent i (x.party i) = x.wire + ∑ i, ac.addressed address i (x.party i)

/-- A sum over the parties, of which only one has moved. -/
theorem sum_update {M : Type*} [AddCommMonoid M] (f : ∀ i, S i → M) (u : ∀ i, S i) (i : ι) (s : S i) :
    ∑ j, f j (Function.update u i s j) = f i s + ∑ j ∈ Finset.univ.erase i, f j (u j) := by
  rw [← Finset.add_sum_erase _ _ (Finset.mem_univ i), Function.update_self]
  refine congrArg _ (Finset.sum_congr rfl fun j hj => ?_)
  rw [Function.update_of_ne (Finset.ne_of_mem_erase hj)]

/-- **A step keeps it.** -/
theorem Conserved.step (hc : ac.Conserved address x) (hs : Step address act x y) :
    ac.Conserved address y := by
  cases hs with
  | @mk i l s m hstep hpass =>
    have hmove := ac.passes hstep hpass
    rw [Conserved, ← Finset.add_sum_erase _ _ (Finset.mem_univ i),
      ← Finset.add_sum_erase _ (fun i => ac.addressed address i (x.party i))
        (Finset.mem_univ i)] at hc
    rw [Conserved, sum_update, sum_update]
    -- the party that moves, and the wire, make up for each other
    refine add_left_cancel (a := ac.sent i (x.party i)) ?_
    calc ac.sent i (x.party i) + (ac.sent i s + _)
        = ac.sent i s + (ac.sent i (x.party i) +
            ∑ j ∈ Finset.univ.erase i, ac.sent j (x.party j)) := add_left_comm _ _ _
      _ = ac.sent i s + (x.wire + (ac.addressed address i (x.party i) + _)) := by rw [hc]
      _ = (ac.sent i s + (x.wire + ac.addressed address i (x.party i))) + _ := by
          rw [add_assoc, add_assoc]
      _ = (ac.sent i (x.party i) + (m + ac.addressed address i s)) + _ := by rw [hmove]
      _ = ac.sent i (x.party i) + (m + (ac.addressed address i s + _)) := by
          rw [add_assoc, add_assoc]

omit [DecidableEq ι] in
/-- What is on the wire has been sent by somebody. -/
theorem Conserved.exists_sent (hc : ac.Conserved address x) {q : A × P} (hq : q ∈ x.wire) :
    ∃ i, q ∈ ac.sent i (x.party i) := by
  have hmem : q ∈ ∑ i, ac.sent i (x.party i) := by
    rw [hc]
    exact Multiset.mem_add.mpr (Or.inl hq)
  obtain ⟨i, -, hi⟩ := Multiset.mem_sum.mp hmem
  exact ⟨i, hi⟩

end Accounts

end Network

open Network

variable [DecidableEq ι] {address : ι → A} {act : ∀ i, S i → Label A P → S i → Prop}
variable {init : Network S A P → Prop} {σ : ℕ → Network S A P} {n : ℕ}

/-- **What a party does is a run of its own**, in any step relation that has its
steps and may stand still. -/
theorem IsRun.party (hrun : IsRun init (Network.Step address act) σ n) (j : ι)
    {start : S j → Prop} {own : S j → S j → Prop} (hstart : ∀ x, init x → start (x.party j))
    (hown : ∀ s l s', act j s l s' → own s s') (hstand : ∀ s, own s s) :
    IsRun start own (fun t => (σ t).party j) n where
  start := hstart _ hrun.start
  next t ht := by
    rcases (hrun.next t ht).party j with heq | ⟨l, hl⟩
    · show own ((σ t).party j) ((σ (t + 1)).party j)
      rw [heq]
      exact hstand _
    · exact hown _ l _ hl

/-- **No packet is lost, made up or taken twice** along a run. -/
theorem IsRun.conserved [Fintype ι] (ac : Accounts act)
    (hrun : IsRun init (Network.Step address act) σ n)
    (hstart : ∀ x, init x → ac.Conserved address x) : ∀ t ≤ n, ac.Conserved address (σ t) :=
  hrun.invariant _ hstart fun _ _ hc hs => Accounts.Conserved.step ac hc hs

/-- **Relying on the others.** If every party, as long as what it takes is as it
should be, keeps its invariant and sends only what should be, then all of them
keep theirs along a run. -/
theorem IsRun.rely [Fintype ι] (ac : Accounts act)
    (hrun : IsRun init (Network.Step address act) σ n)
    (hstart : ∀ x, init x → ac.Conserved address x) (Inv : ∀ i, S i → Prop) (Good : A → P → Prop)
    (h₀ : ∀ x, init x → ∀ i, Inv i (x.party i))
    (hsent : ∀ i s, Inv i s → ∀ q ∈ ac.sent i s, Good q.1 q.2)
    (hstep : ∀ i s l s', Inv i s → act i s l s' → (∀ p, l = .take p → Good (address i) p) →
      Inv i s') : ∀ t ≤ n, ∀ i, Inv i ((σ t).party i) := by
  have hboth : ∀ t ≤ n, ac.Conserved address (σ t) ∧ ∀ i, Inv i ((σ t).party i) := by
    refine hrun.invariant (fun x => ac.Conserved address x ∧ ∀ i, Inv i (x.party i))
      (fun x hx => ⟨hstart x hx, h₀ x hx⟩) ?_
    rintro x y ⟨hc, hinv⟩ hs
    refine ⟨hc.step ac hs, fun j => ?_⟩
    cases hs with
    | @mk i l s m hact hpass =>
      show Inv j (Function.update x.party i s j)
      by_cases hj : j = i
      · subst hj
        rw [Function.update_self]
        refine hstep j _ l s (hinv j) hact fun p hl => ?_
        subst hl
        obtain ⟨i, hi⟩ := hc.exists_sent ac hpass.mem
        exact hsent i _ (hinv i) _ hi
      · rw [Function.update_of_ne hj]
        exact hinv j
  exact fun t ht => (hboth t ht).2

/-! ## Runs from choices -/

namespace Network

variable {M : ι → Type*} (choose : ∀ i, M i → S i → Option (Label A P × S i))

/-- What a label does to the wire, where the wire has what is taken. -/
def pass [DecidableEq A] [DecidableEq P] (me : A) :
    Label A P → Multiset (A × P) → Option (Multiset (A × P))
  | .own, m => some m
  | .put dest p, m => some ((dest, p) ::ₘ m)
  | .take p, m => if (me, p) ∈ m then some (m.erase (me, p)) else none

theorem passes_of_pass [DecidableEq A] [DecidableEq P] {me : A} {l : Label A P}
    {m m' : Multiset (A × P)} (h : pass me l m = some m') : Passes me l m m' := by
  cases l with
  | own =>
    cases h
    exact .own
  | put dest p =>
    cases h
    exact .put
  | take p =>
    simp only [pass] at h
    split at h
    · rename_i hmem
      cases h
      nth_rewrite 1 [← Multiset.cons_erase hmem]
      exact .take
    · cases h

variable [DecidableEq A] [DecidableEq P]

/-- A party makes its choice. -/
def perform (address : ι → A) (a : Σ i, M i) (x : Network S A P) : Option (Network S A P) :=
  (choose a.1 a.2 (x.party a.1)).bind fun ls =>
    (pass (address a.1) ls.1 x.wire).map fun m => ⟨Function.update x.party a.1 ls.2, m⟩

variable {choose} (hchoose : ∀ i a s l s', choose i a s = some (l, s') → act i s l s')

include hchoose in
theorem step_of_perform {a : Σ i, M i} (h : perform choose address a x = some y) :
    Step address act x y := by
  obtain ⟨⟨l, s⟩, hls, h⟩ := Option.bind_eq_some_iff.mp h
  obtain ⟨m, hm, rfl⟩ := Option.map_eq_some_iff.mp h
  exact .mk (hchoose _ _ _ _ _ hls) (passes_of_pass hm)

end Network

section Visited

variable {State M : Type*} (f : M → State → Option State)

/-- The states that a list of choices leads through. It stays where a choice has no step. -/
def visited (s : State) : List M → ℕ → State
  | [], _ | _, 0 => s
  | a :: as, i + 1 => ((f a s).map fun s' => visited s' as i).getD s

/-- Every choice has a step. -/
def goesOn (s : State) : List M → Bool
  | [] => true
  | a :: as => (f a s).any fun s' => goesOn s' as

variable {f} {step : State → State → Prop} {init : State → Prop}

theorem visited_zero (s : State) (as : List M) : visited f s as 0 = s := by
  cases as <;> rfl

/-- **Choices that have their steps are a run.** -/
theorem isRun_visited (hf : ∀ a s s', f a s = some s' → step s s') {s : State} {as : List M}
    (hs : init s) (h : goesOn f s as = true) : IsRun init step (visited f s as) as.length := by
  refine ⟨(visited_zero s as).symm ▸ hs, fun i hi => ?_⟩
  clear hs
  induction as generalizing s i with
  | nil => cases hi
  | cons a as ih =>
    obtain ⟨s', hs', hgo⟩ := (Option.any_eq_true _ _).mp h
    have hnext : ∀ j, visited f s (a :: as) (j + 1) = visited f s' as j := by
      intro j
      rw [visited, hs']
      rfl
    cases i with
    | zero =>
      rw [hnext, visited_zero, visited_zero]
      exact hf a s s' hs'
    | succ i =>
      rw [hnext, hnext]
      exact ih hgo i (Nat.lt_of_succ_lt_succ hi)

end Visited

end EfaExamples
