import EfaExamples.Efa.Connections
/-!
# The order in which a `Net` is torn down

`~Net` closes the completion queue and the address vector before the endpoint that is
bound to them, and the domain before `conns_` goes, whose buffers have their regions in
it. So it respects the order exactly where nothing has come to be bound: if
`Open` fails before or in its first `fi_ep_bind`.
-/

namespace EfaExamples

open Ledger Resources

variable {l l' : Resources} {s s' : NetState}

/-- The objects of the fabric. -/
def Kind.isFabric : Kind → Bool
  | fabric | domain | cq | av | ep | mr => true
  | block | cudaBlock | dmabuf | conn => false

/-- **Torn down in order.** Every object of the fabric is closed once, and none while another that
was opened on it or bound to it is open. -/
def Resources.TornDown (l : Resources) : Prop :=
  Balanced Resource.release (fun r => r.kind.isFabric = true) l.log ∧
    Ordered (fun r => r.kind.isFabric = true) l.log

instance (l : Resources) : Decidable l.TornDown := inferInstanceAs (Decidable (_ ∧ _))

/-- Some call of `Open` up to the first `fi_ep_bind` fails. -/
def OpenSystem.FailsUnbound (o : OpenSystem) : Prop :=
  o.fabric ≠ 0 ∨ o.domain ≠ 0 ∨ o.cqOpen ≠ 0 ∨ o.avOpen ≠ 0 ∨ o.endpoint ≠ 0 ∨ o.bindCq ≠ 0

theorem ConnObject.log_mono_destroy (c : ConnObject) (l : Resources) :
    l.log <+: (c.destroy l).log :=
  ((((c.writeBuffer.extends_destroy _).log_mono.trans
    (c.readBuffer.extends_destroy _).log_mono).trans
    (c.sendBuffer.extends_destroy _).log_mono).trans
    (c.recvBuffer.extends_destroy _).log_mono).trans
    (extends_drop .delete (some c.self) _).log_mono

namespace NetState

/-- The completion queue is the first to be closed. -/
theorem log_mono_destroy {cq : Resource} (hcq : s.net.cq = some cq)
    (order : List (String × ConnObject)) :
    s.res.log ++ [.released .fiClose cq] <+: (s.destroy order).res.log := by
  have hconns : ∀ (order : List (String × ConnObject)) (l : Resources),
      l.log <+: (order.foldl (fun l c => c.2.destroy l) l).log := by
    intro order
    induction order with
    | nil => exact fun l => List.prefix_refl _
    | cons c order ih => exact fun l => (c.2.log_mono_destroy l).trans (ih _)
  have hfirst : (s.res.drop .fiClose s.net.cq).log = s.res.log ++ [.released .fiClose cq] := by
    rw [hcq]
    rfl
  have hun : s.unRegister.net = s.net ∧ s.unRegister.res = s.res := by
    unfold unRegister
    split <;> exact ⟨rfl, rfl⟩
  rw [← hfirst]
  simp only [destroy, hun.1, hun.2]
  refine List.IsPrefix.trans ?_ (hconns order _)
  exact (((extends_drop _ _ _).trans (extends_drop _ _ _)).trans
    ((extends_drop _ _ _).trans (extends_drop _ _ _))).log_mono

/-! ## What has come to be bound -/

/-- The endpoint is open and bound to the completion queue, which is open. -/
structure BoundTo (s : NetState) (ep cq : Resource) : Prop where
  queue : s.net.cq = some cq
  fiClose : cq.kind.isFabric = true
  tied : .tied ep cq ∈ s.res.log
  kept : releases s.res.log ep = []
  lt : ep.id < s.res.next

/-- A `Net` whose endpoint is bound is not torn down in order. -/
theorem BoundTo.not_tornDown {ep cq : Resource} (h : s.BoundTo ep cq)
    (order : List (String × ConnObject)) : ¬ (s.destroy order).res.TornDown := by
  rintro ⟨-, hordered⟩
  obtain ⟨rest, hrest⟩ := log_mono_destroy h.queue order
  rw [← hrest] at hordered
  exact hordered.of_append s.res.log .fiClose cq [] rfl h.fiClose ep h.tied h.kept

theorem BoundTo.step {ep cq : Resource} (hb : s.BoundTo ep cq) {sys : ConnectSystem} {key : String}
    {r : Except Thrown Resource} (h : ConnectStep sys key s s' r) (ha : Adds s.res s'.res) :
    s'.BoundTo ep cq := by
  have hcq : s'.net.cq = s.net.cq := by
    cases h with
    | threw _ _ _ hnet => rw [hnet]
    | kept _ _ _ _ hnet => rw [hnet]
    | refused _ _ _ _ hnet => rw [hnet]
  exact ⟨hcq.trans hb.queue, hb.fiClose, ha.extends_res.log_mono.subset hb.tied,
    (ha.extends_res.releases ep hb.lt (by simp)).trans hb.kept,
    hb.lt.trans_le ha.extends_res.next_le⟩

/-- Calls that succeed do what they do, one after another. -/
theorem check_append {strerror : ℤ → String} {cs : List (String × ℤ × (NetState → NetState))}
    (h : ∀ c ∈ cs, c.2.1 = 0) (cs' : List (String × ℤ × (NetState → NetState))) (s : NetState) :
    check strerror (cs ++ cs') s = check strerror cs' (cs.foldl (fun s c => c.2.2 s) s) := by
  induction cs generalizing s with
  | nil => rfl
  | cons c cs ih =>
    obtain ⟨exp, rc, f⟩ := c
    rw [List.cons_append, check, if_pos (h _ List.mem_cons_self),
      ih fun c hc => h c (List.mem_cons_of_mem _ hc), List.foldl_cons]

theorem boundTo_netOpen {o : OpenSystem} (h : ¬ o.FailsUnbound) :
    (netOpen o {}).2.BoundTo ⟨.ep, 4⟩ ⟨.cq, 2⟩ := by
  simp only [OpenSystem.FailsUnbound, not_or, not_not] at h
  obtain ⟨h₁, h₂, h₃, h₄, h₅, h₆⟩ := h
  have hbound : (check o.strerror (calls o) {}).2.BoundTo ⟨.ep, 4⟩ ⟨.cq, 2⟩ := by
    have hzero : ∀ c ∈ (calls o).take 6, c.2.1 = 0 := by
      simp [calls, h₁, h₂, h₃, h₄, h₅, h₆]
    have hsame : ((calls o).take 6).foldl (fun s c => c.2.2 s) {} =
        ((calls TwoConnections.opened).take 6).foldl (fun s c => c.2.2 s) {} := rfl
    rw [← List.take_append_drop 6 (calls o), check_append hzero, hsame]
    refine check_induction (P := fun s => s.BoundTo ⟨.ep, 4⟩ ⟨.cq, 2⟩) (fun c hc s hs => ?_)
      ⟨rfl, rfl, by decide, by decide, by decide⟩
    simp only [calls, List.drop_succ_cons, List.drop_zero, List.mem_cons, List.not_mem_nil,
      or_false] at hc
    rcases hc with rfl | rfl | rfl
    · -- one more tie
      have hbind : ∀ ep on, s.res.log <+: (s.res.epBind ep on).log ∧
          releases (s.res.epBind ep on).log ⟨.ep, 4⟩ = releases s.res.log ⟨.ep, 4⟩ ∧
          (s.res.epBind ep on).next = s.res.next := by
        intro ep on
        cases ep <;> cases on <;> simp [epBind, tie]
      obtain ⟨hlog, hrel, hnext⟩ := hbind s.net.ep s.net.av
      exact ⟨hs.queue, hs.fiClose, hlog.subset hs.tied, hrel.trans hs.kept, by
        rw [hnext]
        exact hs.lt⟩
    · exact hs
    · exact ⟨hs.queue, hs.fiClose, hs.tied, hs.kept, hs.lt⟩
  obtain ⟨hnet, hres⟩ := netOpen_snd o {}
  exact ⟨by rw [hnet]; exact hbound.queue, hbound.fiClose, by rw [hres]; exact hbound.tied,
    by rw [hres]; exact hbound.kept, by rw [hres]; exact hbound.lt⟩

/-- Where it comes to no binding, `Open` throws, and what it leaves is torn down in order. -/
theorem tornDown_of_failsUnbound {o : OpenSystem} (h : o.FailsUnbound) :
    (netOpen o {}).1 ≠ .ok () ∧ ((netOpen o {}).2.destroy []).res.TornDown := by
  unfold netOpen calls
  by_cases h₁ : o.fabric = 0
  · by_cases h₂ : o.domain = 0
    · by_cases h₃ : o.cqOpen = 0
      · by_cases h₄ : o.avOpen = 0
        · by_cases h₅ : o.endpoint = 0
          · have h₆ : o.bindCq ≠ 0 := by simpa [OpenSystem.FailsUnbound, h₁, h₂, h₃, h₄, h₅] using h
            simp only [check, h₁, h₂, h₃, h₄, h₅, h₆, if_true, if_false]
            exact ⟨fun h => (by cases h), by decide⟩
          · simp only [check, h₁, h₂, h₃, h₄, h₅, if_true, if_false]
            exact ⟨fun h => (by cases h), by decide⟩
        · simp only [check, h₁, h₂, h₃, h₄, if_true, if_false]
          exact ⟨fun h => (by cases h), by decide⟩
      · simp only [check, h₁, h₂, h₃, if_true, if_false]
        exact ⟨fun h => (by cases h), by decide⟩
    · simp only [check, h₁, h₂, if_true, if_false]
      exact ⟨fun h => (by cases h), by decide⟩
  · simp only [check, h₁, if_false]
    exact ⟨fun h => (by cases h), by decide⟩

/-- **The order of a teardown** is kept exactly if `Open` failed before or in the first
`fi_ep_bind`. -/
theorem tornDown_iff {o : OpenSystem} {sys : ℕ → ConnectSystem} {remote : ℕ → ℕ → UInt8}
    {result : ℕ → Except Thrown Resource} {σ : ℕ → NetState} {n : ℕ}
    {order : List (String × ConnObject)} (hopen : (netOpen o {}).2 = σ 0)
    (hfail : (netOpen o {}).1 ≠ .ok () → n = 0) (h : ConnectRun sys remote result σ n)
    (horder : order.Perm (σ n).net.conns) :
    ((σ n).destroy order).res.TornDown ↔ o.FailsUnbound := by
  constructor
  · intro htorn
    by_contra hno
    have hbound : ∀ i ≤ n, (σ i).BoundTo ⟨.ep, 4⟩ ⟨.cq, 2⟩ := by
      intro i
      induction i with
      | zero =>
        intro _
        rw [← hopen]
        exact boundTo_netOpen hno
      | succ i ih =>
        intro hi
        obtain ⟨hstep, ha⟩ := connect_cases (h i hi)
        exact (ih (by omega)).step hstep ha
    exact (hbound n le_rfl).not_tornDown order htorn
  · intro hf
    obtain ⟨hthrows, htorn⟩ := tornDown_of_failsUnbound hf
    obtain rfl := hfail hthrows
    rw [← hopen, (fresh_netOpen o).1, List.perm_nil] at horder
    rw [← hopen, horder]
    exact htorn

end NetState

namespace TwoConnections

/-- What `fi_close` was called of, in order. -/
def closed (l : Resources) : List Kind :=
  l.log.filterMap fun
    | .released .fiClose r => some r.kind
    | _ => none

/-- `Open` fails for want of an address vector. -/
theorem tornDown_iff_noAv :
    ((NetState.netOpen { opened with avOpen := -22 } {}).2.destroy []).res.TornDown := by
  have hrun : NetState.ConnectRun (fun _ => connected) numbered (results numbered)
      (fun _ => (NetState.netOpen { opened with avOpen := -22 } {}).2) 0 := fun i hi => by omega
  exact (NetState.tornDown_iff rfl (fun _ => rfl) hrun (List.Perm.refl _)).mpr
    (Or.inr (Or.inr (Or.inr (Or.inl (by decide)))))

/-- **Torn down out of order.** An opened `Net` with one connection closes its completion queue
first, with its endpoint bound to it, and the regions of the connection after the domain. -/
theorem tornDown_not :
    closed ((states numbered 1).destroy (states numbered 1).net.conns).res =
      [.cq, .av, .ep, .domain, .fabric, .mr, .mr, .mr, .mr] ∧
    ¬ ((states numbered 1).destroy (states numbered 1).net.conns).res.TornDown := by
  constructor
  · rfl
  · decide +kernel

end TwoConnections

end EfaExamples
