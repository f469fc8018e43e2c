import EfaExamples.Efa.Resumption
/-!
# Immediates from end to end

`Write` sends 64 bits and `Read` registers for 64, but `HandleCompletion`
looks at 32. So an immediate below 2 ^ 32 wakes the `Read` of the same number
and nobody else, and a larger one can wake a `Read` it was not meant for, miss
the one it was, or count as no immediate at all.
-/

namespace EfaExamples

variable {f : Fabric} {h a b : ℕ}

/-- The completion that a write puts in at its target: one that carries the
write's `data`, if the write carries any. -/
def Request.arrival : Request → Option Entry
  | .write _ _ _ _ _ data true => some { flags := { remoteWrite := true }, data := data }
  | _ => none

/-- What the target sees of a call of `Write`. -/
def ConnOp.arrival (op : ConnOp) : Option Entry := op.request.bind Request.arrival

namespace Fabric

/-- The `Read` of `b` whose context is `h` is registered, there and nowhere else. -/
def Registered (f : Fabric) (b h : ℕ) : Prop := ∀ i, f.immDataContexts i = some h ↔ i = b

/-- Dispatching the completion wakes `h`. -/
def Wakes (f : Fabric) (e : Entry) (h : ℕ) : Prop := h ∈ (f.handleCompletion [e]).1

instance (f : Fabric) (e : Entry) (h : ℕ) : Decidable (f.Wakes e h) :=
  inferInstanceAs (Decidable (_ ∈ _))

theorem wakes_iff {e : Entry} : f.Wakes e h ↔ f.context e = some h := by
  rw [Wakes, (handleCompletion_stored [e] f).events_eq]
  simp

/-- `await_suspend` of a `Read` registers it, where its context is new and its
immediate is free. -/
theorem registered_register (hnew : ∀ i, f.immDataContexts i ≠ some h)
    (hfree : f.immDataContexts b = none) : (f.register b h).Registered b h := by
  intro i
  rw [register]
  by_cases hi : i = b
  · simp [hi, hfree]
  · simp [hi, hnew i]

end Fabric

/-- The immediate of a write arrives, unless it is 0. -/
theorem mem_arrival_write {conn : Conn} {data sz addr key : ℕ} {e : Entry} :
    e ∈ (ConnOp.write conn data sz addr key a).arrival ↔
      a ≠ 0 ∧ e = { flags := { remoteWrite := true }, data := a } := by
  by_cases ha : a = 0
  · simp [ConnOp.arrival, ConnOp.request, Request.arrival, ha]
  · simp [ConnOp.arrival, ConnOp.request, Request.arrival, ha, eq_comm]

/-- A write's arrival wakes a registered `Read` when the low 32 bits of its
immediate are the number the `Read` is registered for. -/
theorem wakes_arrival_iff {conn : Conn} {data sz addr key : ℕ} (hreg : f.Registered b h)
    (hb : b ≠ 0) :
    (∃ e ∈ (ConnOp.write conn data sz addr key a).arrival, f.Wakes e h) ↔ a % 2 ^ 32 = b := by
  constructor
  · rintro ⟨e, he, hw⟩
    obtain ⟨-, rfl⟩ := mem_arrival_write.mp he
    rw [Fabric.wakes_iff, Fabric.context, if_pos rfl] at hw
    split at hw
    · cases hw
    · exact (hreg _).mp hw
  · intro hab
    have ha : a ≠ 0 := by
      rintro rfl
      exact hb hab.symm
    refine ⟨_, mem_arrival_write.mpr ⟨ha, rfl⟩, ?_⟩
    have himm : Entry.immData { flags := { remoteWrite := true }, data := a } ≠ 0 := by
      rw [Entry.immData, hab]
      exact hb
    rw [Fabric.wakes_iff, Fabric.context, if_pos rfl, if_neg himm]
    exact (hreg _).mpr hab

/-- A write posts an immediate the target takes for one when the low 32 bits of
it are not 0. -/
theorem arrival_immData_iff {conn : Conn} {data sz addr key : ℕ} :
    (∃ e ∈ (ConnOp.write conn data sz addr key a).arrival, e.immData ≠ 0) ↔ a % 2 ^ 32 ≠ 0 := by
  constructor
  · rintro ⟨e, he, hi⟩
    obtain ⟨-, rfl⟩ := mem_arrival_write.mp he
    exact hi
  · intro ha
    exact ⟨_, mem_arrival_write.mpr ⟨fun h0 => ha (by rw [h0]; rfl), rfl⟩, ha⟩

/-- **Immediates match end to end** exactly where the write's fits in 32 bits, or
its low 32 bits are not 0 and neither they nor it are the number awaited. -/
theorem immediate_iff {conn peer : Conn} {data sz addr key : ℕ}
    (haccepted : (ConnOp.read conn b).enter f = .ok f) (hreg : f.Registered b h) :
    (((∃ e ∈ (ConnOp.write peer data sz addr key a).arrival, f.Wakes e h) ↔ a = b) ∧
      ((∃ e ∈ (ConnOp.write peer data sz addr key a).arrival, e.immData ≠ 0) ↔ a ≠ 0)) ↔
      a < 2 ^ 32 ∨ a % 2 ^ 32 ≠ 0 ∧ b ≠ a ∧ b ≠ a % 2 ^ 32 := by
  have hb : b ≠ 0 := by
    rintro rfl
    cases haccepted
  rw [wakes_arrival_iff hreg hb, arrival_immData_iff]
  rcases Nat.lt_or_ge a (2 ^ 32) with hlt | hge
  · rw [Nat.mod_eq_of_lt hlt]
    exact ⟨fun _ => Or.inl hlt, fun _ => ⟨Iff.rfl, Iff.rfl⟩⟩
  · have hmod : a % 2 ^ 32 ≠ a := (Nat.mod_lt a (by decide)).trans_le hge |>.ne
    have ha : a ≠ 0 := by omega
    constructor
    · rintro ⟨hwake, himm⟩
      refine Or.inr ⟨himm.mpr ha, fun hba => hmod ?_, fun hba => hmod ?_⟩
      · exact (hwake.mpr hba.symm).trans hba
      · exact hba.symm.trans (hwake.mp hba.symm).symm
    · rintro (hlt | ⟨hmod0, hba, hbm⟩)
      · omega
      · exact ⟨⟨fun he => absurd he.symm hbm, fun he => absurd he.symm hba⟩,
          ⟨fun _ => ha, fun _ => hmod0⟩⟩

/-- The immediate of the examples matches. -/
theorem immediate_iff_kImmData :
    ((∃ e ∈ (ConnOp.write conn 4000 64 0 0 0x123).arrival, (quiet.register 0x123 7).Wakes e 7) ↔
        (0x123 : ℕ) = 0x123) ∧
      ((∃ e ∈ (ConnOp.write conn 4000 64 0 0 0x123).arrival, e.immData ≠ 0) ↔ (0x123 : ℕ) ≠ 0) :=
  have haccepted : (ConnOp.read conn 0x123).enter (quiet.register 0x123 7) =
      .ok (quiet.register 0x123 7) := rfl
  (immediate_iff haccepted (Fabric.registered_register (fun _ => nofun) rfl)).mpr
    (Or.inl (by decide))

/-- `Write` and `Read` accept 2 ^ 32, and the one does not wake the other. -/
theorem immediate_cut : (ConnOp.read conn (2 ^ 32)).enter quiet = .ok quiet ∧
    (quiet.register (2 ^ 32) 7).Registered (2 ^ 32) 7 ∧
    ¬ ((∃ e ∈ (ConnOp.write conn 4000 64 0 0 (2 ^ 32)).arrival,
        (quiet.register (2 ^ 32) 7).Wakes e 7) ↔ (2 ^ 32 : ℕ) = 2 ^ 32) :=
  ⟨rfl, Fabric.registered_register (fun _ => nofun) rfl, by decide⟩

end EfaExamples
