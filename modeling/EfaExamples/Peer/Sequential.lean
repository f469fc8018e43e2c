import EfaExamples.Peer.Phases
/-!
# The `WriteOne` that awaits every write

What holds of the window at each location of the `WriteOne` of the `dmabuf`
and `affinity` examples. The window never holds more than one write.
-/

namespace EfaExamples

namespace Sequential

open Writer

variable (w : Writer)

/-- **What holds at a location.** -/
def Here : Loc → Window → Prop
  | .page r g i, x => Position w r g i x ∧ x.ops = x.round * w.total + x.made ∧
      x.sent = x.round * w.total + x.made ∧ x.noted = x.round * w.total + x.made ∧
      x.fresh = false ∧ x.awaited = x.made ∧ x.popped = x.made ∧ x.failed = none
  | .sent r g i region, x => Position w r g i x ∧ x.ops = x.round * w.total + x.made ∧
      x.sent = x.round * w.total + x.made + 1 ∧ x.noted = x.round * w.total + x.made ∧
      w.peerRegions[g]? = some region ∧ i < w.numPages ∧
      x.fresh = false ∧ x.awaited = x.made ∧ x.popped = x.made ∧ x.failed = none
  | .made r g i d, x => Position w r g i x ∧ x.ops = x.round * w.total + x.made ∧
      x.sent = x.round * w.total + x.made + 1 ∧ x.noted = x.round * w.total + x.made ∧
      g < w.peerRegions.length ∧ i < w.numPages ∧ d = w.handle x.round x.made ∧
      x.fresh = true ∧ x.awaited = x.made ∧ x.popped = x.made ∧ x.failed = none
  | .called r g i d, x => Position w r g i x ∧ x.ops = x.round * w.total + x.made ∧
      x.sent = x.round * w.total + x.made + 1 ∧ x.noted = x.round * w.total + x.made + 1 ∧
      g < w.peerRegions.length ∧ i < w.numPages ∧ d = w.handle x.round x.made ∧
      x.fresh = true ∧ x.awaited = x.made ∧ x.popped = x.made ∧ x.failed = none
  | .resumed r g i d o, x => Position w r g (i + 1) x ∧ x.ops + 1 = x.round * w.total + x.made ∧
      x.sent = x.round * w.total + x.made ∧ x.noted = x.round * w.total + x.made ∧
      d = w.handle x.round x.popped ∧
      x.fresh = false ∧ x.awaited = x.made ∧ x.popped + 1 = x.made ∧ x.failed = Window.failure o
  | .counted r g i, x => Position w r g (i + 1) x ∧ x.ops + 1 = x.round * w.total + x.made ∧
      x.sent = x.round * w.total + x.made ∧ x.noted = x.round * w.total + x.made ∧
      x.fresh = false ∧ x.awaited = x.made ∧ x.popped = x.made ∧ x.failed = none

variable {w : Writer} {l : Loc} {x : Window}

/-- **Every operation of `WriteOne` is allowed where it stands.** -/
theorem allowed (hx : x.Ok w) (hh : Here w l x) : Allowed w (Here w) x (writeOne w l) := by
  cases l with
  | page r g i =>
    obtain ⟨⟨rfl, hreg, hmade⟩, hops, hsent, hnoted, hfresh, ha, hp, hfail⟩ := hh
    simp only [writeOne]
    split
    · -- every region has been gone through
      rename_i hnone
      have hg : g = w.peerRegions.length ∧ i = 0 := by
        have := List.getElem?_eq_none_iff.mp hnone
        omega
      have htotal : x.made = w.total := by
        rw [hmade, hg.1, hg.2]
        rfl
      refine ⟨hfresh, hnoted, rfl, hfail, by omega, ?_, ?_⟩
      · rw [hops, Nat.succ_mul, htotal]
      · rw [hsent, Nat.succ_mul, htotal]
    · rename_i region hsome
      obtain ⟨hg, -⟩ := List.getElem?_eq_some_iff.mp hsome
      split
      · rename_i hi
        exact ⟨.sent x.round g i region, { x with sent := x.sent + 1 }, by simp,
          ⟨rfl, rfl, rfl, rfl, rfl, rfl⟩, ⟨rfl, hreg, hmade⟩, hops, by simp [hsent], hnoted, hsome, hi,
          hfresh, ha, hp, hfail⟩
      · -- the region is done
        have hi : i = w.numPages := by omega
        refine ⟨.page x.round (g + 1) 0, x, rfl, ⟨rfl, rfl, rfl, rfl, rfl, rfl⟩, ⟨rfl, by omega, ?_⟩,
          hops, hsent, hnoted, hfresh, ha, hp, hfail⟩
        rw [hmade, hi, Nat.succ_mul, Nat.add_zero]
  | sent r g i region =>
    obtain ⟨⟨rfl, hreg, hmade⟩, hops, hsent, hnoted, hsome, hi, hfresh, ha, hp, hfail⟩ := hh
    obtain ⟨hg, -⟩ := List.getElem?_eq_some_iff.mp hsome
    have hlt : x.made < w.total := hmade ▸ w.position_lt hsome hi
    exact ⟨hfresh, hlt, by rw [hmade, w.op_position hsome hi], _, rfl, ⟨rfl, hreg, hmade⟩, hops,
      hsent, hnoted, hg, hi, rfl, rfl, ha, hp, hfail⟩
  | made r g i d =>
    obtain ⟨⟨rfl, hreg, hmade⟩, hops, hsent, hnoted, hg, hi, rfl, hfresh, ha, hp, hfail⟩ := hh
    -- the write that is noted is the one just made
    have hissue : w.issue x.noted = ⟨x.round, g, i, w.handle x.round x.made⟩ := by
      obtain ⟨hdiv, hmod⟩ := w.div_mod_position (g := g) hi
      rw [hnoted, w.issue_add (hx.fresh hfresh), hmade, hdiv, hmod]
    refine ⟨.called x.round g i (w.handle x.round x.made), { x with noted := x.noted + 1 }, ?_,
      ⟨rfl, rfl, rfl, rfl, rfl, rfl⟩, ⟨rfl, hreg, hmade⟩, hops, hsent, by simp [hnoted], hg, hi, rfl,
      hfresh, ha, hp, hfail⟩
    simp only [← hissue, counters_note]
  | called r g i d =>
    obtain ⟨⟨rfl, hreg, hmade⟩, hops, hsent, hnoted, hg, hi, rfl, hfresh, ha, hp, hfail⟩ := hh
    refine ⟨hfail, x.launch, fun o => .resumed x.round g i (w.handle x.round x.made) o,
      Or.inr ⟨rfl, hfresh, ha⟩, ?_, ?_, rfl, fun o => ?_⟩
    · simp only [Window.launch]
      omega
    · rw [show x.launch.awaited = x.made from ha]
      rfl
    · refine ⟨⟨rfl, by omega, ?_⟩, ?_, ?_, ?_, ?_, rfl, ?_, ?_, rfl⟩
      all_goals simp only [Window.launch, Window.got]
      all_goals first | omega | rw [hp]
  | resumed r g i d o =>
    obtain ⟨⟨rfl, hreg, hmade⟩, hops, hsent, hnoted, rfl, hfresh, ha, hp, hfail⟩ := hh
    cases o with
    | ok v =>
      exact ⟨hfresh, by omega, rfl, _, rfl, ⟨rfl, hreg, hmade⟩, hops, hsent, hnoted, hfresh, ha, hp,
        hfail⟩
    | error e => exact ⟨hfresh, hnoted, hfail⟩
  | counted r g i =>
    obtain ⟨⟨rfl, hreg, hmade⟩, hops, hsent, hnoted, hfresh, ha, hp, hfail⟩ := hh
    exact ⟨.page x.round g (i + 1), { x with ops := x.ops + 1 }, by simp,
      ⟨rfl, rfl, rfl, rfl, rfl, rfl⟩, ⟨rfl, hreg, hmade⟩, hops, hsent, hnoted, hfresh, ha, hp, hfail⟩

/-- A round begins at its first page. -/
theorem here_entry (r : ℕ) : Here w (.page r 0 0) (.enter w r) := by
  refine ⟨⟨rfl, ?_, by simp [Window.enter]⟩, rfl, rfl, rfl, rfl, rfl, rfl, rfl⟩
  rcases Nat.eq_zero_or_pos w.peerRegions.length with h | h
  · exact Or.inr ⟨h.symm, rfl⟩
  · exact Or.inl ⟨h, Nat.zero_le _⟩

end Sequential

end EfaExamples
