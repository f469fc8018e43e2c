import EfaExamples.Peer.Phases
/-!
# The pipelined `WriteOne`

What holds of the window at each location of the `WriteOne` of the `batch`
example.
-/

namespace EfaExamples

namespace Batch

open Writer

variable (w : Writer)

/-- The counters of a round with nothing pending, and no more than `batch_size` in
`futs`. -/
structure Counts (x : Window) : Prop where
  ops : x.ops = x.round * w.total + x.popped
  sent : x.sent = x.round * w.total + x.made
  noted : x.noted = x.round * w.total + x.made
  size : x.made ≤ x.popped + batchSize

/-- **What holds at a location.** -/
def Here : Loc → Window → Prop
  | .page r g i futs, x => Position w r g i x ∧ Counts w x ∧ x.fresh = false ∧
      x.awaited = x.popped ∧ x.failed = none ∧ futs = x.futs w
  | .front r g i futs o, x => Position w r g i x ∧ Counts w x ∧ x.fresh = false ∧
      x.awaited = x.popped + 1 ∧ x.failed = Window.failure o ∧ futs = x.futs w
  | .pop r g i futs, x => Position w r g i x ∧ x.ops = x.round * w.total + x.popped + 1 ∧
      x.sent = x.round * w.total + x.made ∧ x.noted = x.round * w.total + x.made ∧
      x.made ≤ x.popped + batchSize ∧ x.fresh = false ∧ x.awaited = x.popped + 1 ∧
      x.failed = none ∧ futs = x.futs w
  | .made r g i futs d, x => Position w r g i x ∧ Counts w x ∧ g < w.peerRegions.length ∧
      i < w.numPages ∧ x.made < x.popped + batchSize ∧ x.fresh = true ∧ x.awaited = x.popped ∧ x.failed = none ∧
      d = w.handle x.round x.made ∧ futs ++ [d] = x.futs w
  | .queued r g i futs d, x => Position w r g (i + 1) x ∧
      x.ops = x.round * w.total + x.popped ∧ x.sent + 1 = x.round * w.total + x.made ∧
      x.noted + 1 = x.round * w.total + x.made ∧ i < w.numPages ∧
      x.made ≤ x.popped + batchSize ∧ x.fresh = false ∧ x.awaited = x.popped ∧ x.failed = none ∧
      d + 1 = w.handle x.round x.made ∧ futs ++ [d] = x.futs w
  | .drain r futs, x => x.round = r ∧ x.made = w.total ∧ x.ops = x.round * w.total + x.awaited ∧
      x.sent = x.round * w.total + x.made ∧ x.noted = x.round * w.total + x.made ∧
      x.made ≤ x.popped + batchSize ∧ x.fresh = false ∧ x.failed = none ∧
      futs = List.range' (w.handle x.round x.awaited) (x.made - x.awaited)
  | .drained r futs o, x => x.round = r ∧ x.made = w.total ∧
      x.ops + 1 = x.round * w.total + x.awaited ∧ x.sent = x.round * w.total + x.made ∧
      x.noted = x.round * w.total + x.made ∧ x.made ≤ x.popped + batchSize ∧ x.fresh = false ∧
      x.failed = Window.failure o ∧
      futs = List.range' (w.handle x.round x.awaited) (x.made - x.awaited)

variable {w : Writer} {l : Loc} {x : Window}

/-- At a page the loop goes on with the next region, waits for the front of the full window, or makes
the write. -/
theorem allowed_page {r g i : ℕ} {futs : List ℕ} (hx : x.Ok w) (hh : Here w (.page r g i futs) x) :
    Allowed w (Here w) x (writeOne w (.page r g i futs)) := by
  obtain ⟨hpos, hc, hfresh, hap, hfail, rfl⟩ := hh
  obtain ⟨rfl, hreg, hmade⟩ := hpos
  have hlen : (x.futs w).length = x.made - x.popped := by
    simp [Window.futs, hfresh]
  simp only [writeOne]
  split
  · -- every region has been gone through
    rename_i hnone
    have hg : g = w.peerRegions.length ∧ i = 0 := by
      have := List.getElem?_eq_none_iff.mp hnone
      omega
    have htotal : x.made = w.total := by
      rw [hmade, hg.1, hg.2]
      rfl
    refine ⟨.drain x.round (x.futs w), x, rfl, ⟨rfl, rfl, rfl, rfl, rfl, rfl⟩, rfl, htotal, ?_,
      hc.sent, hc.noted, hc.size, hfresh, hfail, ?_⟩
    · rw [hc.ops, hap]
    · simp [Window.futs, hfresh, hap]
  · rename_i region hsome
    obtain ⟨hg, -⟩ := List.getElem?_eq_some_iff.mp hsome
    split
    · rename_i hi
      split
      · -- the window is full
        rename_i hfull
        rw [hlen] at hfull
        have hlt : x.popped < x.made := by
          simp only [batchSize] at hfull
          omega
        have hhead : (x.futs w).headD 0 = w.handle x.round x.awaited := by
          have hn : x.made - x.popped = (x.made - (x.popped + 1)) + 1 := by omega
          simp only [Window.futs, hfresh, Bool.toNat_false, Nat.add_zero]
          rw [hn, List.range'_succ, hap]
          rfl
        refine ⟨hfail, x, fun o => .front x.round g i (x.futs w) o, Or.inl ⟨rfl, hfresh⟩, by omega,
          hhead, rfl, fun o => ?_⟩
        exact ⟨⟨rfl, Or.inl ⟨hg, hi.le⟩, hmade⟩, ⟨hc.ops, hc.sent, hc.noted, hc.size⟩, hfresh,
          by simp [Window.got, hap], rfl, rfl⟩
      · rename_i hsize
        rw [hlen] at hsize
        have hlt : x.made < w.total := hmade ▸ w.position_lt hsome hi
        refine ⟨hfresh, hlt, by rw [hmade, w.op_position hsome hi], _, rfl, ?_⟩
        refine ⟨⟨rfl, Or.inl ⟨hg, hi.le⟩, hmade⟩, ⟨hc.ops, hc.sent, hc.noted, hc.size⟩, hg, hi,
          ?_, rfl, hap, hfail, rfl, (Window.futs_make hx hfresh).symm⟩
        simp only [Window.make]
        omega
    · -- the region is done
      have hi : i = w.numPages := by omega
      refine ⟨_, x, rfl, ⟨rfl, rfl, rfl, rfl, rfl, rfl⟩, ⟨rfl, ?_, ?_⟩, hc, hfresh, hap, hfail, rfl⟩
      · omega
      · rw [hmade, hi, Nat.succ_mul, Nat.add_zero]

/-- The write that is made is launched, -/
theorem allowed_made {r g i d : ℕ} {futs : List ℕ} (hh : Here w (.made r g i futs d) x) :
    Allowed w (Here w) x (writeOne w (.made r g i futs d)) := by
  obtain ⟨⟨rfl, hreg, hmade⟩, hc, hg, hi, hsize, hfresh, hap, hfail, rfl, hfuts⟩ := hh
  have hops := hc.ops
  have hsent := hc.sent
  have hnoted := hc.noted
  refine ⟨hfresh, rfl, _, rfl, ⟨rfl, by omega, ?_⟩, hops, ?_, ?_, hi, ?_, rfl, hap, hfail, ?_, ?_⟩
  · simp only [Window.launch]
    omega
  · simp only [Window.launch]
    omega
  · simp only [Window.launch]
    omega
  · simp only [Window.launch]
    omega
  · rw [← handle_succ]
    rfl
  · rw [hfuts, Window.futs_launch hfresh]

/-- and noted as the one it is. -/
theorem allowed_queued {r g i d : ℕ} {futs : List ℕ} (hx : x.Ok w)
    (hh : Here w (.queued r g i futs d) x) :
    Allowed w (Here w) x (writeOne w (.queued r g i futs d)) := by
  obtain ⟨⟨rfl, hreg, hmade⟩, hops, hsent, hnoted, hi, hsize, hfresh, hap, hfail, hd, hfuts⟩ := hh
  -- the write that is noted is the last one made
  have hlt : g * w.numPages + i < w.total := by
    have := hx.made
    omega
  have hissue : w.issue x.noted = ⟨x.round, g, i, d⟩ := by
    have hq : x.noted = x.round * w.total + (g * w.numPages + i) := by omega
    obtain ⟨hdiv, hmod⟩ := w.div_mod_position (g := g) hi
    rw [hq, w.issue_add hlt, hdiv, hmod]
    have : w.handle x.round (g * w.numPages + i) = d := by
      simp only [handle] at hd ⊢
      omega
    rw [this]
  refine ⟨.page x.round g (i + 1) (futs ++ [d]), { x with sent := x.sent + 1, noted := x.noted + 1 },
    ?_, ⟨rfl, rfl, rfl, rfl, rfl, rfl⟩, ⟨rfl, by omega, hmade⟩, ⟨hops, hsent, hnoted, hsize⟩,
    hfresh, hap, hfail, hfuts⟩
  simp only [counters_countSent, ← hissue, counters_note]

/-- After the last page the rest of the window is awaited. -/
theorem allowed_drain {r : ℕ} {futs : List ℕ} (hx : x.Ok w) (hh : Here w (.drain r futs) x) :
    Allowed w (Here w) x (writeOne w (.drain r futs)) := by
  have ha := hx.awaited
  obtain ⟨rfl, hmade, hops, hsent, hnoted, hsize, hfresh, hfail, rfl⟩ := hh
  by_cases hlt : x.awaited < x.made
  · have hn : x.made - x.awaited = (x.made - (x.awaited + 1)) + 1 := by omega
    rw [hn, List.range'_succ]
    refine ⟨hfail, x, fun o => .drained x.round _ o, Or.inl ⟨rfl, hfresh⟩, hlt, rfl, rfl, fun o => ?_⟩
    refine ⟨rfl, hmade, ?_, hsent, hnoted, hsize, hfresh, rfl, ?_⟩
    · simp only [Window.got]
      omega
    · rfl
  · rw [show x.made - x.awaited = 0 by omega, List.range'_zero]
    refine ⟨hfresh, hnoted, rfl, hfail, by omega, ?_, ?_⟩
    · rw [hops, Nat.succ_mul]
      omega
    · rw [hsent, Nat.succ_mul]
      omega

/-- **Every operation of `WriteOne` is allowed where it stands.** -/
theorem allowed (hx : x.Ok w) (hh : Here w l x) : Allowed w (Here w) x (writeOne w l) := by
  cases l with
  | page r g i futs => exact allowed_page hx hh
  | front r g i futs o =>
    obtain ⟨hpos, hc, hfresh, hap, hfail, rfl⟩ := hh
    obtain ⟨rfl, hreg, hmade⟩ := hpos
    cases o with
    | ok v =>
      refine ⟨.pop x.round g i (x.futs w), { x with ops := x.ops + 1 }, by simp,
        ⟨rfl, rfl, rfl, rfl, rfl, rfl⟩, ⟨rfl, hreg, hmade⟩, ?_, hc.sent, hc.noted, hc.size, hfresh,
        hap, hfail, rfl⟩
      simp [hc.ops]
    | error e => exact ⟨hfresh, hc.noted, hfail⟩
  | pop r g i futs =>
    obtain ⟨⟨rfl, hreg, hmade⟩, hops, hsent, hnoted, hsize, hfresh, hap, hfail, rfl⟩ := hh
    obtain ⟨hcons, -⟩ := Window.futs_pop hx (by omega)
    refine ⟨hfresh, by omega, by rw [hcons]; rfl, _, rfl, ?_⟩
    refine ⟨⟨rfl, hreg, hmade⟩, ⟨?_, hsent, hnoted, ?_⟩, hfresh, hap, hfail, by rw [hcons]; rfl⟩
    · simp only [Window.pop]
      omega
    · simp only [Window.pop]
      omega
  | made r g i futs d => exact allowed_made hh
  | queued r g i futs d => exact allowed_queued hx hh
  | drain r futs => exact allowed_drain hx hh
  | drained r futs o =>
    obtain ⟨rfl, hmade, hops, hsent, hnoted, hsize, hfresh, hfail, rfl⟩ := hh
    cases o with
    | ok v =>
      exact ⟨.drain x.round (List.range' (w.handle x.round x.awaited) (x.made - x.awaited)),
        { x with ops := x.ops + 1 }, by simp, ⟨rfl, rfl, rfl, rfl, rfl, rfl⟩, rfl, hmade, hops,
        hsent, hnoted, hsize, hfresh, hfail, rfl⟩
    | error e => exact ⟨hfresh, hnoted, hfail⟩

/-- A round begins at its first page. -/
theorem here_entry (r : ℕ) : Here w (.page r 0 0 []) (.enter w r) := by
  refine ⟨⟨rfl, ?_, by simp [Window.enter]⟩, ⟨rfl, rfl, rfl, Nat.zero_le _⟩, rfl, rfl, rfl, rfl⟩
  rcases Nat.eq_zero_or_pos w.peerRegions.length with h | h
  · exact Or.inr ⟨h.symm, rfl⟩
  · exact Or.inl ⟨h, Nat.zero_le _⟩

end Batch

end EfaExamples
