import EfaExamples.Coro.Outline
import EfaExamples.Efa.Step
/-!
# What has been done stays done

No step takes anything back from the history. An operation is completed when
its bytes have been copied and its completion has been stored, and a
coroutine of the connection's that has returned is one whose operation is
(`Returned.step`).
-/

namespace EfaExamples

open Loop

/-- `b` is `a` with more at the ends. -/
structure History.Grows (a b : History) : Prop where
  posted : a.posted <+: b.posted
  placed : a.placed <+: b.placed
  stored : a.stored <+: b.stored

theorem History.Grows.refl (a : History) : a.Grows a :=
  ⟨List.prefix_refl _, List.prefix_refl _, List.prefix_refl _⟩

variable {Loc G : Type} {code : Loc → Op Loc G ConnOp Val}
variable {s s' : Loop Loc G ConnOp Fabric Val} {h : ℕ}

/-- **Histories only grow.** -/
theorem Loop.Step.grows (hs : Step efaWorld code s s') :
    s.world.history.Grows s'.world.history := by
  cases hs.fabricStep with
  | same hw | threw h a mem hw | registered h c a q mem _ _ _ _ _ _ hw =>
    rw [hw]
    exact .refl _
  | posted h c a q req mem _ _ _ _ _ _ _ _ hw =>
    rw [hw]
    exact ⟨List.prefix_append _ _, List.prefix_refl _, List.prefix_refl _⟩
  | resumed h c a q _ _ _ _ hw =>
    rw [hw, (ConnOp.resume_snd a h _).1]
    exact ⟨List.prefix_refl _, List.prefix_refl _, List.prefix_refl _⟩
  | taken events _ tk =>
    rw [tk.eq]
    exact ⟨List.prefix_refl _, List.prefix_refl _, List.prefix_append _ _⟩
  | moved m hm =>
    cases (Fabric.moved_of_move hm).1 with
    | placed p bs _ _ _ _ hh =>
      rw [hh]
      exact ⟨List.prefix_refl _, List.prefix_append _ _, List.prefix_refl _⟩
    | completed _ _ _ _ _ _ _ hh | notified _ _ _ _ _ hh | still _ _ hh =>
      rw [hh]
      exact .refl _

/-- Only a coroutine that exists posts an operation. -/
theorem Loop.Step.outstanding (hs : Step efaWorld code s s') (hh : h ∈ s'.world.outstanding) :
    h ∈ s.world.outstanding ∨ (s.coros h).isSome = true := by
  cases hs.fabricStep with
  | same hw | threw d a mem hw | registered d c a q mem _ _ _ _ _ _ hw =>
    rw [hw] at hh
    exact Or.inl hh
  | posted d c a q req mem _ _ hc _ _ _ _ _ hw =>
    rw [hw] at hh
    have hh : h ∈ (s.world.inflight ++ [(⟨d, req⟩ : Posted)]).map Posted.ctx ++
        s.world.completions.filterMap fun p => p.2.operation := hh
    simp only [List.map_append, List.map_cons, List.map_nil, List.mem_append,
      List.mem_singleton] at hh
    rcases hh with (hh | rfl) | hh
    · exact Or.inl (List.mem_append_left _ hh)
    · exact Or.inr (by rw [hc]; rfl)
    · exact Or.inl (List.mem_append_right _ hh)
  | resumed d c a q _ _ _ _ hw =>
    rw [hw, (ConnOp.resume_snd a d _).1] at hh
    exact Or.inl hh
  | taken events _ tk => exact Or.inl (tk.outstanding_perm.subset (List.mem_append_right _ hh))
  | moved m hm => exact Or.inl ((Fabric.moved_of_move hm).1.outstanding_perm.subset hh)

/-- **The operation of a context is completed.** -/
def Fabric.Completed (f : Fabric) (ctx : ℕ) : Prop :=
  f.Placed ctx ∧ ∃ e, (ctx, e) ∈ f.history.stored

theorem Fabric.Placed.grows {f f' : Fabric} {ctx : ℕ} (hp : f.Placed ctx)
    (hg : f.history.Grows f'.history) : f'.Placed ctx := by
  obtain ⟨p, hp, hctx⟩ := hp
  exact ⟨p, hg.placed.subset hp, hctx⟩

theorem Fabric.Completed.grows {f f' : Fabric} {ctx : ℕ} (hc : f.Completed ctx)
    (hg : f.history.Grows f'.history) : f'.Completed ctx := by
  obtain ⟨hp, e, he⟩ := hc
  exact ⟨hp.grows hg, e, hg.stored.subset he⟩

/-- **What has returned is completed**: a coroutine of the connection's that is
done without an exception, and has posted an operation, has had it completed. -/
def Returned (O : Outline Loc G ConnOp Val) (s : Loop Loc G ConnOp Fabric Val) : Prop :=
  ∀ h a, O.role h = some (.leaf a) → ∀ c, s.coros h = some c → c.point.isFinal = true →
    ∀ v, c.get = .ok v → a.request ≠ none → s.world.Completed h

/-- A coroutine that was one of the connection's, or becomes one in the step. -/
def Outline.Leaves (O O' : Outline Loc G ConnOp Val) : Prop :=
  ∀ h a, O'.role h = some (.leaf a) → O.role h = some (.leaf a) ∨ O.role h = some (.fresh a)

/-- **One step keeps it.** -/
theorem Returned.step {O O' : Outline Loc G ConnOp Val} (hr : Returned O s) (ho : Outlined O s)
    (t : Table none s) (k : Contexts s) (hs : Step efaWorld code s s')
    (hok : EfaStepOk code s s') (hl : O.Leaves O') : Returned O' s' := by
  intro h a ha' c' hc' hf' v hv hreq
  have hg := hs.grows
  -- it was there before, and if it was done then, it was done the same way
  have hold : ∀ c, s.coros h = some c → c.point.isFinal = true → c.get = c'.get →
      s'.world.Completed h := by
    intro c hc hf hget
    rcases hl h a ha' with ha | ha
    · exact (hr h a ha c hc hf v (hget.trans hv) hreq).grows hg
    · obtain ⟨c₀, hc₀, hfit⟩ := ho.role h _ ha
      rw [hc, Option.some.injEq] at hc₀
      rw [hc₀, hfit.1] at hf
      cases hf
  obtain ⟨c, hc, hpoint⟩ : ∃ c, s.coros h = some c ∧
      (c.point = .initialIo a ∨ c.point = .io a ∨ c.point = .final) := by
    rcases hl h a ha' with ha | ha
    · obtain ⟨c, hc, hfit, -⟩ := ho.role h _ ha
      exact ⟨c, hc, hfit.imp And.left id⟩
    · obtain ⟨c, hc, hfit⟩ := ho.role h _ ha
      exact ⟨c, hc, Or.inl hfit.1⟩
  rcases (hs.row t hok.not_running hc hc').leaf_done t hc hpoint hf' with
    ⟨hp, hget⟩ | ⟨-, -, e, herr⟩ | ⟨hsch, -⟩
  · exact hold c hc (by rw [hp]; rfl) hget
  · rw [hv] at herr
    cases herr
  · obtain ⟨-, hstored, -, hplaced⟩ := k.delivered h a hsch
    obtain ⟨req, hreq'⟩ := Option.ne_none_iff_exists'.mp hreq
    exact Fabric.Completed.grows ⟨(hplaced req hreq').2, hstored⟩ hg

end EfaExamples
