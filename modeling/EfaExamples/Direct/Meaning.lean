import EfaExamples.Direct.Shape
/-!
# What a suspended program still has to do

`Means` gives a location of a body its direct-style meaning: evaluate the
statement it is at, then leave the frames around it one by one. It is what
the frames of the body's coroutine still have to do, read off without
running the loop.
-/

namespace EfaExamples

variable {P E V : Type} (pr : Program P E V)

/-- Control passes an enclosing frame. -/
def Frame.Eval : Frame P E V → Flow E V → Flow E V → Prop
  | .seq t, .next e, r => EfaExamples.Eval pr t e r
  | .while b s, .next e, r => EfaExamples.Eval pr (.while b s) e r
  | .tryCatch h t, .threw x e, r => EfaExamples.Eval pr t (h x e) r
  | _, r, r' => r' = r

/-- Control leaves all frames, with an outcome. -/
def Unwind : List (Frame P E V) → Flow E V → Outcome V → Prop
  | [], r, o => o = r.outcome
  | f :: k, r, o => ∃ r', f.Eval pr r r' ∧ Unwind k r' o

/-- **The meaning of a location.** What a child that is still to be awaited
leaves is not known yet. -/
def Means : Site P E V → Outcome V → Prop
  | .before s k e, o => ∃ r, Eval pr s e r ∧ Unwind pr k r o
  | .after r k, o => Unwind pr k r o
  | .made _ _ _ _, _ => False
  | .awaited _ oc bind k e, o => Unwind pr k (.ofOutcome bind e oc) o

variable {pr}

/-! ## Determinism -/

theorem Flow.not_isNext {r : Flow E V} {e : E} (h : r.isNext = false) : r ≠ .next e := by
  rintro rfl
  cases h

theorem Flow.not_isThrew {r : Flow E V} {x : Exn V} {e : E} (h : r.isThrew = false) :
    r ≠ .threw x e := by
  rintro rfl
  cases h

/-- **The direct meaning is a partial function.** -/
theorem Eval.unique {s : Stmt P E V} {e : E} {r r' : Flow E V} (h : Eval pr s e r)
    (h' : Eval pr s e r') : r' = r := by
  induction h generalizing r' with
  | skip | assign | sleep | ret | throw => cases h'; rfl
  | seq _ _ ih₁ ih₂ =>
    cases h' with
    | seq h₁ h₂ =>
      cases ih₁ h₁
      exact ih₂ h₂
    | seqLeave h₁ hn => exact absurd (ih₁ h₁) (Flow.not_isNext hn)
  | seqLeave _ hn ih =>
    cases h' with
    | seq h₁ _ => exact absurd (ih h₁).symm (Flow.not_isNext hn)
    | seqLeave h₁ _ => exact ih h₁
  | iteTrue hb _ ih =>
    cases h' with
    | iteTrue _ h₁ => exact ih h₁
    | iteFalse hb' _ => rw [hb] at hb'; cases hb'
  | iteFalse hb _ ih =>
    cases h' with
    | iteTrue hb' _ => rw [hb] at hb'; cases hb'
    | iteFalse _ h₁ => exact ih h₁
  | whileTrue hb _ _ ih₁ ih₂ =>
    cases h' with
    | whileTrue _ h₁ h₂ =>
      cases ih₁ h₁
      exact ih₂ h₂
    | whileLeave _ h₁ hn => exact absurd (ih₁ h₁) (Flow.not_isNext hn)
    | whileFalse hb' => rw [hb] at hb'; cases hb'
  | whileLeave hb _ hn ih =>
    cases h' with
    | whileTrue _ h₁ _ => exact absurd (ih h₁).symm (Flow.not_isNext hn)
    | whileLeave _ h₁ _ => exact ih h₁
    | whileFalse hb' => rw [hb] at hb'; cases hb'
  | whileFalse hb =>
    cases h' with
    | whileTrue hb' _ _ | whileLeave hb' _ _ => rw [hb] at hb'; cases hb'
    | whileFalse _ => rfl
  | await _ ih =>
    cases h' with
    | await h₁ => rw [ih h₁]
  | tryLeave _ hn ih =>
    cases h' with
    | tryLeave h₁ _ => exact ih h₁
    | tryCatch h₁ _ => exact absurd (ih h₁).symm (Flow.not_isThrew hn)
  | tryCatch _ _ ih₁ ih₂ =>
    cases h' with
    | tryLeave h₁ hn => exact absurd (ih₁ h₁) (Flow.not_isThrew hn)
    | tryCatch h₁ h₂ =>
      cases ih₁ h₁
      exact ih₂ h₂

/-- A call has one outcome at most. -/
theorem Call.unique {p : P} {e : E} {o o' : Outcome V} (h : Call pr p e o) (h' : Call pr p e o') :
    o' = o := by
  obtain ⟨r, hr, rfl⟩ := h
  obtain ⟨r', hr', rfl⟩ := h'
  rw [hr.unique hr']

/-! ## Local steps -/

/-- Passing a frame is what the location after it means. -/
theorem means_leave {f : Frame P E V} {k : List (Frame P E V)} {r : Flow E V} {o : Outcome V}
    (h : Means pr (f.leave k r) o) : ∃ r', f.Eval pr r r' ∧ Unwind pr k r' o := by
  cases f <;> cases r <;> first | exact h | exact ⟨_, rfl, h⟩

/-- **A local step keeps the meaning.** -/
theorem means_goto {l l' : Site P E V} {o : Outcome V} (hop : direct pr l = goto l')
    (h : Means pr l' o) : Means pr l o := by
  have hinj : ∀ {l₁ : Site P E V}, goto l₁ = (goto l' : Op (Site P E V) Unit Empty V) → l₁ = l' := by
    intro l₁ h₁
    simp only [goto, Op.step.injEq] at h₁
    exact congrArg Prod.snd (congrFun h₁ ())
  cases l with
  | before s k e =>
    cases s with
    | skip =>
      rw [← hinj hop] at h
      exact ⟨_, .skip, h⟩
    | assign f =>
      rw [← hinj hop] at h
      exact ⟨_, .assign, h⟩
    | seq s t =>
      rw [← hinj hop] at h
      obtain ⟨r, hr, r', hr', hu⟩ := h
      cases r with
      | next e' => exact ⟨r', .seq hr hr', hu⟩
      | returned v | threw x e' =>
        cases hr'
        exact ⟨_, .seqLeave hr rfl, hu⟩
    | ite b s t =>
      rw [← hinj hop] at h
      by_cases hb : b e = true
      · rw [if_pos hb] at h
        obtain ⟨r, hr, hu⟩ := h
        exact ⟨r, .iteTrue hb hr, hu⟩
      · rw [if_neg hb] at h
        obtain ⟨r, hr, hu⟩ := h
        exact ⟨r, .iteFalse (by simpa using hb) hr, hu⟩
    | «while» b s =>
      rw [← hinj hop] at h
      by_cases hb : b e = true
      · rw [if_pos hb] at h
        obtain ⟨r, hr, r', hr', hu⟩ := h
        cases r with
        | next e' => exact ⟨r', .whileTrue hb hr hr', hu⟩
        | returned v | threw x e' =>
          cases hr'
          exact ⟨_, .whileLeave hb hr rfl, hu⟩
      · rw [if_neg hb] at h
        exact ⟨_, .whileFalse (by simpa using hb), h⟩
    | sleep | await => cases hop
    | tryCatch s hd t =>
      rw [← hinj hop] at h
      obtain ⟨r, hr, r', hr', hu⟩ := h
      cases r with
      | threw x e' => exact ⟨r', .tryCatch hr hr', hu⟩
      | next e' | returned v =>
        cases hr'
        exact ⟨_, .tryLeave hr rfl, hu⟩
    | ret v =>
      rw [← hinj hop] at h
      exact ⟨_, .ret, h⟩
    | throw x =>
      rw [← hinj hop] at h
      exact ⟨_, .throw, h⟩
  | after r k =>
    cases k with
    | nil => cases hop
    | cons f k =>
      rw [← hinj hop] at h
      exact means_leave h
  | made | awaited => cases hop

end EfaExamples
