import Mathlib.Data.List.Forall2
/-!
# The checks

The macros of `utils.h` and `gpuloc.h` that throw when a condition does not
hold or a call fails, with the text they throw.
-/

namespace EfaExamples

/-- What a check or a container of the standard library throws. -/
inductive Thrown
  | runtimeError (what : String)
  | invalidArgument (what : String)
  | outOfRange (what : String)
  | lengthError (what : String)
  deriving DecidableEq, Repr

/-- `ASSERT` and `GPULOC_ASSERT`, with the text of the condition. -/
def assertion (exp : String) (p : Prop) [Decidable p] : Except Thrown Unit :=
  if p then .ok () else .error (.runtimeError (exp ++ " assertion fail."))

@[simp] theorem assertion_eq_ok {exp : String} {p : Prop} [Decidable p] {u : Unit} :
    assertion exp p = .ok u ↔ p := by
  unfold assertion
  split <;> simp_all

/-- `NVML_CHECK`, of a call that fails with a text or gives its out-parameter. -/
def nvmlCheck {α : Type} (exp : String) (call : Except String α) : Except Thrown α :=
  call.mapError fun err => .runtimeError (exp ++ " fail. error: " ++ err)

@[simp] theorem nvmlCheck_eq_ok {α : Type} {exp : String} {call : Except String α} {a : α} :
    nvmlCheck exp call = .ok a ↔ call = .ok a := by
  cases call with
  | ok b =>
    have hb : nvmlCheck exp (.ok b) = .ok b := rfl
    rw [hb, Except.ok.injEq, Except.ok.injEq]
  | error e =>
    have he : nvmlCheck exp (.error e) =
      (.error (.runtimeError (exp ++ " fail. error: " ++ e)) : Except Thrown α) := rfl
    rw [he]
    constructor <;> intro h <;> cases h

/-- A computation whose first part has succeeded is its second part. -/
theorem bind_eq_ok {ε α β : Type} {x : Except ε α} {f : α → Except ε β} {b : β} :
    (x >>= f) = .ok b ↔ ∃ a, x = .ok a ∧ f a = .ok b := by
  cases x with
  | ok a => simp [bind, Except.bind]
  | error e => simp [bind, Except.bind]

/-- A list of calls succeeds if each of them does. -/
theorem mapM_eq_ok {ε α β : Type} {f : α → Except ε β} {l : List α} {r : List β} :
    l.mapM f = .ok r ↔ List.Forall₂ (fun a b => f a = .ok b) l r := by
  induction l generalizing r with
  | nil =>
    rw [List.mapM_nil, List.forall₂_nil_left_iff]
    exact ⟨fun h => (Except.ok.inj h).symm, fun h => congrArg Except.ok h.symm⟩
  | cons a l ih =>
    simp only [List.mapM_cons, bind_eq_ok, ih, List.forall₂_cons_left_iff]
    constructor
    · rintro ⟨b, hb, r', hr', hret⟩
      exact ⟨b, r', hb, hr', (Except.ok.inj hret).symm⟩
    · rintro ⟨b, r', hb, hr', rfl⟩
      exact ⟨b, hb, r', hr', rfl⟩

/-- The last round of a loop starts from what the rounds before it leave. -/
theorem foldlM_concat_eq_ok {ε α β : Type} {f : β → α → Except ε β} {l : List α} {a : α} {b c : β} :
    (l ++ [a]).foldlM f b = .ok c ↔ ∃ b', l.foldlM f b = .ok b' ∧ f b' a = .ok c := by
  rw [List.foldlM_append, bind_eq_ok]
  refine exists_congr fun b' => and_congr_right fun _ => ?_
  have hone : [a].foldlM f b' = f b' a := by
    rw [List.foldlM_cons]
    exact bind_pure (f b' a)
  rw [hone]

/-- A loop that throws keeps step with one that does not, if their rounds do. -/
theorem foldl_of_foldlM {ε α β γ : Type} {f : β → α → Except ε β} {g : γ → α → γ} {l : List α}
    (view : β → γ) {b c : β} (hstep : ∀ a ∈ l, ∀ b b', f b a = .ok b' → g (view b) a = view b')
    (h : l.foldlM f b = .ok c) : l.foldl g (view b) = view c := by
  induction l generalizing b with
  | nil => exact congrArg view (Except.ok.inj h)
  | cons a l ih =>
    rw [List.foldlM_cons] at h
    obtain ⟨b', hb, h⟩ := bind_eq_ok.mp h
    rw [List.foldl_cons, hstep a List.mem_cons_self b b' hb]
    exact ih (fun a ha => hstep a (List.mem_cons_of_mem _ ha)) h

end EfaExamples
