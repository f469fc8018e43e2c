import Mathlib.Data.List.Perm.Basic
import Mathlib.Data.List.Nodup
/-!
# Ledgers of resources

A ledger lists what a program does to resources: it acquires one, ties one to
another that it needs from there on, or gives one back in some way. Two things are asked of a
ledger. It is balanced if everything acquired is given back once, in its own way,
and ordered if nothing is given back while something tied to it is not. An
`Account` says that the first still can be had: what is held has not been given
back, and the rest has been, as it should.
-/

namespace EfaExamples

namespace Ledger

/-- What is done to a resource. -/
inductive Item (R C : Type*)
  | acquired (r : R)
  | tied (r on : R)
  | released (c : C) (r : R)
  deriving DecidableEq, Repr

variable {R C : Type*} [DecidableEq R]
variable {own : R → C} {log log' : List (Item R C)} {held held' : List R} {r r' on : R} {c : C}

/-- The way an item gives a resource back, if it does. -/
def Item.release (r : R) : Item R C → Option C
  | .released c r' => if r' = r then some c else none
  | _ => none

/-- The ways a resource was given back. -/
def releases (log : List (Item R C)) (r : R) : List C := log.filterMap (Item.release r)

/-- Everything acquired in the scope is given back once, in its own way. -/
def Balanced (own : R → C) (scope : R → Prop) (log : List (Item R C)) : Prop :=
  ∀ r, scope r → .acquired r ∈ log → releases log r = [own r]

/-- Nothing in the scope is given back while something tied to it is not. -/
def Ordered (scope : R → Prop) (log : List (Item R C)) : Prop :=
  ∀ pre c on post, log = pre ++ .released c on :: post → scope on →
    ∀ r, .tied r on ∈ pre → releases pre r ≠ []

@[simp] theorem releases_nil : releases ([] : List (Item R C)) r = [] := rfl

@[simp] theorem releases_append :
    releases (log ++ log') r = releases log r ++ releases log' r := List.filterMap_append

@[simp] theorem releases_acquired : releases (.acquired r' :: log) r = releases log r := rfl

@[simp] theorem releases_tied : releases (.tied r' on :: log) r = releases log r := rfl

@[simp] theorem releases_released :
    releases (.released c r' :: log) r = if r' = r then c :: releases log r else releases log r := by
  by_cases h : r' = r <;> simp [releases, Item.release, h]

theorem mem_releases : c ∈ releases log r ↔ .released c r ∈ log := by
  rw [releases, List.mem_filterMap]
  constructor
  · rintro ⟨i, hi, hc⟩
    cases i with
    | released c' r' =>
      rw [Item.release, Option.ite_none_right_eq_some, Option.some.injEq] at hc
      obtain ⟨rfl, rfl⟩ := hc
      exact hi
    | acquired | tied => cases hc
  · exact fun h => ⟨_, h, if_pos rfl⟩

/-! ## Order -/

section Order

variable {scope : R → Prop}

theorem ordered_nil : Ordered scope ([] : List (Item R C)) := by
  intro pre c on post h
  simp at h

/-- An item that gives nothing back keeps the order. -/
theorem Ordered.concat (h : Ordered scope log) {i : Item R C}
    (hi : ∀ c on, i = .released c on → scope on → ∀ r, .tied r on ∈ log → releases log r ≠ []) :
    Ordered scope (log ++ [i]) := by
  intro pre c on post heq
  rcases List.eq_nil_or_concat post with rfl | ⟨post', i', rfl⟩
  · obtain ⟨rfl, hi'⟩ := List.append_inj' heq rfl
    exact hi c on (List.cons.inj hi').1
  · rw [List.concat_eq_append, ← List.cons_append, ← List.append_assoc] at heq
    exact h pre c on post' (List.append_inj' heq rfl).1

/-- What comes later does not mend a ledger that is not in order. -/
theorem Ordered.of_append (h : Ordered scope (log ++ log')) : Ordered scope log := by
  intro pre c on post heq
  refine h pre c on (post ++ log') ?_
  rw [heq, List.append_assoc, List.cons_append]

end Order

/-! ## Both can be decided -/

section Decidable

variable {scope : R → Prop}

/-- What an item acquires. -/
def Item.acquires : Item R C → Option R
  | .acquired r => some r
  | _ => none

/-- What an item ties, and to what. -/
def Item.ties : Item R C → Option (R × R)
  | .tied r on => some (r, on)
  | _ => none

/-- After `pre`, the item gives nothing back that is needed. -/
def Item.Timely (scope : R → Prop) (pre : List (Item R C)) : Item R C → Prop
  | .released _ on => scope on → ∀ p ∈ pre.filterMap Item.ties, p.2 = on → releases pre p.1 ≠ []
  | _ => True

omit [DecidableEq R] in
theorem mem_filterMap_acquires : r ∈ log.filterMap Item.acquires ↔ .acquired r ∈ log := by
  rw [List.mem_filterMap]
  constructor
  · rintro ⟨i, hi, hr⟩
    cases i with
    | acquired r' =>
      obtain rfl := Option.some.inj hr
      exact hi
    | tied | released => cases hr
  · exact fun h => ⟨_, h, rfl⟩

omit [DecidableEq R] in
theorem mem_filterMap_ties : (r, on) ∈ log.filterMap Item.ties ↔ .tied r on ∈ log := by
  rw [List.mem_filterMap]
  constructor
  · rintro ⟨i, hi, hr⟩
    cases i with
    | tied r' on' =>
      cases hr
      exact hi
    | acquired | released => cases hr
  · exact fun h => ⟨_, h, rfl⟩

theorem ordered_iff : Ordered scope log ↔
    ∀ k : Fin log.length, (log.get k).Timely scope (log.take k) := by
  constructor
  · intro h k
    have hsplit : log = log.take k ++ log.get k :: log.drop (k + 1) := by
      rw [List.get_eq_getElem, List.getElem_cons_drop, List.take_append_drop]
    cases hi : log.get k with
    | acquired | tied => exact trivial
    | released c on =>
      rintro hon ⟨r, on'⟩ hp rfl
      rw [hi] at hsplit
      exact h _ c _ _ hsplit hon r (mem_filterMap_ties.mp hp)
  · rintro h pre c on post rfl hon r hr
    have ht := h ⟨pre.length, by simp⟩
    rw [List.get_eq_getElem, List.getElem_append_right (Nat.le_refl _)] at ht
    simp only [Nat.sub_self, List.getElem_cons_zero, List.take_left] at ht
    exact ht hon (r, on) (mem_filterMap_ties.mpr hr) rfl

variable [DecidableEq C] [DecidablePred scope]

instance : Decidable (Balanced own scope log) :=
  decidable_of_iff (∀ r ∈ log.filterMap Item.acquires, scope r → releases log r = [own r])
    ⟨fun h r hr hm => h r (mem_filterMap_acquires.mpr hm) hr,
      fun h r hm hr => h r hr (mem_filterMap_acquires.mp hm)⟩

instance (pre : List (Item R C)) : ∀ i : Item R C, Decidable (i.Timely scope pre)
  | .released _ on =>
    inferInstanceAs (Decidable (scope on → ∀ p ∈ pre.filterMap Item.ties, p.2 = on → _))
  | .acquired _ | .tied _ _ => inferInstanceAs (Decidable True)

instance : Decidable (Ordered scope log) := decidable_of_iff _ ordered_iff.symm

end Decidable

/-! ## Accounts -/

/-- **An account.** What is held was acquired and not given back, and what was acquired and is not
held was given back once, in its own way. -/
structure Account (own : R → C) (held : List R) (log : List (Item R C)) : Prop where
  nodup : held.Nodup
  acquired : ∀ r ∈ held, .acquired r ∈ log
  kept : ∀ r ∈ held, releases log r = []
  settled : ∀ r, .acquired r ∈ log → r ∉ held → releases log r = [own r]
  known : ∀ c r, .released c r ∈ log → .acquired r ∈ log

namespace Account

theorem nil : Account own [] ([] : List (Item R C)) where
  nodup := List.nodup_nil
  acquired _ h := by cases h
  kept _ h := by cases h
  settled _ h := by cases h
  known _ _ h := by cases h

/-- Whoever holds a resource may pass it on. -/
theorem perm (a : Account own held log) (h : held.Perm held') : Account own held' log where
  nodup := h.nodup_iff.mp a.nodup
  acquired r hr := a.acquired r (h.mem_iff.mpr hr)
  kept r hr := a.kept r (h.mem_iff.mpr hr)
  settled r hr hn := a.settled r hr fun hm => hn (h.mem_iff.mp hm)
  known := a.known

theorem tied (a : Account own held log) (r on : R) : Account own held (log ++ [.tied r on]) where
  nodup := a.nodup
  acquired r' hr' := List.mem_append_left _ (a.acquired r' hr')
  kept r' hr' := by simp [a.kept r' hr']
  settled r' hr' hn := by simpa using a.settled r' (by simpa using hr') hn
  known c r' hr' := List.mem_append_left _ (a.known c r' (by simpa using hr'))

/-- **What is acquired is held.** -/
theorem acquire (a : Account own held log) (hr : .acquired r ∉ log) :
    Account own (r :: held) (log ++ [.acquired r]) where
  nodup := List.nodup_cons.mpr ⟨fun h => hr (a.acquired r h), a.nodup⟩
  acquired r' hr' := by
    rcases List.mem_cons.mp hr' with rfl | hr'
    · simp
    · exact List.mem_append_left _ (a.acquired r' hr')
  kept r' hr' := by
    rcases List.mem_cons.mp hr' with rfl | hr'
    · have hnew : releases log r' = [] := List.eq_nil_iff_forall_not_mem.mpr fun c hc =>
        hr (a.known c r' (mem_releases.mp hc))
      simp [hnew]
    · simp [a.kept r' hr']
  settled r' hr' hn := by
    rw [List.mem_cons, not_or] at hn
    obtain ⟨hne, hn⟩ := hn
    have hold : .acquired r' ∈ log := by simpa [hne] using hr'
    simpa using a.settled r' hold hn
  known c r' hr' := List.mem_append_left _ (a.known c r' (by simpa using hr'))

/-- **What is held may be given back**, in its own way. -/
theorem release (a : Account own (r :: held) log) :
    Account own held (log ++ [.released (own r) r]) := by
  obtain ⟨hr, hnodup⟩ := List.nodup_cons.mp a.nodup
  refine ⟨hnodup, fun r' hr' => ?_, fun r' hr' => ?_, fun r' hr' hn => ?_, fun c r' hr' => ?_⟩
  · exact List.mem_append_left _ (a.acquired r' (List.mem_cons_of_mem _ hr'))
  · have hne : r ≠ r' := by
      rintro rfl
      exact hr hr'
    simp [a.kept r' (List.mem_cons_of_mem _ hr'), hne]
  · have hold : .acquired r' ∈ log := by simpa using hr'
    rcases eq_or_ne r r' with rfl | hne
    · simp [a.kept r List.mem_cons_self]
    · simp [a.settled r' hold (by simp [hne.symm, hn]), hne]
  · rcases List.mem_append.mp hr' with hr' | hr'
    · exact List.mem_append_left _ (a.known c r' hr')
    · simp only [List.mem_singleton, Item.released.injEq] at hr'
      rw [hr'.2]
      exact List.mem_append_left _ (a.acquired r List.mem_cons_self)

/-- **Where nothing is held, the ledger is balanced.** -/
theorem balanced (a : Account own [] log) (scope : R → Prop) : Balanced own scope log :=
  fun r _ hr => a.settled r hr (by simp)

end Account

end Ledger

end EfaExamples
