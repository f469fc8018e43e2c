import EfaExamples.Common.Ledger
/-!
# Objects that own resources

A program of objects, of which each owns resources and knows what is tied to
what through it. `Keeps` says that the objects alive account for a ledger: what is
held is theirs, and the ties to something in the scope that are not over are those they
know of. It is kept while objects come, grow and go (`Keeps.add`, `Keeps.grow`,
`Keeps.destroy`), whatever the order. The order is kept exactly if nobody else knows of
a tie to what goes (`Keeps.ordered_destroy_iff`).
-/

namespace EfaExamples

namespace Ledger

variable {O R C : Type*} [DecidableEq R]
variable {own : R → C} {owned : O → List R} {ties : O → List (R × R)} {scope : R → Prop}
variable {objs objs' : List O} {o o' : O} {log : List (Item R C)} {rs : List R} {r on : R}

/-! ## Giving back a list -/

/-- The items that give back a list, each resource in its own way. -/
def giveBack (own : R → C) (rs : List R) : List (Item R C) := rs.map fun r => .released (own r) r

theorem releases_giveBack (own : R → C) (hr : r ∈ rs) : releases (giveBack own rs) r ≠ [] := by
  have hmem : own r ∈ releases (giveBack own rs) r :=
    mem_releases.mpr (List.mem_map.mpr ⟨r, hr, rfl⟩)
  exact List.ne_nil_of_mem hmem

omit [DecidableEq R] in
@[simp] theorem tied_notMem_giveBack : .tied r on ∉ giveBack own rs := by simp [giveBack]

theorem Account.giveBack {held : List R} (a : Account own (rs ++ held) log) :
    Account own held (log ++ giveBack own rs) := by
  induction rs generalizing log with
  | nil => simpa [Ledger.giveBack] using a
  | cons r rs ih =>
    have h := ih a.release
    rwa [List.append_assoc, List.singleton_append] at h

/-- What gives nothing back keeps the order. -/
theorem Ordered.append {more : List (Item R C)} (h : Ordered scope log)
    (hm : ∀ c r, .released c r ∉ more) : Ordered scope (log ++ more) := by
  induction more generalizing log with
  | nil => simpa using h
  | cons i more ih =>
    have hi : Ordered scope (log ++ [i]) := h.concat fun c on he => by
      subst he
      exact absurd List.mem_cons_self (hm c on)
    have := ih hi fun c r hr => hm c r (List.mem_cons_of_mem _ hr)
    rwa [List.append_assoc, List.singleton_append] at this

/-- **A list is given back in order** if what is tied to each of it is given back before. -/
theorem Ordered.giveBack (h : Ordered scope log) (hrs : ∀ pre on post, rs = pre ++ on :: post →
    scope on → ∀ r, .tied r on ∈ log → releases log r ≠ [] ∨ r ∈ pre) :
    Ordered scope (log ++ giveBack own rs) := by
  induction rs generalizing log with
  | nil => simpa [Ledger.giveBack] using h
  | cons r rs ih =>
    have hr : Ordered scope (log ++ [.released (own r) r]) := h.concat fun c on he hon r' hr' => by
      cases he
      exact (hrs [] r rs rfl hon r' hr').resolve_right (by simp)
    have := ih hr fun pre on post he hon r' hr' => by
      obtain hr' : .tied r' on ∈ log := by simpa using hr'
      rcases hrs (r :: pre) on post (by rw [he]; rfl) hon r' hr' with hold | hpre
      · exact Or.inl (by simp [hold])
      · rcases List.mem_cons.mp hpre with rfl | hpre
        · exact Or.inl (by simp)
        · exact Or.inr hpre
    rwa [List.append_assoc, List.singleton_append] at this

/-! ## Objects alive -/

/-- **The objects alive account for the ledger.** -/
structure Keeps (own : R → C) (owned : O → List R) (ties : O → List (R × R))
    (scope : R → Prop) (objs : List O) (log : List (Item R C)) : Prop where
  account : Account own (objs.flatMap owned) log
  known : ∀ r on, scope on → .tied r on ∈ log →
    releases log r ≠ [] ∨ ∃ o ∈ objs, (r, on) ∈ ties o
  told : ∀ o ∈ objs, ∀ r on, (r, on) ∈ ties o → r ∈ owned o ∧ .tied r on ∈ log

namespace Keeps

theorem nil : Keeps own owned ties scope [] [] :=
  ⟨Account.nil, fun _ _ _ h => (by cases h), fun _ h => (by cases h)⟩

theorem perm (k : Keeps own owned ties scope objs log) (h : objs.Perm objs') :
    Keeps own owned ties scope objs' log where
  account := k.account.perm (h.flatMap_right owned)
  known r on hon hr := (k.known r on hon hr).imp_right fun ⟨o, ho, hp⟩ => ⟨o, h.mem_iff.mp ho, hp⟩
  told o ho := k.told o (h.mem_iff.mpr ho)

/-- An object comes that owns nothing. -/
theorem add (k : Keeps own owned ties scope objs log) (ho : owned o = []) (ht : ties o = []) :
    Keeps own owned ties scope (o :: objs) log where
  account := by
    rw [List.flatMap_cons, ho, List.nil_append]
    exact k.account
  known r on hon hr := (k.known r on hon hr).imp_right fun ⟨o', ho', hp⟩ =>
    ⟨o', List.mem_cons_of_mem _ ho', hp⟩
  told o' ho' r on hp := by
    rcases List.mem_cons.mp ho' with rfl | ho'
    · rw [ht] at hp
      cases hp
    · exact k.told o' ho' r on hp

/-- An object changes in what is not accounted for. -/
theorem congr (k : Keeps own owned ties scope (o :: objs) log) (ho : owned o' = owned o)
    (ht : ties o' = ties o) : Keeps own owned ties scope (o' :: objs) log where
  account := by
    have h := k.account
    rwa [List.flatMap_cons, ← ho, ← List.flatMap_cons] at h
  known r on hon hr := by
    simpa only [List.exists_mem_cons_iff, ht] using k.known r on hon hr
  told := by
    simpa only [List.forall_mem_cons, ho, ht] using k.told

/-- **An object gets something new**, with its ties. -/
theorem grow (k : Keeps own owned ties scope (o :: objs) log) (hr : .acquired r ∉ log)
    (hown : (owned o').Perm (r :: owned o)) {ons : List R}
    (hties : ∀ p, p ∈ ties o' ↔ p ∈ ties o ∨ p.1 = r ∧ p.2 ∈ ons) :
    Keeps own owned ties scope (o' :: objs) (log ++ .acquired r :: ons.map (.tied r)) where
  account := by
    have ha : Account own (r :: (o :: objs).flatMap owned) (log ++ [.acquired r]) :=
      k.account.acquire hr
    have hperm : (r :: (o :: objs).flatMap owned).Perm ((o' :: objs).flatMap owned) := by
      rw [List.flatMap_cons, List.flatMap_cons]
      exact (hown.append_right (objs.flatMap owned)).symm
    have hmore : ∀ (ons : List R) (l : List (Item R C)),
        Account own ((o' :: objs).flatMap owned) l →
        Account own ((o' :: objs).flatMap owned) (l ++ ons.map (.tied r)) := by
      intro ons
      induction ons with
      | nil => exact fun l h => by simpa using h
      | cons on ons ih =>
        intro l h
        have := ih _ (h.tied r on)
        rwa [List.append_assoc, List.singleton_append] at this
    have := hmore ons _ (ha.perm hperm)
    rwa [List.append_assoc, List.singleton_append] at this
  known r' on hon hr' := by
    rcases List.mem_append.mp hr' with hold | hnew
    · rcases k.known r' on hon hold with hrel | ⟨o₁, ho₁, hp⟩
      · exact Or.inl (by simp [hrel])
      · rcases List.mem_cons.mp ho₁ with rfl | ho₁
        · exact Or.inr ⟨o', List.mem_cons_self, (hties _).mpr (Or.inl hp)⟩
        · exact Or.inr ⟨o₁, List.mem_cons_of_mem _ ho₁, hp⟩
    · obtain ⟨hmem, rfl⟩ : on ∈ ons ∧ r' = r := by simpa [eq_comm] using hnew
      exact Or.inr ⟨o', List.mem_cons_self, (hties _).mpr (Or.inr ⟨rfl, hmem⟩)⟩
  told o₁ ho₁ r' on hp := by
    rcases List.mem_cons.mp ho₁ with rfl | ho₁
    · rcases (hties _).mp hp with hold | ⟨rfl, hon⟩
      · obtain ⟨hmem, hlog⟩ := k.told o List.mem_cons_self r' on hold
        exact ⟨hown.mem_iff.mpr (List.mem_cons_of_mem _ hmem), List.mem_append_left _ hlog⟩
      · refine ⟨hown.mem_iff.mpr List.mem_cons_self, List.mem_append_right _ ?_⟩
        exact List.mem_cons_of_mem _ (List.mem_map.mpr ⟨on, hon, rfl⟩)
    · obtain ⟨hmem, hlog⟩ := k.told o₁ (List.mem_cons_of_mem _ ho₁) r' on hp
      exact ⟨hmem, List.mem_append_left _ hlog⟩

/-- Ties to what is not in the scope do not matter. -/
theorem tie (k : Keeps own owned ties scope objs log) (hon : ¬ scope on) :
    Keeps own owned ties scope objs (log ++ [.tied r on]) where
  account := k.account.tied r on
  known r' on' hon' hr' := by
    rcases List.mem_append.mp hr' with hold | hnew
    · exact (k.known r' on' hon' hold).imp_left fun h => by simpa using h
    · obtain ⟨rfl, rfl⟩ : r' = r ∧ on' = on := by simpa using hnew
      exact absurd hon' hon
  told o ho r' on' hp := (k.told o ho r' on' hp).imp_right (List.mem_append_left _)

/-- Something comes and goes that nobody ever owned. -/
theorem pass (k : Keeps own owned ties scope objs log) (hr : .acquired r ∉ log) :
    Keeps own owned ties scope objs (log ++ [.acquired r] ++ giveBack own [r]) where
  account :=
    (show Account own ([r] ++ objs.flatMap owned) _ from k.account.acquire hr).giveBack
  known r' on hon hr' := by
    obtain hr' : .tied r' on ∈ log := by simpa using hr'
    exact (k.known r' on hon hr').imp_left fun h => by simp [h]
  told o ho r' on hp := (k.told o ho r' on hp).imp_right fun h =>
    List.mem_append_left _ (List.mem_append_left _ h)

/-- **An object goes**, with what it owns. -/
theorem destroy (k : Keeps own owned ties scope (o :: objs) log) (hrs : rs.Perm (owned o)) :
    Keeps own owned ties scope objs (log ++ giveBack own rs) where
  account := by
    refine Account.giveBack (k.account.perm ?_)
    rw [List.flatMap_cons]
    exact (hrs.append_right _).symm
  known r on hon hr := by
    obtain hr : .tied r on ∈ log := by simpa using hr
    rcases k.known r on hon hr with hrel | ⟨o', ho', hp⟩
    · exact Or.inl (by simp [hrel])
    · rcases List.mem_cons.mp ho' with rfl | ho'
      · have hmem := (k.told o' List.mem_cons_self r on hp).1
        have hback := releases_giveBack own (hrs.mem_iff.mpr hmem)
        exact Or.inl (by simp [hback])
      · exact Or.inr ⟨o', ho', hp⟩
  told o' ho' r on hp :=
    (k.told o' (List.mem_cons_of_mem _ ho') r on hp).imp_right (List.mem_append_left _)

/-- No two objects own the same. -/
theorem not_owned (k : Keeps own owned ties scope (o :: objs) log) (ho' : o' ∈ objs)
    (hr : r ∈ owned o) : r ∉ owned o' := by
  have hnodup := k.account.nodup
  rw [List.flatMap_cons, List.nodup_append] at hnodup
  exact fun hr' => hnodup.2.2 r hr r (List.mem_flatMap.mpr ⟨o', ho', hr'⟩) rfl

/-- **In order exactly if nobody else needs it.** What is tied to something the object owns, through
the object, goes before it. -/
theorem ordered_destroy_iff (k : Keeps own owned ties scope (o :: objs) log)
    (hrs : rs.Perm (owned o))
    (hin : ∀ r on, (r, on) ∈ ties o → on ∈ rs → ∃ pre post, rs = pre ++ on :: post ∧ r ∈ pre) :
    Ordered scope (log ++ giveBack own rs) ↔ Ordered scope log ∧
      ∀ on ∈ rs, scope on → ∀ o' ∈ objs, ∀ r, (r, on) ∉ ties o' := by
  constructor
  · refine fun h => ⟨h.of_append, fun on hon hscope o' ho' r hp => ?_⟩
    obtain ⟨pre, post, he⟩ := List.append_of_mem hon
    obtain ⟨hmem, hlog⟩ := k.told o' (List.mem_cons_of_mem _ ho') r on hp
    have hnot : r ∉ pre := fun hm =>
      k.not_owned ho' (hrs.mem_iff.mp (by simp [he, hm])) hmem
    refine h (log ++ giveBack own pre) (own on) on (giveBack own post) ?_ hscope r
      (List.mem_append_left _ hlog) ?_
    · rw [he, giveBack, List.map_append, List.map_cons, List.append_assoc]
      rfl
    · have hkept := k.account.kept r (List.mem_flatMap.mpr ⟨o', List.mem_cons_of_mem _ ho', hmem⟩)
      rw [releases_append, hkept, List.nil_append]
      refine List.eq_nil_iff_forall_not_mem.mpr fun c hc => hnot ?_
      obtain ⟨r', hr', heq⟩ := List.mem_map.mp (mem_releases.mp hc)
      cases heq
      exact hr'
  · rintro ⟨ho, hout⟩
    have hnodup : rs.Nodup := by
      have hall := k.account.nodup
      rw [List.flatMap_cons] at hall
      exact hrs.nodup_iff.mpr hall.of_append_left
    refine ho.giveBack fun pre on post he hon r hr => ?_
    refine (k.known r on hon hr).imp_right fun ⟨o', ho', hp⟩ => ?_
    have hmem : on ∈ rs := by simp [he]
    rcases List.mem_cons.mp ho' with rfl | ho'
    · obtain ⟨pre', post', he', hr'⟩ := hin r on hp hmem
      rw [he'] at hnodup he
      -- where it stands is told by what it is
      rw [List.nodup_middle, List.nodup_cons, List.mem_append, not_or] at hnodup
      obtain ⟨rfl, -⟩ := (List.append_cons_inj_of_notMem hnodup.1.1 hnodup.1.2).mp he
      exact hr'
    · exact absurd hp (hout on hmem hon o' ho' r)

end Keeps

end Ledger

end EfaExamples
