import Mathlib.Data.List.Forall2
/-!
# Matching by counting

A search that is made once for each of `n` keys, that finds at most one item
for each, and that finds `n` items in all has found one for each. Two lists
matched item by item are taken apart at their ends.
-/

namespace EfaExamples

variable {α β : Type} {f : α → List β} {l : List α}

/-- Searches that find at most one item each find no more than there are. -/
theorem length_flatMap_le (hf : ∀ a ∈ l, (f a).length ≤ 1) : (l.flatMap f).length ≤ l.length := by
  induction l with
  | nil => simp
  | cons a l ih =>
    have ha := hf a List.mem_cons_self
    have hl := ih fun b hb => hf b (List.mem_cons_of_mem _ hb)
    rw [List.flatMap_cons, List.length_append, List.length_cons]
    omega

/-- **If as many are found as are sought, each search finds one.** -/
theorem forall₂_flatMap (hf : ∀ a ∈ l, (f a).length ≤ 1)
    (hlen : (l.flatMap f).length = l.length) :
    List.Forall₂ (fun a b => f a = [b]) l (l.flatMap f) := by
  induction l with
  | nil => exact List.Forall₂.nil
  | cons a l ih =>
    have ha := hf a List.mem_cons_self
    have hrest : ∀ b ∈ l, (f b).length ≤ 1 := fun b hb => hf b (List.mem_cons_of_mem _ hb)
    have hle := length_flatMap_le hrest
    rw [List.flatMap_cons, List.length_append, List.length_cons] at hlen
    obtain ⟨b, hb⟩ : ∃ b, f a = [b] := List.length_eq_one_iff.mp (by omega)
    rw [List.flatMap_cons, hb]
    exact List.Forall₂.cons hb (ih hrest (by omega))

/-- **Pieces of the same lengths are told apart by what they make up.** -/
theorem flatMap_eq_iff_of_length {g : α → List β} (hlen : ∀ a ∈ l, (f a).length = (g a).length) :
    l.flatMap f = l.flatMap g ↔ ∀ a ∈ l, f a = g a := by
  induction l with
  | nil => simp
  | cons a l ih =>
    rw [List.flatMap_cons, List.flatMap_cons, List.forall_mem_cons,
      ← ih fun b hb => hlen b (List.mem_cons_of_mem _ hb)]
    constructor
    · exact fun h => List.append_inj h (hlen a List.mem_cons_self)
    · rintro ⟨ha, hl⟩
      rw [ha, hl]

/-- A list without repetitions that is its own reverse has no second item. -/
theorem length_le_one_of_reverse_eq (hn : l.Nodup) (hr : l.reverse = l) : l.length ≤ 1 := by
  by_contra hlt
  have hget := congrArg (·[0]?) hr
  simp only [List.getElem?_reverse (show 0 < l.length by omega)] at hget
  have := (List.getElem?_inj (by omega) hn).mp hget
  omega

/-- A list of one item at most has one member at most. -/
theorem eq_of_length_le_one {a b : α} (hl : l.length ≤ 1) (ha : a ∈ l) (hb : b ∈ l) : a = b := by
  obtain ⟨i, hi, rfl⟩ := List.getElem_of_mem ha
  obtain ⟨j, hj, rfl⟩ := List.getElem_of_mem hb
  obtain rfl : i = j := by omega
  rfl

/-- Two lists of one length whose members are all the same are the same. -/
theorem eq_of_forall_mem_eq {u : List α} (hlen : l.length = u.length)
    (h : ∀ a ∈ l, ∀ b ∈ u, a = b) : l = u :=
  List.ext_getElem hlen fun _ hi hj => h _ (List.getElem_mem hi) _ (List.getElem_mem hj)

/-- A search through a list in which no two items share a key, for one key,
finds at most one. -/
theorem length_filter_le_one {κ : Type} {key : β → κ} {p : β → Bool} {k : κ} {l : List β}
    (hl : (l.map key).Nodup) (hp : ∀ b, p b = true → key b = k) : (l.filter p).length ≤ 1 := by
  have hn : ((l.filter p).map key).Nodup := hl.sublist (List.filter_sublist.map key)
  rcases hf : l.filter p with _ | ⟨b, _ | ⟨c, rest⟩⟩
  · simp
  · simp
  · have hb := hp b (List.mem_filter.mp (hf ▸ List.mem_cons_self)).2
    have hc := hp c (List.mem_filter.mp (hf ▸ List.mem_cons_of_mem _ List.mem_cons_self)).2
    rw [hf, List.map_cons, List.map_cons, hb, hc] at hn
    simp at hn

/-- Two lists are matched if their last items are, and what comes before them. -/
theorem forall₂_concat {R : α → β → Prop} {u : List β} {a : α} {b : β} :
    List.Forall₂ R (l ++ [a]) (u ++ [b]) ↔ List.Forall₂ R l u ∧ R a b := by
  rw [← List.forall₂_reverse_iff, List.reverse_append, List.reverse_append]
  simp [and_comm]

/-- A match with a list that has a last item. -/
theorem forall₂_concat_left {R : α → β → Prop} {u : List β} {a : α} :
    List.Forall₂ R (l ++ [a]) u ↔ ∃ u' b, u = u' ++ [b] ∧ List.Forall₂ R l u' ∧ R a b := by
  constructor
  · intro h
    rcases List.eq_nil_or_concat u with rfl | ⟨u', b, rfl⟩
    · simp at h
    · rw [List.concat_eq_append] at h ⊢
      exact ⟨u', b, rfl, forall₂_concat.mp h⟩
  · rintro ⟨u', b, rfl, h⟩
    exact forall₂_concat.mpr h

/-- What implies the match may use where the items come from. -/
theorem forall₂_imp_of_mem {R S : α → β → Prop} {u : List β} (h : List.Forall₂ R l u)
    (himp : ∀ a ∈ l, ∀ b, R a b → S a b) : List.Forall₂ S l u :=
  ((List.forall₂_and_left _ _).mpr ⟨fun _ => id, h⟩).imp fun a b hab => himp a hab.1 b hab.2

/-- Each item of a match is matched. -/
theorem exists_of_forall₂_right {R : α → β → Prop} {u : List β} {b : β}
    (h : List.Forall₂ R l u) (hb : b ∈ u) : ∃ a ∈ l, R a b := by
  induction h with
  | nil => cases hb
  | cons hab hrest ih => grind

theorem exists_of_forall₂_left {R : α → β → Prop} {u : List β} {a : α}
    (h : List.Forall₂ R l u) (ha : a ∈ l) : ∃ b ∈ u, R a b := by
  induction h with
  | nil => cases ha
  | cons hab hrest ih => grind

/-- Of matched lists, one has what each pair of the other implies. -/
theorem pairwise_of_forall₂ {R : α → β → Prop} {S : α → α → Prop} {T : β → β → Prop} {u : List β}
    (h : List.Forall₂ R l u) (hl : l.Pairwise S)
    (himp : ∀ a a' b b', R a b → R a' b' → S a a' → T b b') : u.Pairwise T := by
  induction h with
  | nil => exact List.Pairwise.nil
  | cons hab hrest ih =>
    rw [List.pairwise_cons] at hl ⊢
    refine ⟨fun b' hb' => ?_, ih hl.2⟩
    obtain ⟨a', ha', hr⟩ := exists_of_forall₂_right hrest hb'
    exact himp _ _ _ _ hab hr (hl.1 a' ha')

end EfaExamples
