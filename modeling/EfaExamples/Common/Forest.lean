import Mathlib.Data.List.Basic
import Mathlib.Data.Nat.Notation
import Mathlib.Data.Set.Basic
import Mathlib.Logic.Relation
import Mathlib.Tactic.TypeStar
/-!
# Forests of owners

Of everything that is there a forest says by whom it was made, what it holds
itself, and whether it has ended. What is destroyed takes with it what it
holds (`prune`). `Owned` says that nothing is held but by its maker, and that
whatever is not held is at large or about to go. Making, moving away,
destroying and ending keep it (`Owned.grow`, `Owned.move`, `Owned.destroy`,
`Owned.finish`), and whatever is there hangs under one at large
(`Owned.hangs`).
-/

namespace EfaExamples

/-- Who made it, if anyone did, what it holds, and whether it has ended. -/
structure Owner (α : Type*) where
  maker : Option α
  held : List α
  ended : Bool

/-- A forest of owners. -/
abbrev Forest (α : Type*) := α → Option (Owner α)

namespace Forest

variable {α : Type*}

/-- `a` holds `d`. -/
def Holds (F : Forest α) (a d : α) : Prop := ∃ o, F a = some o ∧ d ∈ o.held

/-- **Whatever is held has the greater rank**, and none reaches the bound. -/
structure Ranked (rank : α → ℕ) (B : ℕ) (F : Forest α) : Prop where
  bound : ∀ a o, F a = some o → rank a < B
  held : ∀ a o, F a = some o → ∀ d ∈ o.held, rank a < rank d

/-- **Nothing is held but by its maker**, once and not after its end, and whatever is not held is
at large or among those about to go. -/
structure Owned (large : Set α) (going : List α) (F : Forest α) : Prop where
  maker : ∀ a o, F a = some o → ∀ d ∈ o.held, ∃ od, F d = some od ∧ od.maker = some a
  staying : ∀ a o, F a = some o → ∀ d ∈ o.held, d ∉ going
  nodup : ∀ a o, F a = some o → o.held.Nodup
  nodup_going : going.Nodup
  ended : ∀ a o, F a = some o → o.ended = true → o.held = []
  held : ∀ d od, F d = some od → d ∈ large ∨ d ∈ going ∨ ∃ a, F.Holds a d

variable {F F' : Forest α} {a d : α} {o : Owner α} {f : Owner α → Owner α}
variable {rank : α → ℕ} {B n : ℕ} {large : Set α} {going ds : List α}

/-- Of what is left the ranks are the same. -/
theorem Ranked.of_eq (hr : Ranked rank B F) (h : ∀ i o, F' i = some o → F i = some o) :
    Ranked rank B F' :=
  ⟨fun a o ho => hr.bound a o (h a o ho), fun a o ho => hr.held a o (h a o ho)⟩

namespace Owned

/-- Only one holds it. -/
theorem eq_of_held {b : α} {o' : Owner α} (ho : Owned large going F) (ha : F a = some o)
    (hb : F b = some o') (hda : d ∈ o.held) (hdb : d ∈ o'.held) : a = b := by
  obtain ⟨od, hd, hm⟩ := ho.maker a o ha d hda
  obtain ⟨od', hd', hm'⟩ := ho.maker b o' hb d hdb
  obtain rfl := Option.some.inj (hd.symm.trans hd')
  exact Option.some.inj (hm.symm.trans hm')

/-- More may be at large. -/
theorem mono {large' : Set α} (ho : Owned large going F) (h : large ⊆ large') :
    Owned large' going F :=
  { ho with held := fun d od hd => (ho.held d od hd).imp_left fun hl => h hl }

/-- What was to go has gone. -/
theorem tail (ho : Owned large (a :: going) F) (ha : F a = none) : Owned large going F where
  maker := ho.maker
  staying b o hb d hd hg := ho.staying b o hb d hd (List.mem_cons_of_mem _ hg)
  nodup := ho.nodup
  nodup_going := ho.nodup_going.of_cons
  ended := ho.ended
  held d od hd := by
    rcases ho.held d od hd with hl | hg | hh
    · exact Or.inl hl
    · rcases List.mem_cons.mp hg with rfl | hg
      · rw [ha] at hd
        cases hd
      · exact Or.inr (Or.inl hg)
    · exact Or.inr (Or.inr hh)

/-- **Whatever is there hangs under one at large**: it is held, and so is its maker. -/
theorem hangs (hr : Ranked rank B F) (ho : Owned large [] F) : ∀ (d : α) (od : Owner α),
    F d = some od → ∃ r ∈ large, Relation.ReflTransGen F.Holds r d := by
  intro d
  induction hm : rank d using Nat.strong_induction_on generalizing d with
  | _ m ih =>
    intro od hd
    rcases ho.held d od hd with hl | hg | ⟨a, o, ha, hh⟩
    · exact ⟨d, hl, .refl⟩
    · cases hg
    · obtain ⟨r, hroot, hpath⟩ := ih (rank a) (hm ▸ hr.held a o ha d hh) a rfl o ha
      exact ⟨r, hroot, hpath.tail ⟨o, ha, hh⟩⟩

end Owned

variable [DecidableEq α]

/-- `a` is written to. -/
def write (F : Forest α) (a : α) (f : Owner α → Owner α) : Forest α := fun i =>
  if i = a then (F i).map f else F i

def erase (F : Forest α) (a : α) : Forest α := fun i => if i = a then none else F i

/-- `a` makes `d`, and holds it. -/
def grow (F : Forest α) (a d : α) : Forest α :=
  write (fun i => if i = d then some ⟨some a, [], false⟩ else F i) a fun o =>
    { o with held := d :: o.held }

/-- `a` lets go of `d`. -/
def drop (F : Forest α) (a d : α) : Forest α :=
  F.write a fun o => { o with held := o.held.filter (· ≠ d) }

/-- `a` ends, holding nothing. -/
def close (F : Forest α) (a : α) : Forest α :=
  F.write a fun o => { o with held := [], ended := true }

/-- `a` is destroyed, and then what it held in turn, which `fuel` bounds the depth of. -/
def prune : ℕ → α → Forest α → Forest α
  | 0, a, F => F.erase a
  | fuel + 1, a, F =>
    match F a with
    | none => F
    | some o => o.held.foldl (fun F d => prune fuel d F) (F.erase a)

/-- Several are destroyed one after another. -/
def pruneAll (fuel : ℕ) (ds : List α) (F : Forest α) : Forest α :=
  ds.foldl (fun F d => prune fuel d F) F

/-! ## What is left -/

theorem erase_eq_some : F.erase a d = some o ↔ d ≠ a ∧ F d = some o := by
  rw [erase]
  split
  · simp [*]
  · simp [*]

theorem write_eq_some :
    F.write a f d = some o ↔
      (d = a ∧ ∃ o₀, F a = some o₀ ∧ o = f o₀) ∨
        (d ≠ a ∧ F d = some o) := by
  rw [write]
  split
  · rename_i h
    subst h
    simp only [Option.map_eq_some_iff, true_and, ne_eq, not_true, false_and, or_false]
    exact ⟨fun ⟨o₀, h₀, h⟩ => ⟨o₀, h₀, h.symm⟩, fun ⟨o₀, h₀, h⟩ => ⟨o₀, h₀, h.symm⟩⟩
  · simp [*]

/-- Destruction only erases. -/
theorem eq_of_pruneAll (n : ℕ) : ∀ (ds : List α) (F : Forest α) (i : α) (o : Owner α),
    F.pruneAll n ds i = some o → F i = some o := by
  induction n with
  | zero =>
    intro ds
    induction ds with
    | nil => exact fun F i o h => h
    | cons d ds ih => exact fun F i o h => (erase_eq_some.mp (ih _ i o h)).2
  | succ n ih =>
    intro ds
    induction ds with
    | nil => exact fun F i o h => h
    | cons d ds ihd =>
      intro F i o h
      have h : F.prune (n + 1) d i = some o := ihd _ i o h
      rw [prune] at h
      cases hd : F d with
      | none =>
        simp only [hd] at h
        exact h
      | some od =>
        simp only [hd] at h
        exact (erase_eq_some.mp (ih od.held _ i o h)).2

namespace Ranked

theorem prune (hr : Ranked rank B F) : Ranked rank B (F.prune n a) :=
  hr.of_eq (eq_of_pruneAll n [a] F)

theorem erase (hr : Ranked rank B F) : Ranked rank B (F.erase a) :=
  hr.of_eq fun _ _ h => (erase_eq_some.mp h).2

/-- Nor does it matter that something is let go. -/
theorem write (hr : Ranked rank B F) (hf : ∀ o, F a = some o → (f o).held ⊆ o.held) :
    Ranked rank B (F.write a f) where
  bound b o hb := by
    rcases write_eq_some.mp hb with ⟨rfl, o₀, h₀, rfl⟩ | ⟨-, hb⟩
    · exact hr.bound b o₀ h₀
    · exact hr.bound b o hb
  held b o hb d hd := by
    rcases write_eq_some.mp hb with ⟨rfl, o₀, h₀, rfl⟩ | ⟨-, hb⟩
    · exact hr.held b o₀ h₀ d (hf o₀ h₀ hd)
    · exact hr.held b o hb d hd

end Ranked

/-! ## Destruction and writing -/

theorem erase_write (h : a ≠ d) : (F.write d f).erase a = (F.erase a).write d f := by
  funext i
  rw [erase, write, write, erase]
  split
  · rename_i hi
    rw [hi, if_neg h]
  · rfl

/-- **The destruction of what ranks above `d` does not read what `d` holds**: it may as well be
written to before. -/
theorem pruneAll_write (n : ℕ) : ∀ (ds : List α) (F : Forest α), Ranked rank B F →
    (∀ e ∈ ds, rank d < rank e) → (F.write d f).pruneAll n ds = (F.pruneAll n ds).write d f := by
  induction n with
  | zero =>
    intro ds
    induction ds with
    | nil => exact fun _ _ _ => rfl
    | cons e ds ih =>
      intro F hr hds
      have hne : e ≠ d := fun h => lt_irrefl _ (h ▸ hds e List.mem_cons_self)
      have hstep : (F.write d f).prune 0 e = (F.prune 0 e).write d f := erase_write hne
      rw [pruneAll, List.foldl_cons, hstep]
      exact ih _ hr.prune fun e' he' => hds e' (List.mem_cons_of_mem _ he')
  | succ n ih =>
    intro ds
    induction ds with
    | nil => exact fun _ _ _ => rfl
    | cons e ds ihd =>
      intro F hr hds
      have hlt := hds e List.mem_cons_self
      have hne : e ≠ d := fun h => lt_irrefl _ (h ▸ hlt)
      have hstep : (F.write d f).prune (n + 1) e = (F.prune (n + 1) e).write d f := by
        rw [prune, prune, show F.write d f e = F e from if_neg hne]
        cases he : F e with
        | none => rfl
        | some o =>
          simp only [erase_write hne]
          exact ih o.held _ hr.erase fun e' he' => lt_trans hlt (hr.held e o he e' he')
      rw [pruneAll, List.foldl_cons, hstep]
      exact ihd _ hr.prune fun e' he' => hds e' (List.mem_cons_of_mem _ he')

/-! ## What keeps the ownership -/

namespace Owned

/-- `a` goes, and what it holds is to go in its place. -/
theorem erase (ho : Owned large (a :: going) F) (ha : F a = some o) :
    Owned large (o.held ++ going) (F.erase a) where
  maker b ob hb d hd := by
    obtain ⟨hne, hb⟩ := erase_eq_some.mp hb
    obtain ⟨od, hFd, hm⟩ := ho.maker b ob hb d hd
    refine ⟨od, erase_eq_some.mpr ⟨fun hda => ?_, hFd⟩, hm⟩
    exact ho.staying b ob hb d hd (by rw [hda]; exact List.mem_cons_self)
  staying b ob hb d hd hg := by
    obtain ⟨hne, hb⟩ := erase_eq_some.mp hb
    rcases List.mem_append.mp hg with hg | hg
    · exact hne (ho.eq_of_held hb ha hd hg)
    · exact ho.staying b ob hb d hd (List.mem_cons_of_mem _ hg)
  nodup b ob hb := ho.nodup b ob (erase_eq_some.mp hb).2
  nodup_going := List.nodup_append.mpr ⟨ho.nodup a o ha, ho.nodup_going.of_cons,
    fun d hd e he hde => ho.staying a o ha d hd (by rw [hde]; exact List.mem_cons_of_mem _ he)⟩
  ended b ob hb := ho.ended b ob (erase_eq_some.mp hb).2
  held d od hd := by
    obtain ⟨hne, hd⟩ := erase_eq_some.mp hd
    rcases ho.held d od hd with hl | hg | ⟨b, ob, hb, hh⟩
    · exact Or.inl hl
    · rcases List.mem_cons.mp hg with rfl | hg
      · exact absurd rfl hne
      · exact Or.inr (Or.inl (List.mem_append_right _ hg))
    · by_cases hba : b = a
      · subst hba
        obtain rfl := Option.some.inj (hb.symm.trans ha)
        exact Or.inr (Or.inl (List.mem_append_left _ hh))
      · exact Or.inr (Or.inr ⟨b, ob, erase_eq_some.mpr ⟨hba, hb⟩, hh⟩)

/-- **Destruction keeps the ownership**: what was to go goes, with all that it holds. -/
theorem pruneAll (n : ℕ) : ∀ (ds going : List α) (F : Forest α), Ranked rank B F →
    (∀ d ∈ ds, B ≤ rank d + n) → Owned large (ds ++ going) F →
    Owned large going (F.pruneAll n ds) := by
  induction n with
  | zero =>
    intro ds
    induction ds with
    | nil => exact fun _ _ _ _ ho => ho
    | cons d ds ih =>
      intro going F hr hn ho
      have hd : F d = none := Option.eq_none_iff_forall_ne_some.mpr fun o h => by
        have := hr.bound d o h
        have := hn d List.mem_cons_self
        omega
      have herase : F.erase d = F := funext fun i => by
        by_cases hi : i = d
        · rw [hi, hd]
          exact if_pos rfl
        · exact if_neg hi
      have hstep : F.prune 0 d = F := herase
      rw [Forest.pruneAll, List.foldl_cons, hstep]
      exact ih going F hr (fun e he => hn e (List.mem_cons_of_mem _ he)) (ho.tail hd)
  | succ n ih =>
    intro ds
    induction ds with
    | nil => exact fun _ _ _ _ ho => ho
    | cons d ds ihd =>
      intro going F hr hn ho
      refine ihd going (F.prune (n + 1) d) hr.prune
        (fun e he => hn e (List.mem_cons_of_mem _ he)) ?_
      rw [Forest.prune]
      cases hd : F d with
      | none => exact ho.tail hd
      | some o =>
        -- what `d` held is to go next
        refine ih o.held (ds ++ going) _ hr.erase (fun e he => ?_) (ho.erase hd)
        have := hr.held d o hd e he
        have := hn d List.mem_cons_self
        omega

/-- `a` lets go of some of what it holds, of all if it ends: they are at large, or to go. -/
theorem shrink {large' : Set α} {going' : List α} (ho : Owned large [] F) (ha : F a = some o)
    (hl : large ⊆ large') (hmaker : (f o).maker = o.maker) (hf : (f o).held.Sublist o.held)
    (hended : (f o).ended = true → (f o).held = [])
    (hout : ∀ e ∈ o.held, e ∈ (f o).held ∨ e ∈ large' ∨ e ∈ going')
    (hgoing : ∀ e ∈ going', e ∈ o.held ∧ e ∉ (f o).held) (hn : going'.Nodup) :
    Owned large' going' (F.write a f) where
  maker b ob hb e he := by
    -- whoever holds `e` held it before
    have hold : ∃ ob', F b = some ob' ∧ e ∈ ob'.held := by
      rcases write_eq_some.mp hb with ⟨rfl, o₀, h₀, rfl⟩ | ⟨-, hb⟩
      · obtain rfl := Option.some.inj (ha.symm.trans h₀)
        exact ⟨o, ha, hf.subset he⟩
      · exact ⟨ob, hb, he⟩
    obtain ⟨ob', hb', he'⟩ := hold
    obtain ⟨oe, hFe, hm⟩ := ho.maker b ob' hb' e he'
    by_cases hea : e = a
    · subst hea
      obtain rfl := Option.some.inj (ha.symm.trans hFe)
      exact ⟨_, write_eq_some.mpr (Or.inl ⟨rfl, o, ha, rfl⟩), hmaker.trans hm⟩
    · exact ⟨oe, write_eq_some.mpr (Or.inr ⟨hea, hFe⟩), hm⟩
  staying b ob hb e he hg := by
    obtain ⟨hea, hef⟩ := hgoing e hg
    rcases write_eq_some.mp hb with ⟨rfl, o₀, h₀, rfl⟩ | ⟨hne, hb⟩
    · obtain rfl := Option.some.inj (ha.symm.trans h₀)
      exact hef he
    · exact hne (ho.eq_of_held hb ha he hea)
  nodup b ob hb := by
    rcases write_eq_some.mp hb with ⟨rfl, o₀, h₀, rfl⟩ | ⟨-, hb⟩
    · obtain rfl := Option.some.inj (ha.symm.trans h₀)
      exact (ho.nodup b o ha).sublist hf
    · exact ho.nodup b ob hb
  nodup_going := hn
  ended b ob hb he := by
    rcases write_eq_some.mp hb with ⟨rfl, o₀, h₀, rfl⟩ | ⟨-, hb⟩
    · obtain rfl := Option.some.inj (ha.symm.trans h₀)
      exact hended he
    · exact ho.ended b ob hb he
  held e oe he := by
    have hFe : ∃ oe', F e = some oe' := by
      rcases write_eq_some.mp he with ⟨rfl, o₀, h₀, -⟩ | ⟨-, he⟩
      · exact ⟨o₀, h₀⟩
      · exact ⟨oe, he⟩
    obtain ⟨oe', hFe⟩ := hFe
    rcases ho.held e oe' hFe with hlarge | hg | ⟨b, ob, hb, hh⟩
    · exact Or.inl (hl hlarge)
    · cases hg
    · by_cases hba : b = a
      · subst hba
        obtain rfl := Option.some.inj (ha.symm.trans hb)
        rcases hout e hh with hef | hlarge | hg
        · exact Or.inr (Or.inr ⟨b, _, write_eq_some.mpr (Or.inl ⟨rfl, o, ha, rfl⟩), hef⟩)
        · exact Or.inl hlarge
        · exact Or.inr (Or.inl hg)
      · exact Or.inr (Or.inr ⟨b, ob, write_eq_some.mpr (Or.inr ⟨hba, hb⟩), hh⟩)

/-- `a` moves `d` away. -/
theorem move (ho : Owned large [] F) (ha : F a = some o) (hd : d ∈ large) :
    Owned large [] (F.drop a d) := by
  refine ho.shrink ha (fun _ => id) rfl List.filter_sublist (fun hend => ?_) (fun e he => ?_)
    (fun e he => (List.not_mem_nil he).elim) List.nodup_nil
  · show o.held.filter _ = []
    rw [ho.ended a o ha hend]
    rfl
  · by_cases hed : e = d
    · exact Or.inr (Or.inl (by rw [hed]; exact hd))
    · exact Or.inl (List.mem_filter.mpr ⟨he, by simpa using hed⟩)

/-- **`a` destroys `d`**, which it holds. -/
theorem destroy (hr : Ranked rank B F) (ho : Owned large [] F) (ha : F a = some o)
    (hd : d ∈ o.held) (hn : B ≤ rank d + n) : Owned large [] ((F.drop a d).prune n d) := by
  have hdrop : Owned large [d] (F.drop a d) := by
    refine ho.shrink ha (fun _ => id) rfl List.filter_sublist (fun hend => ?_) (fun e he => ?_)
      (fun e he => ?_) (by simp)
    · show o.held.filter _ = []
      rw [ho.ended a o ha hend]
      rfl
    · by_cases hed : e = d
      · exact Or.inr (Or.inr (List.mem_singleton.mpr hed))
      · exact Or.inl (List.mem_filter.mpr ⟨he, by simpa using hed⟩)
    · rw [List.mem_singleton.mp he]
      exact ⟨hd, by simp⟩
  refine pruneAll n [d] [] (F.drop a d) (hr.write fun _ _ => List.filter_subset_self _) ?_ hdrop
  exact fun e he => by rw [List.mem_singleton.mp he]; exact hn

/-- **`a` ends**, and what it holds is destroyed. -/
theorem finish (hr : Ranked rank B F) (ho : Owned large [] F) (ha : F a = some o)
    (hn : ∀ d ∈ o.held, B ≤ rank d + n) : Owned large [] ((F.pruneAll n o.held).close a) := by
  have hclose : Owned large (o.held ++ []) (F.close a) := by
    rw [List.append_nil]
    exact ho.shrink ha (fun _ => id) rfl (List.nil_sublist _) (fun _ => rfl)
      (fun e he => Or.inr (Or.inr he)) (fun e he => ⟨he, List.not_mem_nil⟩) (ho.nodup a o ha)
  -- what it holds ranks above it, so it may as well end before
  rw [close, ← pruneAll_write n o.held F hr (hr.held a o ha)]
  exact pruneAll n o.held [] (F.close a) (hr.write fun _ _ => List.nil_subset _) hn hclose

/-- `a` makes `d`, and holds it. -/
theorem grow (ho : Owned large [] F) (ha : F a = some o) (hopen : o.ended = false)
    (hd : F d = none) : Owned large [] (F.grow a d) := by
  have hda : d ≠ a := by
    rintro rfl
    rw [hd] at ha
    cases ha
  -- whoever is there is `d`, or was there and holds what it held, but `a` also `d`
  have hcases : ∀ b ob, F.grow a d b = some ob →
      (b = d ∧ ob = ⟨some a, [], false⟩) ∨ (b = a ∧ ob = { o with held := d :: o.held }) ∨
        (b ≠ d ∧ b ≠ a ∧ F b = some ob) := by
    intro b ob hb
    rw [Forest.grow] at hb
    rcases write_eq_some.mp hb with ⟨rfl, o₀, h₀, rfl⟩ | ⟨hba, hb⟩
    · rw [if_neg (Ne.symm hda)] at h₀
      obtain rfl := Option.some.inj (ha.symm.trans h₀)
      exact Or.inr (Or.inl ⟨rfl, rfl⟩)
    · split at hb
      · rename_i hbd
        exact Or.inl ⟨hbd, (Option.some.inj hb).symm⟩
      · rename_i hbd
        exact Or.inr (Or.inr ⟨hbd, hba, hb⟩)
  have hself : F.grow a d a = some { o with held := d :: o.held } :=
    write_eq_some.mpr (Or.inl ⟨rfl, o, by rw [if_neg (Ne.symm hda)]; exact ha, rfl⟩)
  have hnew : F.grow a d d = some ⟨some a, [], false⟩ :=
    write_eq_some.mpr (Or.inr ⟨hda, if_pos rfl⟩)
  have hothers : ∀ b ob, b ≠ a → F b = some ob → F.grow a d b = some ob := fun b ob hba hb =>
    write_eq_some.mpr (Or.inr ⟨hba, by
      rw [if_neg]
      · exact hb
      · rintro rfl
        rw [hd] at hb
        cases hb⟩)
  have hmaker : ∀ e oe b, F e = some oe → oe.maker = some b →
      ∃ oe', F.grow a d e = some oe' ∧ oe'.maker = some b := by
    intro e oe b he hm
    by_cases hea : e = a
    · subst hea
      obtain rfl := Option.some.inj (ha.symm.trans he)
      exact ⟨_, hself, hm⟩
    · exact ⟨oe, hothers e oe hea he, hm⟩
  have hnot : ∀ b ob, F b = some ob → d ∉ ob.held := fun b ob hb hmem => by
    obtain ⟨od, hFd, -⟩ := ho.maker b ob hb d hmem
    rw [hd] at hFd
    cases hFd
  refine ⟨fun b ob hb e he => ?_, fun _ _ _ _ _ hg => (List.not_mem_nil hg).elim,
    fun b ob hb => ?_, List.nodup_nil, fun b ob hb he => ?_, fun e oe he => ?_⟩
  · rcases hcases b ob hb with ⟨-, rfl⟩ | ⟨rfl, rfl⟩ | ⟨-, -, hb⟩
    · cases he
    · rcases List.mem_cons.mp he with rfl | he
      · exact ⟨_, hnew, rfl⟩
      · obtain ⟨oe, hFe, hm⟩ := ho.maker b o ha e he
        exact hmaker e oe b hFe hm
    · obtain ⟨oe, hFe, hm⟩ := ho.maker b ob hb e he
      exact hmaker e oe b hFe hm
  · rcases hcases b ob hb with ⟨-, rfl⟩ | ⟨rfl, rfl⟩ | ⟨-, -, hb⟩
    · exact List.nodup_nil
    · exact List.nodup_cons.mpr ⟨hnot b o ha, ho.nodup b o ha⟩
    · exact ho.nodup b ob hb
  · rcases hcases b ob hb with ⟨-, rfl⟩ | ⟨rfl, rfl⟩ | ⟨-, -, hb⟩
    · cases he
    · rw [show o.ended = true from he] at hopen
      cases hopen
    · exact ho.ended b ob hb he
  · -- whoever held something holds it still
    have hheld : ∀ oe', F e = some oe' →
        e ∈ large ∨ e ∈ ([] : List α) ∨ ∃ b, (F.grow a d).Holds b e := by
      intro oe' hFe
      refine (ho.held e oe' hFe).imp_right (Or.imp_right ?_)
      rintro ⟨b, ob, hb, hh⟩
      by_cases hba : b = a
      · subst hba
        obtain rfl := Option.some.inj (ha.symm.trans hb)
        exact ⟨b, _, hself, List.mem_cons_of_mem _ hh⟩
      · exact ⟨b, ob, hothers b ob hba hb, hh⟩
    rcases hcases e oe he with ⟨rfl, rfl⟩ | ⟨rfl, rfl⟩ | ⟨-, -, he⟩
    · exact Or.inr (Or.inr ⟨a, _, hself, List.mem_cons_self⟩)
    · exact hheld o ha
    · exact hheld oe he

end Owned

end Forest

end EfaExamples
