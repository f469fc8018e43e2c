import Mathlib.Data.List.Flatten
import Mathlib.Data.List.Infix
import EfaExamples.Gpuloc.Affinity
import EfaExamples.Gpuloc.Walk
/-!
# Places in the topology

What lies below an object is met in one piece, right after the object. So a
package that no package lies above or below is the one met last throughout the
piece, and what is below it is filed with it.
-/

namespace EfaExamples

namespace Obj

variable {skip : Bool} {l t : Obj} {above : List Obj} {v : Visit}

/-- The children in the order of the loops. With `skip`, without the PUs that are
passed over. -/
def children (skip : Bool) : Obj → List Obj
  | .mk _ memory normal io misc =>
    memory.filter (fun c => !(skip && c.type == .pu)) ++
      (normal.filter (fun c => !(skip && c.type == .pu)) ++ (io ++ misc))

theorem children_induction {P : Obj → Prop} (skip : Bool)
    (h : ∀ l : Obj, (∀ c ∈ l.children skip, P c) → P l) (l : Obj) : P l := by
  refine h l fun c hc => ?_
  have hlt : sizeOf c < sizeOf l := by
    rcases l with ⟨d, memory, normal, io, misc⟩
    simp only [children, List.mem_append, List.mem_filter] at hc
    rw [Obj.mk.sizeOf_spec]
    rcases hc with ⟨hc, -⟩ | ⟨hc, -⟩ | hc | hc
    all_goals
      have := List.sizeOf_lt_of_mem hc
      omega
  exact children_induction skip h c
termination_by sizeOf l

theorem visitsAll_eq (skipPU : Bool) (ls above : List Obj) : visitsAll skip skipPU ls above =
    (ls.filter fun c => !(skip && (skipPU && c.type == .pu))).flatMap (visits skip · above) := by
  induction ls with
  | nil => rfl
  | cons l rest ih =>
    rcases l with ⟨d, memory, normal, io, misc⟩
    rw [visitsAll, ih, List.filter_cons]
    cases hpu : skip && (skipPU && d.type == .pu) with
    | true => simp [type, data, hpu]
    | false => simp [type, data, hpu]

/-- An object, and its children with what is below them. -/
theorem visits_eq (l : Obj) (above : List Obj) : l.visits skip above =
    ⟨l, above⟩ :: (l.children skip).flatMap (visits skip · (l :: above)) := by
  rcases l with ⟨d, memory, normal, io, misc⟩
  rw [visits, visitsAll_eq, visitsAll_eq, visitsAll_eq, visitsAll_eq, children]
  simp

/-! ## What is met -/

theorem visits_sublist (l : Obj) (above : List Obj) :
    (l.visits true above).Sublist (l.visits false above) := by
  induction l using children_induction true generalizing above with
  | h l ih =>
    rw [visits_eq, visits_eq]
    refine List.Sublist.cons_cons _ ?_
    refine (List.Sublist.flatMap_right _ fun c hc => ih c hc _).trans (List.Sublist.flatMap ?_ _)
    rcases l with ⟨d, memory, normal, io, misc⟩
    simp only [children, Bool.false_and, Bool.not_false, List.filter_true]
    exact List.filter_sublist.append (List.filter_sublist.append (List.Sublist.refl _))

/-- What the walk meets is in the topology. -/
theorem reached_sublist (t : Obj) : t.reached.Sublist t.places := visits_sublist t []

/-- **What is below an object is met in one piece.** -/
theorem visits_infix (hv : v ∈ l.visits skip above) :
    v.obj.visits skip v.above <:+: l.visits skip above := by
  induction l using children_induction skip generalizing above with
  | h l ih =>
    rw [visits_eq] at hv
    rcases List.mem_cons.mp hv with rfl | hv
    · exact List.infix_refl _
    · obtain ⟨c, hc, hv⟩ := List.mem_flatMap.mp hv
      rw [visits_eq l]
      obtain ⟨before, after, hchildren⟩ := List.append_of_mem hc
      have hpiece : c.visits skip (l :: above) <:+:
          (l.children skip).flatMap (visits skip · (l :: above)) := by
        rw [hchildren, List.flatMap_append, List.flatMap_cons]
        exact List.infix_append' _ _ _
      exact ((ih c hc hv).trans hpiece).trans (List.suffix_cons _ _).isInfix

/-- What is met below `l` has `l` above it, and all in between is met as well. -/
theorem above_of_mem (hv : v ∈ l.visits skip above) : ∃ mid, v.above = mid ++ above ∧
    ∀ l₁ b l₂, mid = l₁ ++ b :: l₂ →
      ⟨b, l₂ ++ above⟩ ∈ l.visits skip above ∧ v ∈ b.visits skip (l₂ ++ above) := by
  induction l using children_induction skip generalizing above with
  | h l ih =>
    have hl := hv
    rw [visits_eq] at hl
    rcases List.mem_cons.mp hl with rfl | hl
    · exact ⟨[], rfl, by simp⟩
    · obtain ⟨c, hc, hvc⟩ := List.mem_flatMap.mp hl
      obtain ⟨mid, hmid, hbetween⟩ := ih c hc hvc
      refine ⟨mid ++ [l], by simp [hmid], fun l₁ b l₂ hsplit => ?_⟩
      rcases List.eq_nil_or_concat l₂ with rfl | ⟨l₂, a, rfl⟩
      · obtain ⟨-, hlast⟩ := List.append_inj' hsplit rfl
        obtain rfl := (List.cons.inj hlast).1
        refine ⟨?_, hv⟩
        rw [visits_eq]
        exact List.mem_cons_self
      · rw [List.concat_eq_append, ← List.cons_append, ← List.append_assoc] at hsplit
        obtain ⟨hinit, hlast⟩ := List.append_inj' hsplit rfl
        obtain rfl := (List.cons.inj hlast).1
        rw [List.concat_eq_append, List.append_assoc, List.singleton_append]
        obtain ⟨hb, hvb⟩ := hbetween l₁ b l₂ hinit
        refine ⟨?_, hvb⟩
        rw [visits_eq]
        exact List.mem_cons_of_mem _ (List.mem_flatMap.mpr ⟨c, hc, hb⟩)

/-- What lies above what is met is met, and the one below the other. -/
theorem above_visits {b : Obj} {l₁ l₂ : List Obj} (hv : v ∈ t.visits skip [])
    (heq : v.above = l₁ ++ b :: l₂) : ⟨b, l₂⟩ ∈ t.visits skip [] ∧ v ∈ b.visits skip l₂ := by
  obtain ⟨mid, hmid, hbetween⟩ := above_of_mem hv
  rw [List.append_nil] at hmid
  have h := hbetween l₁ b l₂ (hmid.symm.trans heq)
  rwa [List.append_nil] at h

/-- An address is one object's. -/
def Distinct (t : Obj) : Prop := (t.places.map (·.obj.data.address)).Nodup

instance (t : Obj) : Decidable t.Distinct := inferInstanceAs (Decidable (List.Nodup _))

theorem Distinct.obj (ht : t.Distinct) : (t.places.map (·.obj)).Nodup := by
  rw [Distinct, show (fun v : Visit => v.obj.data.address) = (fun l : Obj => l.data.address) ∘
    (·.obj) from rfl, ← List.map_map] at ht
  exact ht.of_map

theorem Distinct.reached (ht : t.Distinct) : (t.reached.map (·.obj)).Nodup :=
  ht.obj.sublist ((reached_sublist t).map _)

theorem Distinct.packages (ht : t.Distinct) : (packages t.reached).Nodup := ht.reached.filter _

/-- An object is in one place. -/
theorem Distinct.eq {u v : Visit} (ht : t.Distinct) (hu : u ∈ t.places) (hv : v ∈ t.places)
    (h : u.obj = v.obj) : u = v :=
  List.inj_on_of_nodup_map ht hu hv (congrArg (fun l : Obj => l.data.address) h)

end Obj

/-! ## What an object is filed with -/

variable {t : Obj} {vs : List Visit} {x y : Filing}

/-- An object is filed with the last package before it. -/
theorem filing_split (hx : x ∈ filings none vs) : ∃ before after,
    vs = before ++ x.toVisit :: after ∧
      x.package = if x.obj.isPackage then some x.obj else (packages before).getLast? := by
  induction vs using List.reverseRecOn with
  | nil => cases hx
  | append_singleton vs v ih =>
    rw [filings_concat] at hx
    rcases List.mem_append.mp hx with hx | hx
    · obtain ⟨before, after, rfl, hpack⟩ := ih hx
      exact ⟨before, after ++ [v], by simp, hpack⟩
    · obtain rfl := List.mem_singleton.mp hx
      exact ⟨vs, [], rfl, rfl⟩

theorem mem_of_filing (hx : x ∈ filings none vs) : x.toVisit ∈ vs := by
  rw [← filings_toVisit none vs]
  exact List.mem_map_of_mem hx

theorem exists_filing {v : Visit} (package : Option Obj) (hv : v ∈ vs) :
    ∃ x ∈ filings package vs, x.toVisit = v := by
  rw [← filings_toVisit package vs] at hv
  exact List.mem_map.mp hv

/-- It is filed once. -/
theorem Obj.Distinct.filing_eq (ht : t.Distinct) (hx : x ∈ filings none t.reached)
    (hy : y ∈ filings none t.reached) (h : x.obj = y.obj) : x = y := by
  refine List.inj_on_of_nodup_map (f := fun x : Filing => x.obj) ?_ hx hy h
  have hmap := congrArg (List.map Visit.obj) (filings_toVisit none t.reached)
  rw [List.map_map] at hmap
  rw [show (fun x : Filing => x.obj) = Visit.obj ∘ Filing.toVisit from rfl, hmap]
  exact ht.reached

/-- Until the next package everything is filed with the last one. -/
theorem package_of_none {package : Option Obj} (hvs : packages vs = [])
    (hx : x ∈ filings package vs) : x.package = package := by
  induction vs with
  | nil => cases hx
  | cons v vs ih =>
    rw [packages_cons] at hvs
    split at hvs
    · cases hvs
    · rename_i hv
      rw [filings, if_neg hv] at hx
      rcases List.mem_cons.mp hx with rfl | hx
      · rfl
      · exact ih hvs hx

/-- **What is below a package is filed with it**, if no package is below another. -/
theorem package_of_above {p : Obj} (ht : t.Distinct)
    (hflat : ∀ v ∈ t.reached, v.obj.isPackage = true → ∀ a ∈ v.above, a.isPackage = false)
    (hx : x ∈ filings none t.reached) (hp : p ∈ x.above) (hpack : p.isPackage = true) :
    x.package = some p := by
  obtain ⟨l₁, l₂, hsplit⟩ := List.append_of_mem hp
  obtain ⟨hmet, hbelow⟩ := Obj.above_visits (mem_of_filing hx) hsplit
  obtain ⟨before, after, hpiece⟩ := Obj.visits_infix hmet
  -- no package comes up in the piece that the package begins
  have hnone : packages ((p.children true).flatMap (Obj.visits true · (p :: l₂))) = [] := by
    rw [packages, List.filter_eq_nil_iff]
    intro q hq hqpack
    obtain ⟨u, hu, rfl⟩ := List.mem_map.mp hq
    have hmem : u ∈ t.reached := by
      show u ∈ t.visits true []
      rw [← hpiece, Obj.visits_eq p]
      simp only [List.mem_append, List.mem_cons]
      exact Or.inl (Or.inr (Or.inr hu))
    obtain ⟨c, -, hc⟩ := List.mem_flatMap.mp hu
    obtain ⟨mid, hmid, -⟩ := Obj.above_of_mem hc
    have hno := hflat u hmem hqpack p (by rw [hmid]; simp)
    rw [hpack] at hno
    cases hno
  obtain ⟨y, hy, hyx⟩ := exists_filing (((packages before).getLast?).or none) hbelow
  have hyreached : y ∈ filings none t.reached := by
    show y ∈ filings none (t.visits true [])
    rw [← hpiece, List.append_assoc, filings_append, filings_append]
    exact List.mem_append_right _ (List.mem_append_left _ hy)
  obtain rfl := ht.filing_eq hx hyreached (by rw [hyx])
  rw [Obj.visits_eq, filings, if_pos hpack] at hy
  rcases List.mem_cons.mp hy with rfl | hy
  · rfl
  · exact package_of_none hnone hy

end EfaExamples
