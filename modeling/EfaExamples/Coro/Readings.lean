import Mathlib.Tactic.Linarith
import Mathlib.Tactic.Ring
import EfaExamples.Coro.Model.Timer
/-!
# The first reading at a deadline

The arithmetic of a sleep. A `Runone` moves a task at the first reading that `IO::Time`
does not cut below the deadline, so a sleep is long enough for every later reading if it is
for that one. What it is short of is what truncation takes off the delay and off the
reading at the call, and everything if the deadline overflows.
-/

namespace EfaExamples

namespace Duration

variable {delay : Duration}

/-- The delay has passed in so many nanoseconds. -/
def PassedIn (delay : Duration) (ns : ℤ) : Prop :=
  delay.count * delay.num * 1000000000 ≤ ns * delay.den

instance (delay : Duration) (ns : ℤ) : Decidable (delay.PassedIn ns) :=
  inferInstanceAs (Decidable (_ ≤ _))

/-- **A duration that `milliseconds` has room for**, of a period that a `std::ratio` can say. -/
structure Fits (delay : Duration) : Prop where
  num_pos : 0 < delay.num
  den_pos : 0 < delay.den
  den_lt : delay.den < 2 ^ 63
  lo : -2 ^ 63 * (delay.den : ℤ) ≤ delay.count * delay.num * 1000
  hi : delay.count * delay.num * 1000 < 2 ^ 63 * (delay.den : ℤ)

/-- The count of the delay times the numerator of `toMilli`: the delay in parts of a
millisecond, `toMilli.2` of them in each. -/
def parts (delay : Duration) : ℤ := delay.count * delay.toMilli.1

namespace Fits

/-- In lowest terms the period is the same. -/
theorem toMilli_mul (hf : delay.Fits) : ∃ g : ℕ, 0 < g ∧
    delay.num * 1000 = delay.toMilli.1 * g ∧ delay.den = delay.toMilli.2 * g :=
  ⟨Nat.gcd (delay.num * 1000) delay.den, Nat.gcd_pos_of_pos_right _ hf.den_pos,
    (Nat.div_mul_cancel (Nat.gcd_dvd_left _ _)).symm,
    (Nat.div_mul_cancel (Nat.gcd_dvd_right _ _)).symm⟩

theorem parts_mul (hf : delay.Fits) : ∃ g : ℤ, 0 < g ∧
    delay.count * delay.num * 1000 = delay.parts * g ∧ (delay.den : ℤ) = delay.toMilli.2 * g := by
  obtain ⟨g, hg, hnum, hden⟩ := hf.toMilli_mul
  have hcast : (delay.num : ℤ) * 1000 = delay.toMilli.1 * g := by exact_mod_cast hnum
  refine ⟨g, by exact_mod_cast hg, ?_, by exact_mod_cast hden⟩
  rw [parts, mul_assoc, hcast, mul_assoc]

theorem denominator (hf : delay.Fits) : 0 < (delay.toMilli.2 : ℤ) ∧
    (delay.toMilli.2 : ℤ) < 2 ^ 63 := by
  obtain ⟨g, hg, -, hden⟩ := hf.toMilli_mul
  have hpos := hf.den_pos
  have hlt := hf.den_lt
  rw [hden] at hpos hlt
  have hk := Nat.pos_of_mul_pos_right hpos
  have hle := Nat.le_mul_of_pos_right delay.toMilli.2 hg
  omega

/-- A positive delay has a positive number of parts, less than `2 ^ 63` milliseconds of them. -/
theorem parts_bounds (hf : delay.Fits) (hcount : 0 < delay.count) :
    0 < delay.parts ∧ delay.parts < 2 ^ 63 * (delay.toMilli.2 : ℤ) := by
  obtain ⟨g, hg, hparts, hden⟩ := hf.parts_mul
  have hnum : (0 : ℤ) < delay.num := by exact_mod_cast hf.num_pos
  have hpos : 0 < delay.parts * g := by
    rw [← hparts]
    exact mul_pos (mul_pos hcount hnum) (by decide)
  have hlt : delay.parts * g < 2 ^ 63 * (delay.toMilli.2 : ℤ) * g := by
    calc delay.parts * g = delay.count * delay.num * 1000 := hparts.symm
      _ < 2 ^ 63 * (delay.den : ℤ) := hf.hi
      _ = 2 ^ 63 * (delay.toMilli.2 : ℤ) * g := by rw [hden, mul_assoc]
  exact ⟨(mul_pos_iff_of_pos_right hg).mp hpos, lt_of_mul_lt_mul_right hlt hg.le⟩

/-- What has to pass, in parts. -/
theorem passedIn_iff (hf : delay.Fits) (ns : ℤ) :
    delay.PassedIn ns ↔ 1000000 * delay.parts ≤ ns * delay.toMilli.2 := by
  obtain ⟨g, hg, hparts, hden⟩ := hf.parts_mul
  have hl : delay.count * delay.num * 1000000000 = 1000000 * delay.parts * g := by linarith
  have hr : ns * (delay.den : ℤ) = ns * delay.toMilli.2 * g := by rw [hden, mul_assoc]
  rw [PassedIn, hl, hr]
  exact ⟨fun h => le_of_mul_le_mul_right h hg, fun h => mul_le_mul_of_nonneg_right h hg.le⟩

end Fits

end Duration

/-! ## Readings -/

/-- **The first reading that `IO::Time` does not cut below `when`.** -/
def firstReading (when : ℤ) : ℤ := if 0 < when then 1000000 * when else 1000000 * when - 999999

theorem le_time_iff {when now : ℤ} : when ≤ time now ↔ firstReading when ≤ now := by
  unfold firstReading
  rcases le_total 0 now with h | h
  · rw [time_of_nonneg h]
    split <;> omega
  · rw [time_of_nonpos h]
    split <;> omega

/-- **The first reading decides**: of those from `t` on, none if it is beyond 64 bits, and
otherwise the shortest of the sleeps. -/
theorem forall_passedIn_iff {delay : Duration} {t when : ℤ} (ht : FitsInt64 t) :
    (∀ t', t ≤ t' → FitsInt64 t' → when ≤ time t' → delay.PassedIn (t' - t)) ↔
      (firstReading when < 2 ^ 63 → delay.PassedIn (max t (firstReading when) - t)) := by
  constructor
  · intro h hlt
    have hfits : FitsInt64 (max t (firstReading when)) := by
      unfold FitsInt64 at *
      omega
    exact h _ (le_max_left _ _) hfits (le_time_iff.mpr (le_max_right _ _))
  · intro h t' hle hfits hdue
    have hfirst := le_time_iff.mp hdue
    have hpassed := h (hfirst.trans_lt hfits.2)
    have hns : max t (firstReading when) - t ≤ t' - t := by omega
    exact hpassed.trans (mul_le_mul_of_nonneg_right hns (Int.natCast_nonneg _))

/-! ## What is missing -/

section Missing

variable {delay : Duration} {t : ℤ}

/-- **Nothing is missing** from a sleep whose deadline is a plain sum. From `start_` on, nothing
is cut off. Before it, truncation puts the reading at the call forward, which makes up for what is
cut off the delay; a deadline that is not after `start_` is reached too early by as much as
truncation can put a reading forward. -/
def Duration.Whole (delay : Duration) (t : ℤ) : Prop :=
  0 ≤ t ∧ 1000000 ∣ t ∧ (delay.toMilli.2 : ℤ) ∣ delay.parts ∨
  t < 0 ∧ 0 < time t + delay.toMilliseconds ∧
    1000000 * (delay.parts % delay.toMilli.2) ≤ -t % 1000000 * delay.toMilli.2 ∨
  t < 0 ∧ time t + delay.toMilliseconds ≤ 0 ∧ (delay.toMilli.2 : ℤ) ∣ delay.parts ∧
    -t % 1000000 = 999999

/-- The delay in milliseconds, if the product does not overflow. -/
theorem toMilliseconds_eq (hcount : 0 ≤ delay.count) (hparts : FitsInt64 delay.parts) :
    delay.toMilliseconds = delay.parts / delay.toMilli.2 := by
  have h0 : 0 ≤ delay.parts := mul_nonneg hcount (Int.natCast_nonneg _)
  rw [Duration.toMilliseconds, ← Duration.parts, int64_of_fits hparts,
    Int.tdiv_eq_ediv_of_nonneg h0]

/-- Of `d` milliseconds and `c` nanoseconds in parts, the milliseconds cancel. -/
theorem milliseconds_cancel {k d r c : ℤ} :
    1000000 * (k * d + r) ≤ (1000000 * d + c) * k ↔ 1000000 * r ≤ c * k := by
  constructor <;> intro h <;> linarith

/-- Nothing less than nothing may be missing. -/
theorem nothing_missing {k r c : ℤ} (hk : 0 < k) (hr : 0 ≤ r) (hc : c ≤ 0) :
    1000000 * r ≤ c * k ↔ r = 0 ∧ c = 0 := by
  constructor
  · intro h
    have hck : c * k ≤ 0 := mul_nonpos_of_nonpos_of_nonneg hc hk.le
    have hzero : c * k = 0 := by omega
    exact ⟨by omega, (mul_eq_zero.mp hzero).resolve_right hk.ne'⟩
  · rintro ⟨rfl, rfl⟩
    omega

/-- **The sleep up to the first reading at its deadline.** -/
theorem passedIn_first_iff (hf : delay.Fits) (hcount : 0 < delay.count)
    (hparts : FitsInt64 delay.parts) :
    delay.PassedIn (max t (firstReading (time t + delay.toMilliseconds)) - t) ↔
      delay.Whole t := by
  have hk := hf.denominator.1
  have hpos := (hf.parts_bounds hcount).1
  have hd := toMilliseconds_eq hcount.le hparts
  have hsum := Int.mul_ediv_add_emod delay.parts delay.toMilli.2
  have hr := Int.emod_nonneg delay.parts hk.ne'
  have hd0 : 0 ≤ delay.toMilliseconds := hd ▸ Int.ediv_nonneg hpos.le hk.le
  rw [hf.passedIn_iff, Duration.Whole, Int.dvd_iff_emod_eq_zero (b := delay.parts), ← hsum, ← hd,
    Int.mul_add_emod_self_left, Int.emod_emod]
  rw [← hd] at hsum
  generalize delay.toMilliseconds = d at hsum hd0 ⊢
  generalize delay.parts % delay.toMilli.2 = r at hsum hr ⊢
  generalize (delay.toMilli.2 : ℤ) = k at hk hsum ⊢
  -- a sleep that ends at once is too short
  have hnow : ¬ 1000000 * (k * d + r) ≤ (t - t) * k := by
    rw [sub_self, zero_mul]
    omega
  rcases le_or_gt 0 t with h0 | h0
  · rw [time_of_nonneg h0]
    rcases hd0.eq_or_lt with rfl | hd1
    · rw [max_eq_left (by unfold firstReading; split <;> omega)]
      refine iff_of_false hnow fun h => ?_
      rw [mul_zero, zero_add, sub_self, zero_mul] at hnow
      omega
    · have hfirst : max t (firstReading (t / 1000000 + d)) - t =
          1000000 * d + (1000000 * (t / 1000000) - t) := by
        rw [firstReading, if_pos (by omega), max_eq_right (by omega)]
        omega
      rw [hfirst, milliseconds_cancel, nothing_missing hk hr (by omega)]
      omega
  · rw [time_of_nonpos h0.le]
    by_cases hw : 0 < -(-t / 1000000) + d
    · have hfirst : max t (firstReading (-(-t / 1000000) + d)) - t =
          1000000 * d + -t % 1000000 := by
        rw [firstReading, if_pos hw, max_eq_right (by omega)]
        omega
      rw [hfirst, milliseconds_cancel]
      omega
    · rw [firstReading, if_neg hw]
      rcases le_or_gt (1000000 * d + (-t % 1000000 - 999999)) 0 with hn | hn
      · rw [max_eq_left (by omega)]
        refine iff_of_false hnow fun h => ?_
        obtain ⟨rfl, rfl⟩ : r = 0 ∧ d = 0 := by omega
        exact hnow (by simp)
      · have hfirst : max t (1000000 * (-(-t / 1000000) + d) - 999999) - t =
            1000000 * d + (-t % 1000000 - 999999) := by
          rw [max_eq_right (by omega)]
          omega
        rw [hfirst, milliseconds_cancel, nothing_missing hk hr (by omega)]
        omega

/-- **A product that overflows** is at least `2 ^ 64` parts short, more than truncation ever makes
up for. -/
theorem not_passedIn_of_overflow (hf : delay.Fits) (hcount : 0 < delay.count)
    (hparts : ¬ FitsInt64 delay.parts) :
    ¬ delay.PassedIn (max t (firstReading (time t + delay.toMilliseconds)) - t) := by
  obtain ⟨hk, hk'⟩ := hf.denominator
  have hpos := (hf.parts_bounds hcount).1
  have hlost : int64 delay.parts ≤ delay.parts - 2 ^ 64 :=
    int64_le_of_overflow (by unfold FitsInt64 at hparts; omega)
  -- truncation adds less than a millisecond to each
  have hdelay : delay.toMilli.2 * delay.toMilliseconds < int64 delay.parts + delay.toMilli.2 := by
    have hsum := Int.mul_tdiv_add_tmod (int64 delay.parts) delay.toMilli.2
    have hrest := Int.lt_tmod_of_pos (int64 delay.parts) hk
    rw [Duration.toMilliseconds, ← Duration.parts]
    omega
  have hfirst : max t (firstReading (time t + delay.toMilliseconds)) - t ≤
      max 0 (1000000 * delay.toMilliseconds + 999999) := by
    have hcall : firstReading (time t) ≤ t := le_time_iff.mp le_rfl
    unfold firstReading at *
    omega
  rw [hf.passedIn_iff, not_le]
  generalize max t (firstReading (time t + delay.toMilliseconds)) - t = ns at hfirst ⊢
  rcases le_or_gt ns 0 with hns | hns
  · have := mul_nonpos_of_nonpos_of_nonneg hns hk.le
    omega
  · have hle : ns ≤ 1000000 * delay.toMilliseconds + 999999 := by omega
    calc ns * delay.toMilli.2
        ≤ (1000000 * delay.toMilliseconds + 999999) * delay.toMilli.2 :=
          mul_le_mul_of_nonneg_right hle hk.le
      _ = 1000000 * (delay.toMilli.2 * delay.toMilliseconds) + 999999 * delay.toMilli.2 := by ring
      _ < 1000000 * delay.parts := by omega

/-- A positive delay is not cast to a large negative one: where a product overflows, it is divided
by two at least. -/
theorem toMilliseconds_bounds (hf : delay.Fits) (hcount : 0 < delay.count) :
    -2 ^ 62 ≤ delay.toMilliseconds ∧ delay.toMilliseconds ≤ 2 ^ 63 := by
  obtain ⟨hk, -⟩ := hf.denominator
  obtain ⟨hpos, hlt⟩ := hf.parts_bounds hcount
  have habs : delay.toMilliseconds.natAbs =
      (int64 delay.parts).natAbs / (delay.toMilli.2 : ℤ).natAbs := Int.natAbs_tdiv _ _
  have hprod := int64_fits delay.parts
  have hle := Nat.div_le_self (int64 delay.parts).natAbs (delay.toMilli.2 : ℤ).natAbs
  unfold FitsInt64 at hprod
  by_cases hparts : FitsInt64 delay.parts
  · have hd := toMilliseconds_eq hcount.le hparts
    have hd0 : 0 ≤ delay.toMilliseconds := hd ▸ Int.ediv_nonneg hpos.le hk.le
    omega
  · have hk2 : 2 ≤ (delay.toMilli.2 : ℤ).natAbs := by
      by_contra hk1
      have hone : (delay.toMilli.2 : ℤ) = 1 := by omega
      unfold FitsInt64 at hparts
      rw [hone] at hlt
      omega
    have hhalf : (int64 delay.parts).natAbs / (delay.toMilli.2 : ℤ).natAbs ≤
        (int64 delay.parts).natAbs / 2 := Nat.div_le_div_left hk2 (by decide)
    omega

/-- **How long a sleep is** for whichever reading wakes it. -/
theorem forall_passedIn_iff_whole (ht : FitsInt64 t) (hf : delay.Fits) :
    (∀ t', t ≤ t' → FitsInt64 t' → deadline t delay ≤ time t' → delay.PassedIn (t' - t)) ↔
      delay.count ≤ 0 ∨ FitsInt64 (time t + delay.toMilliseconds) ∧
        (2 ^ 63 ≤ 1000000 * (time t + delay.toMilliseconds) ∨
          FitsInt64 delay.parts ∧ delay.Whole t) := by
  rw [forall_passedIn_iff ht]
  rcases le_or_gt delay.count 0 with hcount | hcount
  · -- no time at all is enough
    refine iff_of_true (fun _ => ?_) (Or.inl hcount)
    have hneg : delay.count * delay.num ≤ 0 :=
      mul_nonpos_of_nonpos_of_nonneg hcount (Int.natCast_nonneg _)
    have hns : 0 ≤ (max t (firstReading (deadline t delay)) - t) * delay.den :=
      mul_nonneg (by omega) (Int.natCast_nonneg _)
    unfold Duration.PassedIn
    omega
  · rw [or_iff_right (by omega)]
    by_cases hsum : FitsInt64 (time t + delay.toMilliseconds)
    · rw [deadline_of_fits hsum, and_iff_right hsum]
      by_cases hbig : 2 ^ 63 ≤ 1000000 * (time t + delay.toMilliseconds)
      · refine iff_of_true (fun hlt => ?_) (Or.inl hbig)
        unfold firstReading at hlt
        omega
      · have hlt : firstReading (time t + delay.toMilliseconds) < 2 ^ 63 := by
          unfold firstReading
          omega
        rw [or_iff_right hbig, forall_prop_of_true hlt]
        by_cases hparts : FitsInt64 delay.parts
        · rw [and_iff_right hparts, passedIn_first_iff hf hcount hparts]
        · exact iff_of_false (not_passedIn_of_overflow hf hcount hparts) fun h => hparts h.1
    · -- the deadline is long past
      refine iff_of_false (fun h => ?_) fun h => hsum h.1
      obtain ⟨hlo, hhi⟩ := toMilliseconds_bounds hf hcount
      have htime := time_bounds ht
      unfold FitsInt64 at hsum
      have hpast := int64_le_of_overflow (n := time t + delay.toMilliseconds) (by omega)
      have hfirst : firstReading (deadline t delay) ≤ t :=
        le_time_iff.mp (by unfold deadline; omega)
      have hpassed := h (hfirst.trans_lt ht.2)
      have hparts := (hf.parts_bounds hcount).1
      rw [max_eq_left hfirst, sub_self, hf.passedIn_iff, zero_mul] at hpassed
      omega

end Missing

end EfaExamples
