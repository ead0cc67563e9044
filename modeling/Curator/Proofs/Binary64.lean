import Curator.Number
import Mathlib.Algebra.Order.Field.Power
import Mathlib.Algebra.Order.Floor.Semifield
import Mathlib.Data.Rat.Cast.Order
import Mathlib.Data.Rat.Floor
import Mathlib.Tactic.Linarith
import Mathlib.Tactic.Positivity
import Mathlib.Tactic.Ring

/-! # The values of floats

The value of a float is its significand times a power of two. The encodings of the floats stand
in the order of their values, so that comparing the one is comparing the other. Every number of
a document is converted to a float, the integers because they are far below the greatest one, and
no float is nearer to it.
-/

namespace Curator

namespace Binary64

variable {x y : Binary64}

/-! ## The order of values -/

/-- The absolute value of a float. -/
def size (x : Binary64) : ℚ := x.significand * 2 ^ x.exponent

def value (x : Binary64) : ℚ := if x.negative then -x.size else x.size

/-- The range between two powers of two in which the absolute value lies. The floats below the
normal ones share the first range with the least of these. -/
def binade (x : Binary64) : Nat := max (x.magnitude / leastNormal) 1

theorem exponent_eq (x : Binary64) : x.exponent = (x.binade : Int) - 1075 := rfl

theorem one_le_binade (x : Binary64) : 1 ≤ x.binade := le_max_right _ _

theorem exponent_ge (x : Binary64) : -1074 ≤ x.exponent := by
  have hone := one_le_binade x
  rw [exponent_eq]
  omega

theorem significand_add (x : Binary64) :
    x.significand + (x.binade - 1) * leastNormal = x.magnitude := by
  have hdiv := Nat.div_add_mod x.magnitude leastNormal
  unfold significand binade
  split
  · next hlt =>
      rw [Nat.div_eq_of_lt hlt]
      simp
  · next hle =>
      have hone : 1 ≤ x.magnitude / leastNormal :=
        (Nat.one_le_div_iff (by decide)).mpr (Nat.not_lt.mp hle)
      have hmul : leastNormal ≤ x.magnitude / leastNormal * leastNormal :=
        Nat.le_mul_of_pos_left leastNormal hone
      rw [max_eq_left hone, Nat.sub_mul, Nat.one_mul]
      rw [Nat.mul_comm] at hdiv
      omega

theorem significand_lt (x : Binary64) : x.significand < 2 * leastNormal := by
  have hmod := Nat.mod_lt x.magnitude (show 0 < leastNormal by decide)
  unfold significand
  split <;> omega

theorem leastNormal_le_significand (h : 1 < x.binade) : leastNormal ≤ x.significand := by
  unfold binade at h
  unfold significand
  split
  · next hlt =>
      rw [Nat.div_eq_of_lt hlt] at h
      omega
  · exact Nat.le_add_right _ _

/-- In one range the significands decide, and the floats of a later range are all greater. -/
theorem size_lt_size (h : x.magnitude < y.magnitude) : x.size < y.size := by
  have hx := significand_add x
  have hy := significand_add y
  have hrange : x.binade ≤ y.binade :=
    max_le_max (Nat.div_le_div_right (Nat.le_of_lt h)) (Nat.le_refl 1)
  rw [size, size, exponent_eq, exponent_eq]
  rcases hrange.eq_or_lt with heq | hlt
  · rw [heq] at hx ⊢
    have hsignificand : x.significand < y.significand := by omega
    exact mul_lt_mul_of_pos_right (Nat.cast_lt.mpr hsignificand) (by positivity)
  · have hone := one_le_binade x
    have hless : (x.significand : ℚ) < 2 * leastNormal := by exact_mod_cast significand_lt x
    have hleast : (leastNormal : ℚ) ≤ y.significand := by
      exact_mod_cast leastNormal_le_significand (Nat.lt_of_le_of_lt hone hlt)
    have hpower : (2 : ℚ) ^ ((x.binade : Int) - 1075 + 1) ≤ 2 ^ ((y.binade : Int) - 1075) :=
      zpow_le_zpow_right₀ (by norm_num) (by omega)
    calc (x.significand : ℚ) * 2 ^ ((x.binade : Int) - 1075)
        < 2 * leastNormal * 2 ^ ((x.binade : Int) - 1075) :=
          mul_lt_mul_of_pos_right hless (by positivity)
      _ = leastNormal * 2 ^ ((x.binade : Int) - 1075 + 1) := by
          rw [zpow_add_one₀ (by norm_num)]
          ring
      _ ≤ leastNormal * 2 ^ ((y.binade : Int) - 1075) :=
          mul_le_mul_of_nonneg_left hpower (Nat.cast_nonneg _)
      _ ≤ y.significand * 2 ^ ((y.binade : Int) - 1075) :=
          mul_le_mul_of_nonneg_right hleast (by positivity)

theorem size_nonneg (x : Binary64) : 0 ≤ x.size := by
  unfold size
  positivity

theorem size_zero (negative : Bool) : (zero negative).size = 0 := by
  simp [size, significand, zero, leastNormal]

theorem size_congr (h : x.magnitude = y.magnitude) : x.size = y.size := by
  simp only [size, significand, exponent, h]

theorem size_lt_size_iff : x.size < y.size ↔ x.magnitude < y.magnitude := by
  refine ⟨fun h => ?_, size_lt_size⟩
  by_contra hle
  rcases (Nat.not_lt.mp hle).eq_or_lt with heq | hlt
  · exact h.ne (size_congr heq.symm)
  · exact absurd h (size_lt_size hlt).asymm

theorem size_pos_iff : 0 < x.size ↔ 0 < x.magnitude := by
  rw [← size_zero false, size_lt_size_iff]
  rfl

theorem abs_value (x : Binary64) : |x.value| = x.size := by
  unfold value
  split
  · rw [abs_neg, abs_of_nonneg (size_nonneg x)]
  · exact abs_of_nonneg (size_nonneg x)

theorem value_lt_value_iff : x.value < y.value ↔ x.rank < y.rank := by
  have hx := size_nonneg x
  have hy := size_nonneg y
  have hposx := @size_pos_iff x
  have hposy := @size_pos_iff y
  unfold value rank
  cases x.negative <;> cases y.negative <;>
    simp only [Bool.false_eq_true, if_false, if_true]
  · rw [size_lt_size_iff, Int.ofNat_lt]
  · -- neither side holds, for no absolute value is negative
    exact iff_of_false (by linarith) (by omega)
  · constructor
    · intro h
      by_contra hle
      have hsizes : ¬ 0 < x.size ∧ ¬ 0 < y.size := by
        rw [hposx, hposy]
        omega
      linarith
    · intro h
      have hsizes : 0 < x.size ∨ 0 < y.size := by
        rw [hposx, hposy]
        omega
      rcases hsizes with h | h <;> linarith
  · rw [neg_lt_neg_iff, size_lt_size_iff, neg_lt_neg_iff, Int.ofNat_lt]

/-- Encodings are compared as the values are. -/
theorem compare_rank (x y : Binary64) : compare x.rank y.rank = compare x.value y.value := by
  rcases lt_trichotomy x.rank y.rank with h | h | h
  · rw [compare_lt_iff_lt.mpr h, compare_lt_iff_lt.mpr (value_lt_value_iff.mpr h)]
  · have hvalue : x.value = y.value := by
      refine le_antisymm (not_lt.mp ?_) (not_lt.mp ?_)
      · rw [value_lt_value_iff, h]
        exact lt_irrefl _
      · rw [value_lt_value_iff, h]
        exact lt_irrefl _
    rw [compare_eq_iff_eq.mpr h, compare_eq_iff_eq.mpr hvalue]
  · rw [compare_gt_iff_gt.mpr h, compare_gt_iff_gt.mpr (value_lt_value_iff.mpr h)]

/-! ## Rounding

A rounded quotient is cut at the last place that the precision leaves it. The floats above that
place are whole multiples of it, and rounding takes the nearest multiple; the floats below it are
too small to be any nearer.
-/

variable {num den precision digits : Nat} {least unit : Int}

def Nearest (x : Binary64) (q : ℚ) : Prop := ∀ y : Binary64, |x.value - q| ≤ |y.value - q|

theorem div_lt_iff_cast (num den bound : Nat) : num / den < bound ↔ (num / den : ℚ) < bound := by
  rw [← Nat.floor_div_eq_div (K := ℚ), Nat.floor_lt (by positivity)]

theorem le_div_iff_cast (num den bound : Nat) : bound ≤ num / den ↔ (bound : ℚ) ≤ num / den := by
  rw [← Nat.floor_div_eq_div (K := ℚ), Nat.le_floor_iff (by positivity)]

theorem roundHalfEven_bounds (num den : Nat) :
    num / den ≤ roundHalfEven num den ∧ roundHalfEven num den ≤ num / den + 1 := by
  unfold roundHalfEven
  dsimp only
  split <;> omega

/-- Rounding errs by half a unit at most. -/
theorem roundHalfEven_error (num : Nat) (hden : 0 < den) :
    |(roundHalfEven num den : ℚ) - num / den| ≤ 1 / 2 := by
  have hbounds : 2 * num ≤ 2 * (roundHalfEven num den * den) + den ∧
      2 * (roundHalfEven num den * den) ≤ 2 * num + den := by
    have hdiv := Nat.div_add_mod' num den
    have hmod := Nat.mod_lt num hden
    unfold roundHalfEven
    dsimp only
    split
    · next h =>
        simp only [Bool.or_eq_true, decide_eq_true_eq, Bool.and_eq_true, beq_iff_eq] at h
        omega
    · next h =>
        simp only [Bool.or_eq_true, decide_eq_true_eq, not_or] at h
        rw [Nat.add_mul]
        omega
  have hpos : (0 : ℚ) < den := Nat.cast_pos.mpr hden
  have hlower : (2 * num : ℚ) ≤ 2 * (roundHalfEven num den * den) + den := by
    exact_mod_cast hbounds.1
  have hupper : 2 * (roundHalfEven num den * den : ℚ) ≤ 2 * num + den := by
    exact_mod_cast hbounds.2
  rw [sub_div' hpos.ne', abs_div, abs_of_pos hpos, div_le_iff₀ hpos, abs_le]
  constructor <;> linarith

/-- No whole number is nearer to a quotient than the rounded one. -/
theorem roundHalfEven_nearest (num : Nat) (hden : 0 < den) (k : Nat) :
    |(roundHalfEven num den : ℚ) - num / den| ≤ |(k : ℚ) - num / den| := by
  have herror := roundHalfEven_error num hden
  rcases eq_or_ne (roundHalfEven num den) k with heq | hne
  · rw [heq]
  · have hone : (1 : ℚ) ≤ |(roundHalfEven num den : ℚ) - k| := by
      exact_mod_cast Int.one_le_abs (sub_ne_zero.mpr (Nat.cast_injective.ne hne))
    have htriangle := abs_sub_le (roundHalfEven num den : ℚ) (num / den) k
    rw [abs_sub_comm (num / den : ℚ)] at htriangle
    linarith

theorem inUnits_ratio (num den : Nat) (unit : Int) :
    ((inUnits num den unit).1 : ℚ) / (inUnits num den unit).2 = num / den / 2 ^ unit := by
  unfold inUnits
  split
  · next h =>
      obtain ⟨k, rfl⟩ := Int.eq_ofNat_of_zero_le h
      rw [Int.toNat_natCast, zpow_natCast, div_div, Nat.pow_eq]
      push_cast
      rfl
  · next h =>
      obtain ⟨k, hk⟩ := Int.eq_ofNat_of_zero_le (show 0 ≤ -unit by omega)
      rw [hk, Int.toNat_natCast, ← neg_neg unit, hk, zpow_neg, zpow_natCast, div_inv_eq_mul,
        div_mul_eq_mul_div, Nat.pow_eq]
      push_cast
      rfl

theorem inUnits_den_pos (num : Nat) (hden : 0 < den) (unit : Int) :
    0 < (inUnits num den unit).2 := by
  unfold inUnits
  split
  · exact Nat.mul_pos hden (Nat.two_pow_pos _)
  · exact hden

/-- The last place leaves a quotient just the digits asked for, except where that is below the
least one. -/
theorem exists_lastPlace (precision : Nat) (least : Int) (hnum : 0 < num) (hden : 0 < den) :
    ∃ unit : Int, lastPlace precision least num den = max least unit ∧
      2 ^ (unit + precision - 1) ≤ (num / den : ℚ) ∧ (num / den : ℚ) < 2 ^ (unit + precision) := by
  obtain ⟨unit, hunit⟩ : ∃ unit : Int, unit = num.log2 - den.log2 - precision := ⟨_, rfl⟩
  have hlower : (2 : ℚ) ^ (unit + precision - 1) ≤ num / den := by
    have hnumber : (2 : ℚ) ^ (num.log2 : Int) ≤ num := by
      exact_mod_cast Nat.log2_self_le hnum.ne'
    have hdivisor : (den : ℚ) < 2 ^ (den.log2 + 1 : Int) := by
      exact_mod_cast Nat.lt_log2_self
    rw [show unit + precision - 1 = num.log2 - (den.log2 + 1) by omega, zpow_sub₀ two_ne_zero]
    exact div_le_div₀ (Nat.cast_nonneg _) hnumber (Nat.cast_pos.mpr hden) hdivisor.le
  have hupper : (num / den : ℚ) < 2 ^ (unit + 1 + precision) := by
    have hnumber : (num : ℚ) < 2 ^ (num.log2 + 1 : Int) := by
      exact_mod_cast Nat.lt_log2_self
    have hdivisor : (2 : ℚ) ^ (den.log2 : Int) ≤ den := by
      exact_mod_cast Nat.log2_self_le hden.ne'
    rw [show unit + 1 + precision = num.log2 + 1 - den.log2 by omega, zpow_sub₀ two_ne_zero]
    exact div_lt_div₀ hnumber hdivisor (by positivity) (by positivity)
  have hdigits : (inUnits num den unit).1 / (inUnits num den unit).2 < Nat.pow 2 precision ↔
      (num / den : ℚ) < 2 ^ (unit + precision) := by
    rw [div_lt_iff_cast, inUnits_ratio, div_lt_iff₀ (by positivity), Nat.pow_eq, Nat.cast_pow,
      Nat.cast_ofNat, ← zpow_natCast, ← zpow_add₀ two_ne_zero, add_comm unit]
  unfold lastPlace
  dsimp only
  rw [← hunit]
  split
  · next h => exact ⟨unit, rfl, hlower, hdigits.mp h⟩
  · next h =>
      refine ⟨unit + 1, rfl, ?_, hupper⟩
      rw [add_right_comm, add_sub_cancel_right]
      exact not_lt.mp (mt hdigits.mpr h)

theorem leastNormal_mul (unit : Int) : (leastNormal : ℚ) * 2 ^ unit = 2 ^ (unit + 52) := by
  rw [add_comm, zpow_add₀ two_ne_zero]
  rfl

theorem nearestBinary_eq_iff :
    nearestBinary precision least num den = (digits, unit) ↔
      lastPlace precision least num den = unit ∧
        roundHalfEven (inUnits num den unit).1 (inUnits num den unit).2 = digits := by
  change (roundHalfEven (inUnits num den (lastPlace precision least num den)).1
    (inUnits num den (lastPlace precision least num den)).2, _) = _ ↔ _
  rw [Prod.mk.injEq, and_comm]
  exact and_congr_right fun hplace => by rw [hplace]

/-- A rounded significand is of full length, unless its place is the least one. -/
theorem nearestBinary_bounds (hnum : 0 < num) (hden : 0 < den)
    (h : nearestBinary 53 (-1074) num den = (digits, unit)) :
    digits ≤ 2 * leastNormal ∧ -1074 ≤ unit ∧
      (unit = -1074 ∨ leastNormal ≤ digits ∧ 2 ^ (unit + 52) ≤ (num / den : ℚ)) := by
  obtain ⟨hunit, hdigits⟩ := nearestBinary_eq_iff.mp h
  obtain ⟨place, hplace, hlower, hupper⟩ := exists_lastPlace 53 (-1074) hnum hden
  obtain ⟨hfloor, hceil⟩ :=
    roundHalfEven_bounds (inUnits num den unit).1 (inUnits num den unit).2
  rw [hdigits] at hfloor hceil
  refine ⟨hceil.trans (Nat.succ_le_of_lt ((div_lt_iff_cast _ _ _).mpr ?_)), by omega, ?_⟩
  · rw [inUnits_ratio, div_lt_iff₀ (by positivity), Nat.cast_mul, mul_assoc, leastNormal_mul,
      Nat.cast_ofNat, ← zpow_one_add₀ two_ne_zero]
    exact hupper.trans_le (zpow_le_zpow_right₀ one_le_two (by omega))
  · rcases le_total place (-1074) with hle | hle
    · exact .inl (by omega)
    · rw [show place + (53 : Nat) - 1 = unit + 52 by omega] at hlower
      refine .inr ⟨((le_div_iff_cast _ _ _).mpr ?_).trans hfloor, hlower⟩
      rwa [inUnits_ratio, le_div_iff₀ (by positivity), leastNormal_mul]

/-- No other multiple of the last place is nearer. -/
theorem nearestBinary_nearest (hden : 0 < den)
    (h : nearestBinary precision least num den = (digits, unit)) (k : Nat) :
    |digits * 2 ^ unit - (num / den : ℚ)| ≤ |k * 2 ^ unit - (num / den : ℚ)| := by
  obtain ⟨-, hdigits⟩ := nearestBinary_eq_iff.mp h
  have hpos : (0 : ℚ) < 2 ^ unit := by positivity
  have hround := roundHalfEven_nearest (inUnits num den unit).1
    (inUnits_den_pos num hden unit) k
  rwa [hdigits, inUnits_ratio, sub_div' hpos.ne', sub_div' hpos.ne', abs_div, abs_div,
    div_le_div_iff_of_pos_right (abs_pos.mpr hpos.ne')] at hround

/-- A float is a whole multiple of any unit up to its exponent, and small beside any greater one. -/
theorem size_grid (y : Binary64) (unit : Int) :
    (∃ k : Nat, y.size = k * 2 ^ unit) ∨ (-1074 < unit ∧ y.size < 2 ^ (unit + 52)) := by
  rcases le_or_gt unit y.exponent with h | h
  · refine .inl ⟨y.significand * 2 ^ (y.exponent - unit).toNat, ?_⟩
    rw [size]
    push_cast
    rw [← zpow_natCast, mul_assoc, ← zpow_add₀ two_ne_zero, Int.toNat_of_nonneg (by omega),
      sub_add_cancel]
  · refine .inr ⟨(exponent_ge y).trans_lt h, ?_⟩
    have hsignificand : (y.significand : ℚ) < 2 ^ (53 : Int) := by
      exact_mod_cast significand_lt y
    calc y.size < 2 ^ (53 : Int) * 2 ^ y.exponent :=
          mul_lt_mul_of_pos_right hsignificand (by positivity)
      _ = 2 ^ (53 + y.exponent) := (zpow_add₀ two_ne_zero _ _).symm
      _ ≤ 2 ^ (unit + 52) := zpow_le_zpow_right₀ one_le_two (by omega)

/-- What an encoding made of a rounded significand and its place stands for. A significand that
was rounded up to the next power of two makes the encoding one place longer. -/
theorem size_of_magnitude (hmagnitude : x.magnitude = (unit + 1074).toNat * leastNormal + digits)
    (hupper : digits ≤ 2 * leastNormal) (hunit : -1074 ≤ unit)
    (hlower : unit = -1074 ∨ leastNormal ≤ digits) : x.size = digits * 2 ^ unit := by
  have hsum := significand_add x
  unfold leastNormal at hmagnitude hlower hupper hsum
  rw [size, exponent_eq]
  rcases hupper.eq_or_lt with heq | hlt
  · have hbinade : (x.binade : Int) - 1075 = unit + 1 := by
      unfold binade leastNormal
      omega
    have hsignificand : 2 * x.significand = digits := by omega
    rw [hbinade, ← hsignificand, zpow_add_one₀ two_ne_zero]
    push_cast
    ring
  · have hbinade : (x.binade : Int) - 1075 = unit := by
      unfold binade leastNormal
      omega
    have hsignificand : x.significand = digits := by omega
    rw [hbinade, hsignificand]

theorem ofRatio?_eq (negative : Bool) (hnum : num ≠ 0)
    (h : nearestBinary 53 (-1074) num den = (digits, unit)) :
    ofRatio? negative num den =
      if hfinite : (unit + 1074).toNat * leastNormal + digits < infinity then
        some ⟨negative, _, hfinite⟩
      else none := by
  unfold ofRatio?
  rw [if_neg hnum, h]

/-- No float is nearer to a quotient than the one it is rounded to, which has the sign given. -/
theorem ofRatio?_nearest {negative : Bool} (hden : 0 < den)
    (h : ofRatio? negative num den = some x) (y : Binary64) :
    x.negative = negative ∧ |x.size - num / den| ≤ |y.size - num / den| := by
  rcases eq_or_ne num 0 with rfl | hnum
  · obtain rfl := Option.some.inj h
    refine ⟨rfl, ?_⟩
    rw [size_zero]
    simp
  · obtain ⟨⟨digits, unit⟩, hrounded⟩ :
      ∃ rounded, nearestBinary 53 (-1074) num den = rounded := ⟨_, rfl⟩
    obtain ⟨hupper, hunit, hlower⟩ :=
      nearestBinary_bounds (Nat.pos_of_ne_zero hnum) hden hrounded
    have hnearest := nearestBinary_nearest hden hrounded
    rw [ofRatio?_eq negative hnum hrounded, Option.dite_none_right_eq_some] at h
    obtain ⟨hfinite, h⟩ := h
    obtain rfl := Option.some.inj h
    refine ⟨rfl, ?_⟩
    rw [size_of_magnitude rfl hupper hunit (hlower.imp_right And.left)]
    rcases size_grid y unit with ⟨k, hk⟩ | ⟨hbeyond, hsmall⟩
    · rw [hk]
      exact hnearest k
    · -- the float is below the least multiple of full length, and that one is no nearer
      obtain ⟨-, hlong⟩ := hlower.resolve_left hbeyond.ne'
      have hfull := hnearest leastNormal
      rw [leastNormal_mul, abs_sub_comm (2 ^ (unit + 52)),
        abs_of_nonneg (sub_nonneg.mpr hlong)] at hfull
      rw [abs_sub_comm y.size, abs_of_nonneg (sub_nonneg.mpr (hsmall.le.trans hlong))]
      linarith

theorem exists_ofInt? {i : Int} (h : i.natAbs < 2 ^ 64) : ∃ x, ofInt? i = some x := by
  unfold ofInt?
  rcases eq_or_ne i.natAbs 0 with hzero | hnum
  · rw [hzero]
    exact ⟨_, rfl⟩
  · obtain ⟨⟨digits, unit⟩, hrounded⟩ :
      ∃ rounded, nearestBinary 53 (-1074) i.natAbs 1 = rounded := ⟨_, rfl⟩
    obtain ⟨hupper, -, hlower⟩ := nearestBinary_bounds (Nat.pos_of_ne_zero hnum) one_pos hrounded
    have hsmall : unit + 52 < 64 := by
      rcases hlower with rfl | ⟨-, hle⟩
      · omega
      · refine (zpow_lt_zpow_iff_right₀ (one_lt_two (α := ℚ))).mp (hle.trans_lt ?_)
        rw [Nat.cast_one, div_one]
        exact_mod_cast h
    have hfinite : (unit + 1074).toNat * leastNormal + digits < infinity := by
      unfold leastNormal at hupper
      unfold leastNormal infinity
      omega
    rw [ofRatio?_eq _ hnum hrounded, dif_pos hfinite]
    exact ⟨_, rfl⟩

/-- Both have the sign of the integer, so that their distance is that of the absolute values. -/
theorem ofInt?_nearest {i : Int} (h : ofInt? i = some x) : x.Nearest i := by
  intro y
  obtain ⟨hnegative, hnearest⟩ := ofRatio?_nearest one_pos h y
  have hsame : |x.value - i| = |x.size - i.natAbs| := by
    rw [value, hnegative]
    rcases lt_or_ge i 0 with hi | hi
    · rw [decide_eq_true hi, if_pos rfl, Nat.cast_natAbs, Int.cast_abs,
        abs_of_neg (Int.cast_lt_zero.mpr hi), ← abs_neg]
      congr 1
      ring
    · rw [decide_eq_false hi.not_gt, if_neg Bool.false_ne_true, Nat.cast_natAbs, Int.cast_abs,
        abs_of_nonneg (Int.cast_nonneg hi)]
  rw [Nat.cast_one, div_one] at hnearest
  calc |x.value - i| = |x.size - i.natAbs| := hsame
    _ ≤ |y.size - i.natAbs| := hnearest
    _ = |(|y.value| - |(i : ℚ)|)| := by
        rw [abs_value, Nat.cast_natAbs, Int.cast_abs]
    _ ≤ |y.value - i| := abs_abs_sub_abs_le _ _

end Binary64

namespace Number

variable {n : Number} {x : Binary64}

def quantity : Number → ℚ
  | .integer i => i.val
  | .float x => x.value

theorem exists_toBinary64? (n : Number) : ∃ x, n.toBinary64? = some x := by
  cases n with
  | integer i =>
      have hlower := i.lower
      have hupper := i.upper
      exact Binary64.exists_ofInt? (by omega)
  | float x => exact ⟨x, rfl⟩

theorem toBinary64?_nearest (h : n.toBinary64? = some x) : x.Nearest n.quantity := by
  cases n with
  | integer i => exact Binary64.ofInt?_nearest h
  | float z =>
      intro y
      obtain rfl := Option.some.inj h
      rw [quantity, sub_self, abs_zero]
      exact abs_nonneg _

end Number

end Curator
