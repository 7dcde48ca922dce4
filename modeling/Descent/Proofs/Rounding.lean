import Mathlib.Algebra.Order.Field.Power
import Mathlib.Tactic.FieldSimp
import Mathlib.Tactic.Linarith
import Mathlib.Tactic.NormNum
import Mathlib.Tactic.Positivity
import Mathlib.Tactic.Ring
import Descent.Binary64
/-!
The double nearest to a number. A magnitude is a whole number of units of the least positive double,
and infinity counts as the power of two where the finite doubles end. Of all of these the nearest is
chosen, and of two that are as near the even one. There is only one such double, and the conversions
of ratios and decimals give it.
-/
namespace Descent.Binary64

def units (magnitude : Nat) : Nat :=
  if magnitude / 2 ^ 52 = 0 then magnitude
  else (2 ^ 52 + magnitude % 2 ^ 52) * 2 ^ (magnitude / 2 ^ 52 - 1)

def unitsInOne : ℚ :=
  2 ^ leastExponent

def absolute (magnitude : Nat) : ℚ :=
  units magnitude / unitsInOne

structure Nearest (q : ℚ) (magnitude : Nat) : Prop where
  inRange : magnitude ≤ infinityMagnitude
  closest : ∀ other ≤ infinityMagnitude, |q - absolute magnitude| ≤ |q - absolute other|
  even : ∀ other ≤ infinityMagnitude, other ≠ magnitude →
    |q - absolute magnitude| = |q - absolute other| → magnitude % 2 = 0

structure Rounds (negative : Bool) (q : ℚ) (x : Binary64) : Prop where
  sign : x.isNegative = negative
  nearest : Nearest q x.magnitude

theorem unitsOf {e r : Nat} (normal : e = 0 ∨ 2 ^ 52 ≤ r) (small : r ≤ 2 ^ 53) :
    units (e * 2 ^ 52 + r) = r * 2 ^ e := by
  unfold units
  by_cases subnormal : r < 2 ^ 52
  · obtain rfl : e = 0 := by omega
    have field : (0 * 2 ^ 52 + r) / 2 ^ 52 = 0 := by omega
    rw [if_pos field]
    omega
  by_cases carried : r = 2 ^ 53
  · subst carried
    have field : (e * 2 ^ 52 + 2 ^ 53) / 2 ^ 52 = e + 2 := by omega
    have fraction : (e * 2 ^ 52 + 2 ^ 53) % 2 ^ 52 = 0 := by omega
    rw [field, fraction, if_neg (by omega)]
    have steps : e + 2 - 1 = e + 1 := by omega
    rw [steps, pow_succ]
    ring
  · have field : (e * 2 ^ 52 + r) / 2 ^ 52 = e + 1 := by omega
    have fraction : (e * 2 ^ 52 + r) % 2 ^ 52 = r - 2 ^ 52 := by omega
    rw [field, fraction, if_neg (by omega)]
    have whole : 2 ^ 52 + (r - 2 ^ 52) = r := by omega
    rw [whole, Nat.add_sub_cancel]

theorem unitsSplit (m : Nat) : ∃ e r, m = e * 2 ^ 52 + r ∧ r < 2 ^ 53 ∧ (e = 0 ∨ 2 ^ 52 ≤ r) := by
  by_cases subnormal : m < 2 ^ 52
  · exact ⟨0, m, by omega, by omega, .inl rfl⟩
  · refine ⟨m / 2 ^ 52 - 1, m % 2 ^ 52 + 2 ^ 52, ?_, by omega, .inr (by omega)⟩
    omega

theorem unitsStrictMono : StrictMono units := by
  refine strictMono_nat_of_lt_succ fun m => ?_
  obtain ⟨e, r, rfl, small, normal⟩ := unitsSplit m
  have next : e * 2 ^ 52 + r + 1 = e * 2 ^ 52 + (r + 1) := by omega
  rw [next, unitsOf normal (by omega), unitsOf (by omega) (by omega)]
  exact Nat.mul_lt_mul_of_pos_right (by omega) (by positivity)

theorem unitsOnGrid (e m : Nat) : 2 ^ e ∣ units m ∨ units m < 2 ^ 52 * 2 ^ e := by
  obtain ⟨e', r, rfl, small, normal⟩ := unitsSplit m
  rw [unitsOf normal (by omega)]
  by_cases coarser : e ≤ e'
  · exact .inl (Dvd.dvd.mul_left (pow_dvd_pow 2 coarser) r)
  · right
    have finer : 2 ^ (e' + 1) ≤ 2 ^ e := Nat.pow_le_pow_right (by omega) (by omega)
    calc r * 2 ^ e' < 2 ^ 53 * 2 ^ e' := Nat.mul_lt_mul_of_pos_right small (by positivity)
      _ = 2 ^ 52 * 2 ^ (e' + 1) := by ring
      _ ≤ 2 ^ 52 * 2 ^ e := Nat.mul_le_mul_left _ finer

theorem unitsInOnePositive : 0 < unitsInOne :=
  pow_pos two_pos leastExponent

theorem unitsInfinity : (units infinityMagnitude : ℚ) = 2 ^ 1024 * unitsInOne := by
  have split : infinityMagnitude = 2046 * 2 ^ 52 + 2 ^ 52 := by decide
  rw [split, unitsOf (.inr (Nat.le_refl _)) (by omega), ← pow_add, unitsInOne, ← pow_add,
    Nat.cast_pow, Nat.cast_two]
  rfl

def Rounded (t : ℚ) (r : Nat) : Prop :=
  |t - r| ≤ 1 / 2 ∧ (|t - r| = 1 / 2 → r % 2 = 0)

theorem roundRatioRounded {n d : Nat} (positive : 0 < d) : Rounded (n / d) (roundRatio n d) := by
  have divisor : (0 : ℚ) < d := by exact_mod_cast positive
  have split : (n : ℚ) = d * (n / d : ℕ) + (n % d : ℕ) := by exact_mod_cast (Nat.div_add_mod n d).symm
  have ratio : (n : ℚ) / d = (n / d : ℕ) + (n % d : ℕ) / d := by
    rw [split]
    field_simp
  have part : (0 : ℚ) ≤ (n % d : ℕ) / d := by positivity
  have below : ((n % d : ℕ) : ℚ) / d < 1 := by
    rw [div_lt_one divisor]
    exact_mod_cast Nat.mod_lt n positive
  unfold Rounded roundRatio
  rw [ratio]
  dsimp only
  split
  · rename_i up
    have half : (1 : ℚ) / 2 ≤ (n % d : ℕ) / d := by
      rw [div_le_div_iff₀ two_pos divisor]
      norm_cast
      omega
    have distance : |((n / d : ℕ) : ℚ) + (n % d : ℕ) / d - ((n / d + 1 : ℕ) : ℚ)| =
        1 - (n % d : ℕ) / d := by
      rw [abs_of_nonpos (by push_cast; linarith)]
      push_cast
      ring
    rw [distance]
    refine ⟨by linarith, fun tie => ?_⟩
    have exact : ((n % d : ℕ) : ℚ) / d = 1 / 2 := by linarith
    rw [div_eq_div_iff divisor.ne' two_ne_zero] at exact
    have twice : n % d * 2 = 1 * d := by exact_mod_cast exact
    omega
  · rename_i down
    have half : ((n % d : ℕ) : ℚ) / d ≤ 1 / 2 := by
      rw [div_le_div_iff₀ divisor two_pos]
      norm_cast
      omega
    have distance : |((n / d : ℕ) : ℚ) + (n % d : ℕ) / d - ((n / d : ℕ) : ℚ)| = (n % d : ℕ) / d := by
      rw [add_sub_cancel_left, abs_of_nonneg part]
    rw [distance]
    refine ⟨half, fun tie => ?_⟩
    rw [div_eq_div_iff divisor.ne' two_ne_zero] at tie
    have twice : n % d * 2 = 1 * d := by exact_mod_cast tie
    omega

theorem twoShift (e : ℤ) : (2 : ℚ) ^ e = 2 ^ e.toNat / 2 ^ (-e).toNat := by
  rcases le_total 0 e with up | down
  · have none : (-e).toNat = 0 := by omega
    rw [none, pow_zero, div_one]
    conv_lhs => rw [← Int.toNat_of_nonneg up]
    exact zpow_natCast 2 _
  · have none : e.toNat = 0 := by omega
    have back : e = -((-e).toNat : ℤ) := by omega
    rw [none, pow_zero, one_div]
    conv_lhs => rw [back]
    rw [zpow_neg, zpow_natCast]

theorem floorLogBounds {n d : Nat} (some : 0 < n) (positive : 0 < d) :
    (2 : ℚ) ^ floorLog n d ≤ n / d ∧ (n : ℚ) / d < 2 ^ (floorLog n d + 1) := by
  have divisor : (0 : ℚ) < d := by exact_mod_cast positive
  have low : ((2 ^ n.log2 : ℕ) : ℚ) ≤ n := by exact_mod_cast Nat.log2_self_le some.ne'
  have high : (n : ℚ) < (2 ^ (n.log2 + 1) : ℕ) := by exact_mod_cast Nat.lt_log2_self
  have low' : ((2 ^ d.log2 : ℕ) : ℚ) ≤ d := by exact_mod_cast Nat.log2_self_le positive.ne'
  have high' : (d : ℚ) < (2 ^ (d.log2 + 1) : ℕ) := by exact_mod_cast Nat.lt_log2_self
  push_cast at low high low' high'
  have spread (k : ℤ) : (2 : ℚ) ^ k ≤ n / d ↔ d <<< k.toNat ≤ n <<< (-k).toNat := by
    rw [twoShift, div_le_div_iff₀ (by positivity) divisor, Nat.shiftLeft_eq, Nat.shiftLeft_eq,
      mul_comm]
    norm_cast
  have above : (n : ℚ) / d < 2 ^ ((n.log2 : ℤ) - d.log2 + 1) := by
    have exponent : (n.log2 : ℤ) - d.log2 + 1 = (n.log2 + 1 : ℕ) - (d.log2 : ℕ) := by
      push_cast
      ring
    rw [exponent, zpow_sub₀ two_ne_zero, zpow_natCast, zpow_natCast]
    calc (n : ℚ) / d ≤ n / 2 ^ d.log2 := by gcongr
      _ < 2 ^ (n.log2 + 1) / 2 ^ d.log2 := by gcongr
  have below : (2 : ℚ) ^ ((n.log2 : ℤ) - d.log2 - 1) ≤ n / d := by
    have exponent : (n.log2 : ℤ) - d.log2 - 1 = (n.log2 : ℕ) - (d.log2 + 1 : ℕ) := by
      push_cast
      ring
    rw [exponent, zpow_sub₀ two_ne_zero, zpow_natCast, zpow_natCast]
    calc (2 : ℚ) ^ n.log2 / 2 ^ (d.log2 + 1) ≤ n / 2 ^ (d.log2 + 1) := by gcongr
      _ ≤ n / d := by gcongr
  unfold floorLog
  dsimp only
  split
  · rename_i reached
    exact ⟨(spread _).mpr reached, above⟩
  · rename_i missed
    refine ⟨below, ?_⟩
    rw [sub_add_cancel]
    exact lt_of_not_ge fun reached => missed ((spread _).mp reached)

theorem unitExponentBounds {n d : Nat} (some : 0 < n) (positive : 0 < d) :
    (n : ℚ) / d * unitsInOne < 2 ^ 53 * 2 ^ unitExponent n d ∧
      (unitExponent n d = 0 ∨ (2 : ℚ) ^ 52 * 2 ^ unitExponent n d ≤ n / d * unitsInOne) := by
  obtain ⟨low, high⟩ := floorLogBounds some positive
  have defined : unitExponent n d = (floorLog n d - 52 + 1074).toNat := rfl
  generalize floorLog n d = k at *
  have scale : unitsInOne = 2 ^ 52 * 2 ^ 1022 := by rw [← pow_add]; rfl
  have least := unitsInOnePositive
  have rest : (0 : ℚ) < 2 ^ 1022 := pow_pos two_pos 1022
  by_cases normal : 0 ≤ k - 52 + 1074
  · have exponent : (unitExponent n d : ℤ) = k + (1022 : ℕ) := by push_cast; omega
    have unit : (2 : ℚ) ^ unitExponent n d = 2 ^ k * 2 ^ 1022 := by
      rw [← zpow_natCast, exponent, zpow_add₀ two_ne_zero, zpow_natCast]
    rw [unit]
    generalize (2 : ℚ) ^ 1022 = part at *
    constructor
    · calc (n : ℚ) / d * unitsInOne < 2 ^ (k + 1) * unitsInOne :=
            mul_lt_mul_of_pos_right high least
        _ = 2 ^ 53 * (2 ^ k * part) := by rw [zpow_add_one₀ two_ne_zero, scale]; ring
    · right
      have same : (2 : ℚ) ^ 52 * (2 ^ k * part) = 2 ^ k * unitsInOne := by rw [scale]; ring
      rw [same]
      exact mul_le_mul_of_nonneg_right low least.le
  · have none : unitExponent n d = 0 := by omega
    refine ⟨?_, .inl none⟩
    have tiny : (2 : ℚ) ^ (k + 1) ≤ 2 ^ (-(1022 : ℕ) : ℤ) :=
      zpow_le_zpow_right₀ one_le_two (by push_cast; omega)
    rw [zpow_neg, zpow_natCast] at tiny
    rw [none, pow_zero, mul_one]
    generalize (2 : ℚ) ^ 1022 = part at *
    calc (n : ℚ) / d * unitsInOne < 2 ^ (k + 1) * unitsInOne := mul_lt_mul_of_pos_right high least
      _ ≤ part⁻¹ * unitsInOne := mul_le_mul_of_nonneg_right tiny least.le
      _ = 2 ^ 52 := by rw [scale, mul_comm, mul_assoc, mul_inv_cancel₀ rest.ne', mul_one]
      _ < 2 ^ 53 := by norm_num

theorem roundedFar {t : ℚ} {r s : Nat} (rounded : Rounded t r) (different : s ≠ r) :
    1 / 2 ≤ |t - s| := by
  have near := abs_le.mp rounded.1
  rcases Nat.lt_or_gt_of_ne different with less | more
  · have step : (s : ℚ) + 1 ≤ r := by exact_mod_cast less
    rw [abs_of_nonneg (by linarith)]
    linarith
  · have step : (r : ℚ) + 1 ≤ s := by exact_mod_cast more
    rw [abs_of_nonpos (by linarith)]
    linarith

theorem roundedNearest {t : ℚ} {r : Nat} (rounded : Rounded t r) (s : Nat) : |t - r| ≤ |t - s| := by
  by_cases same : s = r
  · rw [same]
  · exact rounded.1.trans (roundedFar rounded same)

def Closest (t : ℚ) (m : Nat) : Prop :=
  ∀ other ≠ m, |t - units m| ≤ |t - units other| ∧
    (|t - units m| = |t - units other| → m % 2 = 0)

theorem gridDistance (t s : ℚ) (e : Nat) : |t * 2 ^ e - s * 2 ^ e| = |t - s| * 2 ^ e := by
  have unit : (0 : ℚ) < 2 ^ e := by positivity
  rw [← sub_mul, abs_mul, abs_of_pos unit]

theorem roundedRange {t : ℚ} {e r : Nat} (rounded : Rounded t r)
    (normal : e = 0 ∨ (2 : ℚ) ^ 52 ≤ t) (small : t < 2 ^ 53) :
    (e = 0 ∨ 2 ^ 52 ≤ r) ∧ r ≤ 2 ^ 53 := by
  have near := abs_le.mp rounded.1
  constructor
  · refine normal.imp id fun large => ?_
    have bound : ((2 ^ 52 : ℕ) : ℚ) < (r + 1 : ℕ) := by push_cast; linarith
    exact Nat.lt_succ_iff.mp (by exact_mod_cast bound)
  · have bound : (r : ℚ) < (2 ^ 53 + 1 : ℕ) := by push_cast; linarith
    exact Nat.lt_succ_iff.mp (by exact_mod_cast bound)

theorem belowFurther {t : ℚ} {e r other : Nat} (rounded : Rounded t r) (large : (2 : ℚ) ^ 52 ≤ t)
    (below : units other < 2 ^ 52 * 2 ^ e) : |t - r| * 2 ^ e < |t * 2 ^ e - units other| := by
  have least : (units other : ℚ) < 2 ^ 52 * 2 ^ e := by exact_mod_cast below
  calc |t - r| * 2 ^ e ≤ |t - (2 ^ 52 : ℕ)| * 2 ^ e :=
        mul_le_mul_of_nonneg_right (roundedNearest rounded _) (by positivity)
    _ = t * 2 ^ e - 2 ^ 52 * 2 ^ e := by
        rw [abs_of_nonneg (by push_cast; linarith)]
        push_cast
        ring
    _ < t * 2 ^ e - units other := by linarith
    _ ≤ |t * 2 ^ e - units other| := le_abs_self _

theorem closestOfRounded {t : ℚ} {e r : Nat} (rounded : Rounded t r)
    (normal : e = 0 ∨ (2 : ℚ) ^ 52 ≤ t) (small : t < 2 ^ 53) :
    Closest (t * 2 ^ e) (e * 2 ^ 52 + r) := by
  obtain ⟨bottom, top⟩ := roundedRange rounded normal small
  have unit : (0 : ℚ) < 2 ^ e := by positivity
  have here : (units (e * 2 ^ 52 + r) : ℚ) = r * 2 ^ e := by
    rw [unitsOf bottom top]
    push_cast
    ring
  intro other different
  rw [here, gridDistance]
  by_cases whole : 2 ^ e ∣ units other
  · obtain ⟨s, multiple⟩ := whole
    have there : (units other : ℚ) = s * 2 ^ e := by
      rw [multiple]
      push_cast
      ring
    have apart : s ≠ r := by
      rintro rfl
      have same : units other = units (e * 2 ^ 52 + s) := by exact_mod_cast there.trans here.symm
      exact different (unitsStrictMono.injective same)
    rw [there, gridDistance]
    refine ⟨mul_le_mul_of_nonneg_right (roundedNearest rounded s) unit.le, fun same => ?_⟩
    have tie := mul_right_cancel₀ unit.ne' same
    have half := le_antisymm rounded.1 (tie ▸ roundedFar rounded apart)
    have even := rounded.2 half
    omega
  · -- What is no whole number of units of this place lies below the least magnitude with it.
    have below := (unitsOnGrid e other).resolve_left whole
    have large : (2 : ℚ) ^ 52 ≤ t := by
      refine normal.resolve_left ?_
      rintro rfl
      exact whole (one_dvd _)
    have further := belowFurther rounded large below
    exact ⟨further.le, fun same => absurd same further.ne⟩

theorem absDistance (q : ℚ) (m : Nat) :
    |q - absolute m| = |q * unitsInOne - units m| / unitsInOne := by
  have split : q - absolute m = (q * unitsInOne - units m) / unitsInOne := by
    rw [absolute, sub_div, mul_div_cancel_right₀ _ unitsInOnePositive.ne']
  rw [split, abs_div, abs_of_pos unitsInOnePositive]

theorem nearestOfUnits {q : ℚ} {m : Nat} (inRange : m ≤ infinityMagnitude)
    (closest : ∀ other ≤ infinityMagnitude, other ≠ m →
      |q * unitsInOne - units m| ≤ |q * unitsInOne - units other| ∧
        (|q * unitsInOne - units m| = |q * unitsInOne - units other| → m % 2 = 0)) :
    Nearest q m := by
  refine ⟨inRange, fun other bounded => ?_, fun other bounded different same => ?_⟩
  · by_cases same : other = m
    · rw [same]
    · rw [absDistance, absDistance]
      exact div_le_div_of_nonneg_right (closest other bounded same).1 unitsInOnePositive.le
  · rw [absDistance, absDistance, div_left_inj' unitsInOnePositive.ne'] at same
    exact (closest other bounded different).2 same

theorem unitsLess {m m' : Nat} (less : m < m') : (units m : ℚ) < units m' := by
  exact_mod_cast unitsStrictMono less

theorem nearestInfinity {q : ℚ} (large : 2 ^ 1024 ≤ q) : Nearest q infinityMagnitude := by
  have beyond : (units infinityMagnitude : ℚ) ≤ q * unitsInOne := by
    rw [unitsInfinity]
    exact mul_le_mul_of_nonneg_right large unitsInOnePositive.le
  clear large
  refine nearestOfUnits (Nat.le_refl _) fun other bounded different => ?_
  have less := unitsLess (Nat.lt_of_le_of_ne bounded different)
  rw [abs_of_nonneg (by linarith), abs_of_nonneg (by linarith)]
  exact ⟨by linarith, fun same => by linarith⟩

theorem nearestFinite {q : ℚ} {m : Nat} (nonnegative : 0 ≤ q) (small : q < 2 ^ 1023)
    (nearest : Nearest q m) : m < infinityMagnitude := by
  apply Nat.lt_of_le_of_ne nearest.inRange
  rintro rfl
  have tie := nearest.closest 0 (Nat.zero_le _)
  have zero : absolute 0 = 0 := by norm_num [absolute, units]
  have top : absolute infinityMagnitude = 2 * 2 ^ 1023 := by
    rw [absolute, unitsInfinity, mul_div_cancel_right₀ _ unitsInOnePositive.ne', ← pow_succ']
  rw [zero, top, sub_zero, abs_of_nonneg nonnegative] at tie
  generalize (2 : ℚ) ^ 1023 = half at *
  rw [abs_of_nonpos (by linarith)] at tie
  linarith

theorem nearestOfClosest {q : ℚ} {m : Nat} (closest : Closest (q * unitsInOne) m) :
    Nearest q (min m infinityMagnitude) := by
  by_cases finite : m ≤ infinityMagnitude
  · rw [Nat.min_eq_left finite]
    exact nearestOfUnits finite fun other _ different => closest other different
  · -- Beyond the greatest finite double the bound takes effect.
    rw [Nat.min_eq_right (by omega)]
    refine nearestInfinity (le_of_not_gt fun less => ?_)
    have below : q * unitsInOne < units infinityMagnitude := by
      rw [unitsInfinity]
      exact mul_lt_mul_of_pos_right less unitsInOnePositive
    clear less
    have above := unitsLess (Nat.lt_of_not_le finite)
    have nearer := (closest infinityMagnitude (by omega)).1
    rw [abs_of_neg (by linarith), abs_of_neg (by linarith)] at nearer
    linarith

theorem nearestZero {q : ℚ} (nonnegative : 0 ≤ q) (tiny : q * unitsInOne < 1 / 2) :
    Nearest q 0 := by
  have scaled := mul_nonneg nonnegative unitsInOnePositive.le
  refine nearestOfUnits (Nat.zero_le _) fun other _ different => ?_
  have least : 1 ≤ units other := Nat.lt_of_le_of_lt (Nat.zero_le (units 0))
    (unitsStrictMono (Nat.pos_of_ne_zero different))
  have least' : (1 : ℚ) ≤ units other := by exact_mod_cast least
  have here : (units 0 : ℚ) = 0 := by norm_num [units]
  rw [here, sub_zero, abs_of_nonneg scaled, abs_of_nonpos (by linarith)]
  exact ⟨by linarith, fun same => by linarith⟩

theorem nearestUnique {q : ℚ} {m m' : Nat} (here : Nearest q m) (there : Nearest q m') :
    m = m' := by
  wlog less : m < m' generalizing m m'
  · rcases Nat.lt_or_eq_of_le (Nat.le_of_not_lt less) with more | same
    · exact (this there here more).symm
    · exact same.symm
  exfalso
  have tie := le_antisymm (here.closest m' there.inRange) (there.closest m here.inRange)
  have even := here.even m' there.inRange less.ne' tie
  have even' := there.even m here.inRange less.ne tie.symm
  -- Both are even, so there is a magnitude between them, which is nearer than one of them.
  have room : m + 1 < m' := by omega
  have between := here.closest (m + 1) (by have := there.inRange; omega)
  have low := unitsLess (Nat.lt_succ_self m)
  have high := unitsLess room
  rw [absDistance, absDistance, div_left_inj' unitsInOnePositive.ne'] at tie
  rw [absDistance, absDistance, div_le_div_iff_of_pos_right unitsInOnePositive] at between
  rcases abs_cases (q * unitsInOne - units m) with ⟨eq, side⟩ | ⟨eq, side⟩ <;>
  rcases abs_cases (q * unitsInOne - units m') with ⟨eq', side'⟩ | ⟨eq', side'⟩ <;>
  rcases abs_cases (q * unitsInOne - units (m + 1)) with ⟨eq'', side''⟩ | ⟨eq'', side''⟩ <;>
  linarith

theorem magnitudeOfRatioNearest {n d : Nat} (some : 0 < n) (positive : 0 < d) :
    Nearest (n / d) (magnitudeOfRatio n d) := by
  obtain ⟨high, low⟩ := unitExponentBounds some positive
  have divisor : (d : ℚ) ≠ 0 := by exact_mod_cast positive.ne'
  unfold magnitudeOfRatio
  generalize unitExponent n d = e at *
  dsimp only
  have unit : (0 : ℚ) < 2 ^ e := pow_pos two_pos e
  have scaled : (n : ℚ) / d * unitsInOne = n / d * unitsInOne / 2 ^ e * 2 ^ e :=
    (div_mul_cancel₀ _ unit.ne').symm
  have small : (n : ℚ) / d * unitsInOne / 2 ^ e < 2 ^ 53 := (div_lt_iff₀ unit).mpr high
  have normal : e = 0 ∨ (2 : ℚ) ^ 52 ≤ n / d * unitsInOne / 2 ^ e :=
    low.imp id (le_div_iff₀ unit).mpr
  rw [Nat.shiftLeft_eq, show fractionBits = 52 from rfl]
  refine nearestOfClosest (scaled ▸ closestOfRounded ?_ normal small)
  split
  · rename_i fine
    have split : unitsInOne = 2 ^ (leastExponent - e) * 2 ^ e := by
      rw [← pow_add, Nat.sub_add_cancel fine, unitsInOne]
    have same : (n : ℚ) / d * unitsInOne / 2 ^ e = (n <<< (leastExponent - e) : ℕ) / d := by
      rw [split, Nat.shiftLeft_eq]
      push_cast
      field_simp
    rw [same]
    exact roundRatioRounded positive
  · rename_i coarse
    have split : (2 : ℚ) ^ e = unitsInOne * 2 ^ (e - leastExponent) := by
      rw [unitsInOne, ← pow_add, Nat.add_sub_cancel' (by omega)]
    have least := unitsInOnePositive.ne'
    have same : (n : ℚ) / d * unitsInOne / 2 ^ e = n / (d <<< (e - leastExponent) : ℕ) := by
      rw [split, Nat.shiftLeft_eq]
      push_cast
      field_simp
    rw [same]
    exact roundRatioRounded (by rw [Nat.shiftLeft_eq]; positivity)

theorem ofMagnitudeParts (negative : Bool) {m : Nat} (inRange : m ≤ infinityMagnitude) :
    (ofMagnitude negative m).isNegative = negative ∧ (ofMagnitude negative m).magnitude = m := by
  have limit : infinityMagnitude < 2 ^ 63 := by decide
  have bit : signBit = 2 ^ 63 := by decide
  unfold ofMagnitude isNegative magnitude
  rw [bit]
  cases negative with
  | false =>
    have bits : m % 2 ^ 64 = m := Nat.mod_eq_of_lt (by omega)
    simp only [Bool.false_eq_true, if_false, UInt64.toNat_ofNat', bits, decide_eq_false_iff_not]
    omega
  | true =>
    have bits : (2 ^ 63 + m) % 2 ^ 64 = 2 ^ 63 + m := Nat.mod_eq_of_lt (by omega)
    simp only [if_true, UInt64.toNat_ofNat', bits, decide_eq_true_eq]
    omega

theorem ofMagnitudeRounds (negative : Bool) {q : ℚ} {m : Nat} (nearest : Nearest q m) :
    Rounds negative q (ofMagnitude negative m) := by
  obtain ⟨sign, same⟩ := ofMagnitudeParts negative nearest.inRange
  exact ⟨sign, same.symm ▸ nearest⟩

theorem zeroNearest : Nearest 0 0 :=
  nearestZero le_rfl (by norm_num)

theorem ofRatioRounds (negative : Bool) (n : Nat) {d : Nat} (positive : 0 < d) :
    Rounds negative (n / d) (ofRatio negative n d) := by
  unfold ofRatio
  apply ofMagnitudeRounds
  split
  · rename_i none
    rw [none, Nat.cast_zero, zero_div]
    exact zeroNearest
  · rename_i some
    exact magnitudeOfRatioNearest (Nat.pos_of_ne_zero some) positive

theorem ofNatRounds (n : Nat) : Rounds false n (ofNat n) := by
  have rounds := ofRatioRounds false n Nat.one_pos
  rwa [Nat.cast_one, div_one] at rounds

theorem wordFinite {n : Nat} (small : n < 2 ^ 64) {negative : Bool} {x : Binary64}
    (rounds : Rounds negative n x) : x.isFinite = true := by
  have less : (n : ℚ) < 2 ^ 64 := by exact_mod_cast small
  have more : (2 : ℚ) ^ 64 ≤ 2 ^ 1023 := pow_le_pow_right₀ one_le_two (by omega)
  exact decide_eq_true (nearestFinite (Nat.cast_nonneg _) (less.trans_le more) rounds.nearest)

theorem greatestPowerLess : 2 ^ 1024 ≤ 10 ^ 309 := by
  have powers : (2 ^ 256) ^ 4 ≤ (10 ^ 103) ^ 3 := by norm_num
  simpa only [← Nat.pow_mul, Nat.reduceMul] using powers

theorem leastPowerLess : 2 ^ 1075 < 10 ^ 324 := by
  have powers : (2 ^ 215) ^ 5 < (10 ^ 108) ^ 3 := by norm_num
  simpa only [← Nat.pow_mul, Nat.reduceMul] using powers

theorem pastGreatestDecade {digits : Nat} {exponent : ℤ} (some : 0 < digits)
    (large : greatestDecade ≤ exponent) : (2 : ℚ) ^ 1024 ≤ digits * 10 ^ exponent := by
  have one : (1 : ℚ) ≤ digits := by exact_mod_cast some
  have decade : ((2 ^ 1024 : ℕ) : ℚ) ≤ (10 ^ 309 : ℕ) := Nat.cast_le.mpr greatestPowerLess
  have power : ((10 ^ 309 : ℕ) : ℚ) = 10 ^ greatestDecade := by
    rw [Nat.cast_pow]
    exact (zpow_natCast 10 309).symm
  have binary : (2 : ℚ) ^ 1024 = (2 ^ 1024 : ℕ) := by rw [Nat.cast_pow, Nat.cast_two]
  calc (2 : ℚ) ^ 1024 ≤ 10 ^ greatestDecade := binary.trans_le (decade.trans_eq power)
    _ ≤ 10 ^ exponent := zpow_le_zpow_right₀ (by norm_num) large
    _ ≤ digits * 10 ^ exponent := le_mul_of_one_le_left (by positivity) one

theorem underLeastDecade {digits : Nat} {exponent : ℤ}
    (small : (digits.log2 : ℤ) + 1 + exponent ≤ leastDecade) :
    (digits : ℚ) * 10 ^ exponent * unitsInOne < 1 / 2 := by
  have room : (unitsInOne : ℚ) * 2 < 10 ^ 324 := by
    have exact : ((2 ^ 1075 : ℕ) : ℚ) < (10 ^ 324 : ℕ) := Nat.cast_lt.mpr leastPowerLess
    rwa [Nat.cast_pow, Nat.cast_pow, Nat.cast_two, pow_succ _ 1074] at exact
  have digitsBound : (digits : ℚ) ≤ 10 ^ ((digits.log2 : ℤ) + 1) := by
    have bound : digits ≤ 10 ^ (digits.log2 + 1) :=
      Nat.lt_log2_self.le.trans (Nat.pow_le_pow_left (by omega) _)
    exact_mod_cast bound
  have decade : (digits : ℚ) * 10 ^ exponent ≤ (10 ^ 324)⁻¹ :=
    calc (digits : ℚ) * 10 ^ exponent ≤ 10 ^ ((digits.log2 : ℤ) + 1) * 10 ^ exponent := by gcongr
      _ = 10 ^ ((digits.log2 : ℤ) + 1 + exponent) := (zpow_add₀ (by norm_num) _ _).symm
      _ ≤ 10 ^ leastDecade := zpow_le_zpow_right₀ (by norm_num) small
      _ = (10 ^ 324)⁻¹ := by rw [← zpow_natCast, ← zpow_neg]; rfl
  have power : (0 : ℚ) < 10 ^ 324 := pow_pos (by norm_num) 324
  generalize (10 : ℚ) ^ 324 = greatest at *
  calc (digits : ℚ) * 10 ^ exponent * unitsInOne ≤ greatest⁻¹ * unitsInOne :=
        mul_le_mul_of_nonneg_right decade unitsInOnePositive.le
    _ < 1 / 2 := by
        rw [inv_mul_eq_div, div_lt_div_iff₀ power two_pos, one_mul]
        exact room

theorem ofDecimalRounds (negative : Bool) (digits : Nat) (exponent : ℤ) :
    Rounds negative (digits * 10 ^ exponent) (ofDecimal negative digits exponent) := by
  unfold ofDecimal
  split
  · rename_i none
    rw [none, Nat.cast_zero, zero_mul]
    exact ofMagnitudeRounds negative zeroNearest
  rename_i some
  split
  · rename_i large
    exact ofMagnitudeRounds negative
      (nearestInfinity (pastGreatestDecade (Nat.pos_of_ne_zero some) large))
  split
  · rename_i small
    exact ofMagnitudeRounds negative (nearestZero (by positivity) (underLeastDecade small))
  split
  · rename_i whole
    have same : (digits : ℚ) * 10 ^ exponent = (digits * Nat.pow 10 exponent.toNat : ℕ) / (1 : ℕ) := by
      conv_lhs => rw [← Int.toNat_of_nonneg whole, zpow_natCast]
      push_cast
      simp
    rw [same]
    exact ofRatioRounds negative _ Nat.one_pos
  · rename_i fractional
    have same : (digits : ℚ) * 10 ^ exponent = digits / (Nat.pow 10 (-exponent).toNat : ℕ) := by
      have back : exponent = -((-exponent).toNat : ℤ) := by omega
      conv_lhs => rw [back]
      rw [zpow_neg, zpow_natCast, ← div_eq_mul_inv]
      simp
    rw [same]
    exact ofRatioRounds negative _ (Nat.pow_pos (by omega))

theorem negatedParts (x : Binary64) :
    x.negated.isNegative = !x.isNegative ∧ x.negated.magnitude = x.magnitude := by
  have bounded := x.bits.toNat_lt
  have bits : x.negated.bits.toNat = x.bits.toNat ^^^ 2 ^ 63 := by
    simp only [negated, UInt64.toNat_xor]
    rfl
  have high : (x.bits.toNat ^^^ 2 ^ 63) / 2 ^ 63 = x.bits.toNat / 2 ^ 63 ^^^ 1 := Nat.xor_div_two_pow
  have low : (x.bits.toNat ^^^ 2 ^ 63) % 2 ^ 63 = x.bits.toNat % 2 ^ 63 ^^^ 0 := Nat.xor_mod_two_pow
  unfold isNegative magnitude
  rw [bits, show signBit = 2 ^ 63 from rfl, low, Nat.xor_zero]
  refine ⟨?_, rfl⟩
  by_cases negative : 2 ^ 63 ≤ x.bits.toNat
  · have one : x.bits.toNat / 2 ^ 63 = 1 := by omega
    rw [one] at high
    have zero : (x.bits.toNat ^^^ 2 ^ 63) / 2 ^ 63 = 0 := high
    simp only [negative, decide_true, Bool.not_true, decide_eq_false_iff_not]
    omega
  · have zero : x.bits.toNat / 2 ^ 63 = 0 := by omega
    rw [zero] at high
    have one : (x.bits.toNat ^^^ 2 ^ 63) / 2 ^ 63 = 1 := high
    simp only [negative, decide_false, Bool.not_false, decide_eq_true_eq]
    omega

theorem negatedRounds {q : ℚ} {x : Binary64} {negative : Bool} (rounds : Rounds negative q x) :
    Rounds (!negative) q x.negated := by
  obtain ⟨sign, same⟩ := negatedParts x
  exact ⟨by rw [sign, rounds.sign], same.symm ▸ rounds.nearest⟩

theorem ofParts {x y : Binary64} (sign : x.isNegative = y.isNegative)
    (same : x.magnitude = y.magnitude) : x = y := by
  have bounded := x.bits.toNat_lt
  have bounded' := y.bits.toNat_lt
  have bit : signBit = 2 ^ 63 := rfl
  unfold isNegative at sign
  unfold magnitude at same
  rw [decide_eq_decide, bit] at sign
  rw [bit] at same
  have bits : x.bits.toNat = y.bits.toNat := by omega
  cases x
  cases y
  congr 1
  exact UInt64.toNat_inj.mp bits

theorem roundsUnique {negative : Bool} {q : ℚ} {x y : Binary64} (here : Rounds negative q x)
    (there : Rounds negative q y) : x = y :=
  ofParts (here.sign.trans there.sign.symm) (nearestUnique here.nearest there.nearest)

theorem wholeRounds (negative : Bool) (n : Nat) : Rounds negative n (ofDecimal negative n 0) := by
  have rounds := ofDecimalRounds negative n 0
  rwa [zpow_zero, mul_one] at rounds

theorem negatedWhole (n : Nat) : (ofNat n).negated = ofDecimal true n 0 :=
  roundsUnique (negatedRounds (ofNatRounds n)) (wholeRounds true n)

theorem wholeFinite {n : Nat} (negative : Bool) (small : n < 2 ^ 64) :
    (ofDecimal negative n 0).isFinite = true :=
  wordFinite small (wholeRounds negative n)

end Descent.Binary64
