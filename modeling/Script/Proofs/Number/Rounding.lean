import Mathlib
import Script.Number.Numeral
import Script.Proofs.Number.Doubles

/-! Whole numbers rounded to doubles.
A whole number of more than 53 binary digits is rounded to a multiple of a unit, a power of two. -/
namespace Script.Number

variable {num den n : Nat}

/-- The quotient is rounded by at most a half, and by a half only to an even number. -/
theorem roundQuotient_near (num : Nat) (positive : 0 < den) :
    2 * num ≤ 2 * (roundQuotient num den * den) + den ∧
    2 * (roundQuotient num den * den) ≤ 2 * num + den ∧
    (2 * num = 2 * (roundQuotient num den * den) + den ∨
      2 * (roundQuotient num den * den) = 2 * num + den → roundQuotient num den % 2 = 0) := by
  have whole := Nat.div_add_mod' num den
  have below := Nat.mod_lt num positive
  unfold roundQuotient
  dsimp only
  split
  · omega
  split
  · rw [Nat.add_mul, Nat.one_mul]
    omega
  · rcases Nat.mod_two_eq_zero_or_one (num / den) with even | odd
    · rw [even, Nat.add_zero]
      omega
    · rw [odd, Nat.add_mul, Nat.one_mul]
      omega

theorem le_roundQuotient {a : Nat} (positive : 0 < den) (h : a * den ≤ num) :
    a ≤ roundQuotient num den := by
  obtain ⟨above, -, -⟩ := roundQuotient_near num positive
  by_contra less
  have step : (roundQuotient num den + 1) * den ≤ a * den :=
    Nat.mul_le_mul_right den (Nat.not_le.mp less)
  rw [Nat.add_mul, Nat.one_mul] at step
  omega

theorem roundQuotient_le {a : Nat} (positive : 0 < den) (h : num ≤ a * den) :
    roundQuotient num den ≤ a := by
  obtain ⟨-, below, -⟩ := roundQuotient_near num positive
  by_contra more
  have step : (a + 1) * den ≤ roundQuotient num den * den :=
    Nat.mul_le_mul_right den (Nat.not_le.mp more)
  rw [Nat.add_mul, Nat.one_mul] at step
  omega

theorem roundQuotient_mul {a : Nat} (positive : 0 < den) : roundQuotient (a * den) den = a :=
  Nat.le_antisymm (roundQuotient_le positive (Nat.le_refl _))
    (le_roundQuotient positive (Nat.le_refl _))

theorem pow_le_of_le_log2 {a b : Nat} (positive : 0 < n) (h : a + b ≤ n.log2) :
    2 ^ a * 2 ^ b ≤ n := by
  rw [← pow_add]
  exact (Nat.le_log2 (Nat.ne_of_gt positive)).mp h

theorem lt_pow_of_log2_lt {a b : Nat} (positive : 0 < n) (h : n.log2 < a + b) :
    n < 2 ^ a * 2 ^ b := by
  rw [← pow_add]
  exact (Nat.log2_lt (Nat.ne_of_gt positive)).mp h

/-- The unit of 53 binary digits. -/
def unitOf (n : Nat) : Nat := 2 ^ (n.log2 - 52)

/-- The 53 binary digits that are kept of a whole number, those of a small one filled up. -/
def significandOf (n : Nat) : Nat := roundQuotient (n * 2 ^ (52 - n.log2)) (unitOf n)

theorem nearestBits_whole (positive : 0 < n) :
    nearestBits n 1 = min ((n.log2 + 1022) * twoTo 52 + significandOf n) infinityBits := by
  have width : binaryWidth n 1 = n.log2 + 1 := by
    have large : ¬ n * twoTo (-(n.log2 : Int)).toNat < 1 * twoTo ((n.log2 : Int)).toNat := by
      have := Nat.log2_self_le (Nat.ne_of_gt positive)
      simp only [twoTo, Nat.pow_eq, Int.toNat_natCast, Int.toNat_neg_natCast, Nat.pow_zero]
      omega
    have one : (1 : Nat).log2 = 0 := rfl
    simp only [binaryWidth, one, Int.natCast_zero, Int.sub_zero, if_neg large]
  have unit : unitExponent n 1 = (n.log2 : Int) - 52 := by
    rw [unitExponent, width]
    omega
  have left : (-((n.log2 : Int) - 52)).toNat = 52 - n.log2 := by omega
  have right : ((n.log2 : Int) - 52).toNat = n.log2 - 52 := by omega
  have biased : ((n.log2 : Int) - 52 + 1074).toNat = n.log2 + 1022 := by omega
  simp only [nearestBits, if_neg (Nat.ne_of_gt positive), unit, bitsOf, left, right, biased,
    Nat.one_mul]
  rfl

theorem unitOf_pos (n : Nat) : 0 < unitOf n := Nat.two_pow_pos _

theorem significandOf_bounds (positive : 0 < n) :
    2 ^ 52 ≤ significandOf n ∧ significandOf n ≤ 2 ^ 53 := by
  have low := Nat.log2_self_le (Nat.ne_of_gt positive)
  have high := Nat.le_of_lt (Nat.lt_log2_self (n := n))
  constructor
  · refine le_roundQuotient (unitOf_pos n) ?_
    calc 2 ^ 52 * unitOf n = 2 ^ n.log2 * 2 ^ (52 - n.log2) := by
          rw [unitOf, ← Nat.pow_add, ← Nat.pow_add]
          congr 1
          omega
      _ ≤ n * 2 ^ (52 - n.log2) := Nat.mul_le_mul_right _ low
  · refine roundQuotient_le (unitOf_pos n) ?_
    calc n * 2 ^ (52 - n.log2) ≤ 2 ^ (n.log2 + 1) * 2 ^ (52 - n.log2) := Nat.mul_le_mul_right _ high
      _ = 2 ^ 53 * unitOf n := by
          rw [unitOf, ← Nat.pow_add, ← Nat.pow_add]
          congr 1
          omega

/-- The whole number that a whole number is rounded to. -/
def rounded (n : Nat) : Nat := roundQuotient n (unitOf n) * unitOf n

theorem roundQuotient_one (n : Nat) : roundQuotient n 1 = n := by
  have whole : roundQuotient (n * 1) 1 = n := roundQuotient_mul Nat.one_pos
  rwa [Nat.mul_one] at whole

/-- Up to 53 binary digits a whole number is not rounded. -/
theorem rounded_of_log2_le (small : n.log2 ≤ 52) :
    rounded n = n ∧ significandOf n = n * 2 ^ (52 - n.log2) := by
  have unit : unitOf n = 1 := by rw [unitOf, Nat.sub_eq_zero_of_le small, Nat.pow_zero]
  rw [rounded, significandOf, unit, roundQuotient_one, roundQuotient_one, Nat.mul_one]
  exact ⟨rfl, rfl⟩

theorem rounded_of_le_log2 (large : 52 ≤ n.log2) :
    significandOf n = roundQuotient n (unitOf n) := by
  rw [significandOf, Nat.sub_eq_zero_of_le large, Nat.pow_zero, Nat.mul_one]

theorem significandOf_mul (n : Nat) :
    significandOf n * unitOf n = rounded n * 2 ^ (52 - n.log2) := by
  rcases Nat.le_total n.log2 52 with small | large
  · obtain ⟨same, digits⟩ := rounded_of_log2_le small
    rw [same, digits, unitOf, Nat.sub_eq_zero_of_le small, Nat.pow_zero, Nat.mul_one]
  · rw [rounded_of_le_log2 large, Nat.sub_eq_zero_of_le large, Nat.pow_zero, Nat.mul_one, rounded]

theorem lt_log2_of_carry (carry : significandOf n = 2 ^ 53) : 52 < n.log2 := by
  by_contra small
  have small := Nat.le_of_not_lt small
  have fits : n * 2 ^ (52 - n.log2) < 2 ^ 53 := by
    calc n * 2 ^ (52 - n.log2) < 2 ^ (n.log2 + 1) * 2 ^ (52 - n.log2) :=
          Nat.mul_lt_mul_of_pos_right Nat.lt_log2_self (Nat.two_pow_pos _)
      _ = 2 ^ 53 := by
          rw [← Nat.pow_add]
          congr 1
          omega
  rw [(rounded_of_log2_le small).2] at carry
  omega

theorem magnitude_ofBits {e f : Nat} (low : 0 < e) (high : e < 2047) (hf : f < twoTo 52) :
    Magnitude.ofBits (e * twoTo 52 + f) = ⟨twoTo 52 + f, (e : Int) - 1075⟩ := by
  have field : (e * twoTo 52 + f) / twoTo 52 = e := by
    have positive : 0 < twoTo 52 := Nat.two_pow_pos 52
    rw [Nat.mul_comm, Nat.mul_add_div positive, Nat.div_eq_of_lt hf, Nat.add_zero]
  have fraction : (e * twoTo 52 + f) % twoTo 52 = f := by
    rw [Nat.mul_comm, Nat.mul_add_mod, Nat.mod_eq_of_lt hf]
  simp only [Magnitude.ofBits, field, fraction]
  rw [Nat.mod_eq_of_lt (by omega), if_neg (by omega)]

theorem twoTo_eq (n : Nat) : twoTo n = 2 ^ n := rfl

theorem infinityBits_eq : infinityBits = 2047 * 2 ^ 52 := rfl

/-- The number does not overflow when it is rounded. -/
def Fits (n : Nat) : Prop := (n.log2 + 1022) * twoTo 52 + significandOf n < infinityBits

theorem nearest_bits (positive : 0 < n) (fits : Fits n) :
    (nearest n 1).toBits.toNat = (n.log2 + 1022) * twoTo 52 + significandOf n := by
  have bits := nearestBits_whole positive
  rw [Nat.min_eq_left (Nat.le_of_lt fits)] at bits
  rw [nearest, bits, toBits_ofBits (Nat.le_of_lt fits)]

theorem magnitude_nearest (positive : 0 < n) (fits : Fits n) :
    magnitude (nearest n 1) = if significandOf n = 2 ^ 53 then ⟨2 ^ 52, n.log2 - 51⟩
      else ⟨significandOf n, n.log2 - 52⟩ := by
  obtain ⟨low, high⟩ := significandOf_bounds positive
  rw [magnitude, nearest_bits positive fits]
  rw [Fits, infinityBits_eq, twoTo_eq] at fits
  split
  · rename_i carry
    have bits : (n.log2 + 1022) * twoTo 52 + significandOf n = (n.log2 + 1024) * twoTo 52 + 0 := by
      rw [twoTo_eq]
      omega
    rw [bits, magnitude_ofBits (by omega) (by omega) (by decide)]
    refine congrArg (Magnitude.mk _) ?_
    omega
  · rename_i carry
    obtain ⟨f, hf⟩ := Nat.exists_eq_add_of_le low
    have bits : (n.log2 + 1022) * twoTo 52 + significandOf n = (n.log2 + 1023) * twoTo 52 + f := by
      rw [twoTo_eq]
      omega
    have small : f < twoTo 52 := by
      rw [twoTo_eq]
      omega
    rw [bits, magnitude_ofBits (by omega) (by omega) small, hf]
    refine congrArg (Magnitude.mk _) ?_
    omega

def Magnitude.value (x : Magnitude) : ℚ := x.significand * 2 ^ x.unit

/-- The number that a finite double is. -/
def value (x : Float) : ℚ := if isNegative x then -(magnitude x).value else (magnitude x).value

/-- The finite double that is nearest to a number; of two that are, the one whose significand is
even. -/
structure IsNearest (q : ℚ) (x : Float) : Prop where
  finite : x.isFinite = true
  nearest : ∀ y : Float, y.isFinite = true → |value x - q| ≤ |value y - q|
  even : ∀ y : Float, y.isFinite = true → |value y - q| = |value x - q| → value y ≠ value x →
    (magnitude x).significand % 2 = 0

def Magnitude.IsWhole (x : Magnitude) (v : Nat) : Prop := x.numerator = v * x.denominator

theorem Magnitude.IsWhole.whole? {x : Magnitude} {v : Nat} (h : x.IsWhole v) :
    x.whole? = some v := by
  have positive : 0 < x.denominator := Nat.two_pow_pos _
  rw [Magnitude.whole?, h, Nat.mul_mod_left, if_pos rfl, Nat.mul_div_cancel _ positive]

theorem Magnitude.value_mul (x : Magnitude) : x.value * x.denominator = x.numerator := by
  have positive : (2 : ℚ) ≠ 0 := by norm_num
  have powers : (2 : ℚ) ^ x.unit * 2 ^ (-x.unit).toNat = 2 ^ x.unit.toNat := by
    rw [← zpow_natCast, ← zpow_natCast, ← zpow_add₀ positive]
    congr 1
    omega
  simp only [Magnitude.value, Magnitude.numerator, Magnitude.denominator, twoTo, Nat.pow_eq]
  push_cast
  rw [mul_assoc, powers]

theorem Magnitude.IsWhole.value {x : Magnitude} {v : Nat} (h : x.IsWhole v) : x.value = v := by
  have positive : (x.denominator : ℚ) ≠ 0 := Nat.cast_ne_zero.mpr (Nat.ne_of_gt (Nat.two_pow_pos _))
  have product := x.value_mul
  rw [h, Nat.cast_mul] at product
  exact mul_right_cancel₀ positive product

theorem magnitude_nearest_isWhole (positive : 0 < n) (fits : Fits n) :
    (magnitude (nearest n 1)).IsWhole (rounded n) := by
  rw [magnitude_nearest positive fits]
  have product := significandOf_mul n
  simp only [unitOf] at product
  split
  · rename_i carry
    have large := lt_log2_of_carry carry
    have exponent : ((n.log2 : Int) - 51).toNat = n.log2 - 52 + 1 := by omega
    have none : (-((n.log2 : Int) - 51)).toNat = 0 := by omega
    rw [carry, Nat.sub_eq_zero_of_le (Nat.le_of_lt large), Nat.pow_zero, Nat.mul_one] at product
    simp only [Magnitude.IsWhole, Magnitude.numerator, Magnitude.denominator, twoTo, Nat.pow_eq,
      exponent, none, Nat.pow_zero, Nat.mul_one, ← product]
    rw [Nat.pow_succ]
    ring
  · have exponent : ((n.log2 : Int) - 52).toNat = n.log2 - 52 := by omega
    have filled : (-((n.log2 : Int) - 52)).toNat = 52 - n.log2 := by omega
    simp only [Magnitude.IsWhole, Magnitude.numerator, Magnitude.denominator, twoTo, Nat.pow_eq,
      exponent, filled]
    exact product

theorem isNegative_nearest (positive : 0 < n) (fits : Fits n) :
    isNegative (nearest n 1) = false := by
  have small : infinityBits < twoTo 63 := by decide
  rw [isNegative, nearest_bits positive fits]
  exact decide_eq_false (by rw [Fits] at fits; omega)

theorem isFinite_nearest (positive : 0 < n) (fits : Fits n) : (nearest n 1).isFinite = true := by
  rw [isFinite_iff, nearest_bits positive fits, exponentField]
  rw [Fits, infinityBits_eq, ← twoTo_eq] at fits
  have field := (Nat.div_lt_iff_lt_mul (show 0 < twoTo 52 from Nat.two_pow_pos 52)).mpr fits
  rw [Nat.mod_eq_of_lt (Nat.lt_trans field (by decide))]
  exact Nat.ne_of_lt field

theorem value_nearest (positive : 0 < n) (fits : Fits n) : value (nearest n 1) = rounded n := by
  rw [value, isNegative_nearest positive fits, if_neg Bool.false_ne_true]
  exact (magnitude_nearest_isWhole positive fits).value

theorem significand_lt (bits : Nat) : (Magnitude.ofBits bits).significand < 2 ^ 53 := by
  have fraction : bits % twoTo 52 < 2 ^ 52 := Nat.mod_lt _ (Nat.two_pow_pos 52)
  simp only [Magnitude.ofBits]
  split
  · exact Nat.lt_trans fraction (by decide)
  · simp only [twoTo_eq] at fraction ⊢
    omega

theorem abs_value (x : Float) : |value x| = (magnitude x).value := by
  have nonneg : 0 ≤ (magnitude x).value := by
    unfold Magnitude.value
    positivity
  rw [value]
  split
  · rw [abs_neg, abs_of_nonneg nonneg]
  · exact abs_of_nonneg nonneg

/-- A double of 54 binary digits or more in front of its unit is a multiple of the unit. -/
theorem on_grid (y : Float) (k : Nat) :
    (∃ a : ℤ, value y = a * (2 ^ k : ℕ)) ∨ |value y| < (2 ^ 52 * 2 ^ k : ℕ) := by
  have digits := significand_lt y.toBits.toNat
  have positive : (2 : ℚ) ≠ 0 := by norm_num
  rcases Int.lt_or_le (magnitude y).unit k with fine | coarse
  · right
    rw [abs_value, Magnitude.value]
    have unit : (2 : ℚ) ^ (magnitude y).unit ≤ 2 ^ ((k : Int) - 1) :=
      zpow_le_zpow_right₀ (by norm_num) (by omega)
    have digits : ((magnitude y).significand : ℚ) < 2 ^ 53 := by exact_mod_cast digits
    calc (magnitude y).significand * (2 : ℚ) ^ (magnitude y).unit
        ≤ (magnitude y).significand * (2 : ℚ) ^ ((k : Int) - 1) := by gcongr
      _ < 2 ^ 53 * (2 : ℚ) ^ ((k : Int) - 1) := by gcongr
      _ = (2 ^ 52 * 2 ^ k : ℕ) := by
          rw [zpow_sub₀ positive, zpow_natCast]
          push_cast
          ring
  · left
    have whole : (magnitude y).value =
        (((magnitude y).significand * 2 ^ ((magnitude y).unit - k).toNat : ℕ) : ℚ) * 2 ^ k := by
      have exponent : (magnitude y).unit = (((magnitude y).unit - k).toNat + k : ℕ) := by omega
      rw [Magnitude.value, exponent, zpow_natCast, pow_add, ← exponent]
      push_cast
      ring
    rw [value, whole]
    generalize (magnitude y).significand * 2 ^ ((magnitude y).unit - k).toNat = units
    split
    · exact ⟨-units, by push_cast; ring⟩
    · exact ⟨units, by push_cast; ring⟩

/-- What lies a unit away from a point is no nearer to what lies within half a unit of it. -/
theorem nearer_of_apart {v w r unit : ℤ} (near : 2 * |v - r| ≤ unit) (apart : unit ≤ |w - v|) :
    |v - r| ≤ |w - r| ∧ (|w - r| = |v - r| → 2 * |v - r| = unit) := by
  have around : |w - v| ≤ |w - r| + |r - v| := abs_sub_le w r v
  rw [abs_sub_comm r v] at around
  omega

/-- No multiple of the unit is nearer than the rounded number, and another one is as near only where
the digits of the rounded number are even. -/
theorem rounded_nearest (n : Nat) (a : ℤ) :
    |(rounded n : ℤ) - n| ≤ |a * unitOf n - n| ∧
    (|a * unitOf n - n| = |(rounded n : ℤ) - n| → a * unitOf n ≠ rounded n →
      roundQuotient n (unitOf n) % 2 = 0) := by
  obtain ⟨above, below, even⟩ := roundQuotient_near n (unitOf_pos n)
  rw [← rounded] at above below even
  by_cases same : a = roundQuotient n (unitOf n)
  · have scaled : a * unitOf n = rounded n := by rw [rounded, same, Nat.cast_mul]
    rw [scaled]
    exact ⟨le_refl _, fun _ other => absurd rfl other⟩
  · have near : 2 * |(rounded n : ℤ) - n| ≤ unitOf n := by
      rcases abs_cases ((rounded n : ℤ) - n) with ⟨h, -⟩ | ⟨h, -⟩ <;> omega
    have apart : (unitOf n : ℤ) ≤ |a * unitOf n - rounded n| := by
      rw [rounded, Nat.cast_mul, ← sub_mul, abs_mul, Nat.abs_cast]
      exact le_mul_of_one_le_left (Int.natCast_nonneg _) (Int.one_le_abs (sub_ne_zero.mpr same))
    obtain ⟨nearer, tie⟩ := nearer_of_apart near apart
    refine ⟨nearer, fun equal _ => even ?_⟩
    have half := tie equal
    rcases abs_cases ((rounded n : ℤ) - n) with ⟨h, -⟩ | ⟨h, -⟩ <;> omega

theorem nearer_of_abs_lt {p q r v : ℚ} (behind : p ≤ r) (near : |v - r| ≤ |p - r|)
    (below : |q| < p) : |v - r| < |q - r| := by
  rw [abs_of_nonpos (sub_nonpos.mpr behind)] at near
  have less := (abs_lt.mp below).2
  have far := neg_le_abs (q - r)
  linarith

/-- No double is nearer to a whole number than the rounded one, and another one is as near only
where digits were dropped and those that are left are even. -/
theorem rounded_nearest_double (positive : 0 < n) (y : Float) :
    |(rounded n : ℚ) - n| ≤ |value y - n| ∧
    (|value y - n| = |(rounded n : ℚ) - n| → value y ≠ rounded n →
      52 < n.log2 ∧ roundQuotient n (unitOf n) % 2 = 0) := by
  rcases Nat.lt_or_ge 52 n.log2 with large | small
  · rcases on_grid y (n.log2 - 52) with ⟨a, multiple⟩ | low
    · obtain ⟨near, even⟩ := rounded_nearest n a
      rw [multiple, ← unitOf]
      refine ⟨by exact_mod_cast near, fun same other => ⟨large, even ?_ ?_⟩⟩
      · exact_mod_cast same
      · exact_mod_cast other
    · -- the double lies below the least number of so many digits, which is on the grid
      have least : 2 ^ 52 * unitOf n ≤ n := pow_le_of_le_log2 positive (by omega)
      have near := (rounded_nearest n (2 ^ 52 : ℕ)).1
      rw [← unitOf] at low
      rw [← Nat.cast_mul] at near
      generalize 2 ^ 52 * unitOf n = p at least near low
      have strict := nearer_of_abs_lt (v := (rounded n : ℚ)) (Nat.cast_le.mpr least)
        (by exact_mod_cast near) low
      exact ⟨le_of_lt strict, fun same => absurd same (ne_of_gt strict)⟩
  · rw [(rounded_of_log2_le small).1, sub_self, abs_zero]
    refine ⟨abs_nonneg _, fun same other => absurd ?_ other⟩
    exact sub_eq_zero.mp (abs_eq_zero.mp same)

/-- A whole number that fits is rounded to the nearest double. -/
theorem nearest_isNearest (positive : 0 < n) (fits : Fits n) : IsNearest n (nearest n 1) := by
  have value := value_nearest positive fits
  refine ⟨isFinite_nearest positive fits, fun y _ => ?_, fun y _ same other => ?_⟩
  · rw [value]
    exact (rounded_nearest_double positive y).1
  · rw [value] at same other
    obtain ⟨large, even⟩ := (rounded_nearest_double positive y).2 same other
    rw [magnitude_nearest positive fits]
    split
    · show 2 ^ 52 % 2 = 0
      norm_num
    · dsimp only
      rw [rounded_of_le_log2 (Nat.le_of_lt large)]
      exact even

theorem log2_of_digits {m : Nat} (low : 2 ^ 52 ≤ m) (high : m < 2 ^ 53) (k : Nat) :
    (m * 2 ^ k).log2 = 52 + k := by
  have positive : m * 2 ^ k ≠ 0 := Nat.ne_of_gt (Nat.mul_pos (by omega) (Nat.two_pow_pos k))
  rw [Nat.log2_eq_iff positive, Nat.add_right_comm, Nat.pow_add, Nat.pow_add]
  exact ⟨Nat.mul_le_mul_right _ low, Nat.mul_lt_mul_of_pos_right high (Nat.two_pow_pos k)⟩

theorem significandOf_of_digits {m : Nat} (low : 2 ^ 52 ≤ m) (high : m < 2 ^ 53) (k : Nat) :
    significandOf (m * 2 ^ k) = m ∧ rounded (m * 2 ^ k) = m * 2 ^ k := by
  have unit : unitOf (m * 2 ^ k) = 2 ^ k := by
    rw [unitOf, log2_of_digits low high, Nat.add_sub_cancel_left]
  have same : roundQuotient (m * 2 ^ k) (unitOf (m * 2 ^ k)) = m := by
    rw [unit, roundQuotient_mul (Nat.two_pow_pos k)]
  constructor
  · rw [rounded_of_le_log2 (by rw [log2_of_digits low high]; exact Nat.le_add_right _ _), same]
  · rw [rounded, same, unit]

theorem nearestBits_of_digits {m : Nat} (low : 2 ^ 52 ≤ m) (high : m < 2 ^ 53) (k : Nat) :
    nearestBits (m * 2 ^ k) 1 = min ((52 + k + 1022) * twoTo 52 + m) infinityBits := by
  rw [nearestBits_whole (Nat.mul_pos (by omega) (Nat.two_pow_pos k)), log2_of_digits low high,
    (significandOf_of_digits low high k).1]

/-- What a number is rounded to is rounded to itself. -/
theorem nearestBits_rounded (n : Nat) : nearestBits (rounded n) 1 = nearestBits n 1 := by
  rcases Nat.lt_or_ge 52 n.log2 with large | small
  · have positive : 0 < n := by
      rcases Nat.eq_zero_or_pos n with rfl | positive
      · cases large
      · exact positive
    obtain ⟨low, high⟩ := significandOf_bounds positive
    have digits := rounded_of_le_log2 (Nat.le_of_lt large)
    rw [nearestBits_whole positive, rounded, ← digits, unitOf]
    rcases Nat.eq_or_lt_of_le high with carry | fits
    · have split : 2 ^ 53 * 2 ^ (n.log2 - 52) = 2 ^ 52 * 2 ^ (n.log2 - 52 + 1) := by
        rw [Nat.pow_succ, Nat.pow_succ]
        ring
      have bits : (52 + (n.log2 - 52 + 1) + 1022) * twoTo 52 + 2 ^ 52 =
          (n.log2 + 1022) * twoTo 52 + 2 ^ 53 := by
        rw [twoTo_eq]
        omega
      rw [carry, split, nearestBits_of_digits (Nat.le_refl _) (by decide), bits]
    · have exponent : 52 + (n.log2 - 52) + 1022 = n.log2 + 1022 := by omega
      rw [nearestBits_of_digits low fits, exponent]
  · rw [(rounded_of_log2_le small).1]

theorem rounded_of_le (small : n ≤ 2 ^ 53) : rounded n = n := by
  rcases Nat.eq_or_lt_of_le small with rfl | small
  · exact (significandOf_of_digits (Nat.le_refl _) (by decide) 1).2
  · rcases Nat.eq_zero_or_pos n with rfl | positive
    · rfl
    · have few := (Nat.log2_lt (Nat.ne_of_gt positive)).mpr small
      exact (rounded_of_log2_le (by omega)).1

/-- The least power of two that is no double, in halves of the largest unit. -/
theorem overflow_power : 2 ^ 1024 = 2 ^ 54 * 2 ^ 970 := by
  rw [show 1024 = 54 + 970 from rfl, pow_add]

/-- A number overflows from half a unit below the least power of two that is no double. -/
theorem fits_iff (positive : 0 < n) : Fits n ↔ n < 2 ^ 1024 - 2 ^ 970 := by
  obtain ⟨low, high⟩ := significandOf_bounds positive
  rw [Fits, infinityBits_eq, twoTo_eq, overflow_power]
  rcases Nat.lt_trichotomy n.log2 1023 with small | last | large
  · have less : n < 2 ^ 53 * 2 ^ 970 := lt_pow_of_log2_lt positive small
    generalize 2 ^ 970 = half at less
    omega
  · have digits := rounded_of_le_log2 (n := n) (by omega)
    obtain ⟨above, below, even⟩ := roundQuotient_near n (unitOf_pos n)
    have unit : unitOf n = 2 * 2 ^ 970 := by rw [unitOf, last, ← pow_succ']
    rw [← digits, unit] at above below even
    rw [last]
    have half_pos : 0 < 2 ^ 970 := pow_pos Nat.two_pos 970
    generalize 2 ^ 970 = half at above below even half_pos ⊢
    rcases Nat.lt_trichotomy (significandOf n) (2 ^ 53 - 1) with less | odd | carry
    · have product : significandOf n * (2 * half) ≤ (2 ^ 53 - 2) * (2 * half) :=
        Nat.mul_le_mul_right _ (by omega)
      omega
    · -- the largest double is odd, so a number half a unit behind it is rounded up
      rw [odd] at above even ⊢
      omega
    · have product : 2 ^ 53 * (2 * half) ≤ significandOf n * (2 * half) :=
        Nat.mul_le_mul_right _ carry
      omega
  · have more : 2 ^ 54 * 2 ^ 970 ≤ n := pow_le_of_le_log2 positive large
    omega

end Script.Number
