import Mathlib.Data.Int.Log
import Mathlib.Data.Rat.Floor

/-! # Python floats

A Python `float` is an IEEE 754 binary64 double, and each arithmetic operation on floats, and
`float(n)` of an integer, rounds the exact result to the nearest double, ties to even. Values
are rationals here, and `toDouble` is that rounding: to the nearest multiple of `2 ^ ulpExp x`,
the last place of the doubles around `x`, which has 53 significant bits in the normal range and
is `2^-1074` among the subnormals. Overflow is left out: the values rounded here stay far below
`2^1024`.

The rounding errs by at most half a last place (`abs_toDouble_sub_le`), so by at most `2^-53`
of the value plus `2^-1075` (`abs_toDouble_sub_le_rel`), and it keeps the naturals below `2^53`
(`toDouble_natCast`). A value of a given binade rounds to the multiple of its last place
within one half (`toDouble_eq_of_near`), which evaluates the rounding at given inputs. -/

namespace QueueFlex

/-- The integer nearest `q`, ties to even. -/
def roundHalfEven (q : ℚ) : ℤ :=
  if Int.fract q < 1 / 2 then ⌊q⌋
  else if 1 / 2 < Int.fract q then ⌊q⌋ + 1
  else if ⌊q⌋ % 2 = 0 then ⌊q⌋ else ⌊q⌋ + 1

/-- The exponent of the last place of the doubles around `x`: `⌊log₂ |x|⌋ - 52`, and `-1074`
below the normal range. -/
def ulpExp (x : ℚ) : ℤ := max (Int.log 2 |x| - 52) (-1074)

/-- The double nearest `x`, ties to even. -/
def toDouble (x : ℚ) : ℚ := roundHalfEven (x / 2 ^ ulpExp x) * 2 ^ ulpExp x

theorem roundHalfEven_cases (q : ℚ) :
    roundHalfEven q = ⌊q⌋ ∧ Int.fract q ≤ 1 / 2 ∨
      roundHalfEven q = ⌊q⌋ + 1 ∧ 1 / 2 ≤ Int.fract q := by
  unfold roundHalfEven
  split
  · exact .inl ⟨rfl, le_of_lt ‹_›⟩
  · split
    · exact .inr ⟨rfl, le_of_lt ‹_›⟩
    · have h : Int.fract q = 1 / 2 := le_antisymm (not_lt.mp ‹_›) (not_lt.mp ‹_›)
      split
      · exact .inl ⟨rfl, h.le⟩
      · exact .inr ⟨rfl, h.ge⟩

/-- **Nearest**: the rounding is within one half of `q`. -/
theorem abs_roundHalfEven_sub_le (q : ℚ) : |(roundHalfEven q : ℚ) - q| ≤ 1 / 2 := by
  have hq : q = ⌊q⌋ + Int.fract q := (Int.floor_add_fract q).symm
  have := Int.fract_lt_one q
  rw [abs_le]
  rcases roundHalfEven_cases q with ⟨h, hf⟩ | ⟨h, hf⟩ <;> rw [h] <;> push_cast <;>
    constructor <;> linarith [Int.fract_nonneg q]

/-- An integer closer than one half to `q` is its rounding. -/
theorem roundHalfEven_eq_of_abs_lt {q : ℚ} {m : ℤ} (h : |q - m| < 1 / 2) :
    roundHalfEven q = m := by
  have h' := abs_roundHalfEven_sub_le q
  rw [abs_lt] at h
  rw [abs_le] at h'
  have h₁ : ((roundHalfEven q - m : ℤ) : ℚ) < 1 := by push_cast; linarith
  have h₂ : (-1 : ℚ) < ((roundHalfEven q - m : ℤ) : ℚ) := by push_cast; linarith
  have h₁' : roundHalfEven q - m < 1 := by exact_mod_cast h₁
  have h₂' : -1 < roundHalfEven q - m := by exact_mod_cast h₂
  omega

theorem roundHalfEven_intCast (z : ℤ) : roundHalfEven z = z := by
  simp [roundHalfEven, Int.fract_intCast]

theorem roundHalfEven_nonneg {q : ℚ} (h : 0 ≤ q) : 0 ≤ roundHalfEven q := by
  have := Int.floor_nonneg.mpr h
  rcases roundHalfEven_cases q with ⟨e, -⟩ | ⟨e, -⟩ <;> omega

theorem toDouble_nonneg {x : ℚ} (h : 0 ≤ x) : 0 ≤ toDouble x := by
  have h2 : (0 : ℚ) < 2 ^ ulpExp x := zpow_pos two_pos _
  exact mul_nonneg (Int.cast_nonneg.mpr (roundHalfEven_nonneg (div_nonneg h h2.le))) h2.le

/-- **Half a last place**: `toDouble x` is within `2 ^ ulpExp x / 2` of `x`. -/
theorem abs_toDouble_sub_le (x : ℚ) : |toDouble x - x| ≤ 2 ^ ulpExp x / 2 := by
  have h2 : (0 : ℚ) < 2 ^ ulpExp x := zpow_pos two_pos _
  have he : toDouble x - x = ((roundHalfEven (x / 2 ^ ulpExp x) : ℚ) - x / 2 ^ ulpExp x) *
      2 ^ ulpExp x := by
    rw [toDouble, sub_mul, div_mul_cancel₀ _ h2.ne']
  rw [he, abs_mul, abs_of_pos h2]
  calc _ ≤ 1 / 2 * 2 ^ ulpExp x :=
        mul_le_mul_of_nonneg_right (abs_roundHalfEven_sub_le _) h2.le
    _ = 2 ^ ulpExp x / 2 := by ring

/-- The last place is at most `2^-52` of the value, or the last place of the subnormals. -/
theorem two_zpow_ulpExp_le {x : ℚ} (hx : x ≠ 0) :
    (2 : ℚ) ^ ulpExp x ≤ |x| / 2 ^ 52 + 1 / 2 ^ 1074 := by
  have hlog : (2 : ℚ) ^ Int.log 2 |x| ≤ |x| := by
    exact_mod_cast Int.zpow_log_le_self (b := 2) (by norm_num) (abs_pos.mpr hx)
  have h52 : (2 : ℚ) ^ (Int.log 2 |x| - 52) = 2 ^ Int.log 2 |x| / 2 ^ 52 := by
    rw [zpow_sub₀ two_ne_zero, show (52 : ℤ) = ((52 : ℕ) : ℤ) from rfl, zpow_natCast]
  have h1074 : (2 : ℚ) ^ (-1074 : ℤ) = 1 / 2 ^ 1074 := by
    rw [zpow_neg, show (1074 : ℤ) = ((1074 : ℕ) : ℤ) from rfl, zpow_natCast, one_div]
  have hpos : (0 : ℚ) < 2 ^ (Int.log 2 |x| - 52) := zpow_pos two_pos _
  unfold ulpExp
  rcases max_cases (Int.log 2 |x| - 52) (-1074) with ⟨h, -⟩ | ⟨h, -⟩ <;> rw [h]
  · rw [h52]
    have : (2 : ℚ) ^ Int.log 2 |x| / 2 ^ 52 ≤ |x| / 2 ^ 52 :=
      div_le_div_of_nonneg_right hlog (by positivity)
    linarith [show (0 : ℚ) < 1 / 2 ^ 1074 by positivity]
  · rw [h1074]
    linarith [show (0 : ℚ) ≤ |x| / 2 ^ 52 by positivity]

/-- **The relative error**: `toDouble x` is within `2^-53` of `x`, give or take half the
smallest subnormal. -/
theorem abs_toDouble_sub_le_rel (x : ℚ) : |toDouble x - x| ≤ |x| / 2 ^ 53 + 1 / 2 ^ 1075 := by
  by_cases hx : x = 0
  · subst hx
    simp [toDouble, roundHalfEven]
  · calc |toDouble x - x| ≤ 2 ^ ulpExp x / 2 := abs_toDouble_sub_le x
      _ ≤ (|x| / 2 ^ 52 + 1 / 2 ^ 1074) / 2 :=
        div_le_div_of_nonneg_right (two_zpow_ulpExp_le hx) (by norm_num)
      _ = |x| / 2 ^ 53 + 1 / 2 ^ 1075 := by ring

/-- In the normal binade `[2^k, 2^(k+1))` the last place is `2^(k-52)`. -/
theorem ulpExp_eq {x : ℚ} {k : ℤ} (hk : -1022 ≤ k) (h₁ : (2 : ℚ) ^ k ≤ |x|)
    (h₂ : |x| < 2 ^ (k + 1)) : ulpExp x = k - 52 := by
  have hx : 0 < |x| := lt_of_lt_of_le (zpow_pos two_pos k) h₁
  have hl₁ : k ≤ Int.log 2 |x| :=
    (Int.zpow_le_iff_le_log (b := 2) (by norm_num) hx).mp (by exact_mod_cast h₁)
  have hl₂ : Int.log 2 |x| < k + 1 :=
    (Int.lt_zpow_iff_log_lt (b := 2) (by norm_num) hx).mp (by exact_mod_cast h₂)
  unfold ulpExp
  omega

/-- The double nearest a normal `x` is the multiple of its last place nearest `x`. -/
theorem toDouble_eq_of_near {x : ℚ} {k m : ℤ} (hk : -1022 ≤ k) (h₁ : (2 : ℚ) ^ k ≤ |x|)
    (h₂ : |x| < 2 ^ (k + 1)) (hm : |x / 2 ^ (k - 52) - m| < 1 / 2) :
    toDouble x = m * 2 ^ (k - 52) := by
  rw [toDouble, ulpExp_eq hk h₁ h₂, roundHalfEven_eq_of_abs_lt hm]

/-- **Small naturals are doubles**: `float(n)` is `n` for `n < 2^53`. -/
theorem toDouble_natCast {n : ℕ} (hn : n < 2 ^ 53) : toDouble n = n := by
  rcases Nat.eq_zero_or_pos n with rfl | hpos
  · simp [toDouble, roundHalfEven]
  have hlog : Int.log 2 |(n : ℚ)| ≤ 52 := by
    rw [abs_of_nonneg (Nat.cast_nonneg n), Int.log_natCast]
    exact_mod_cast Nat.lt_succ_iff.mp (Nat.log_lt_of_lt_pow hpos.ne' hn)
  obtain ⟨k, hk⟩ : ∃ k : ℕ, ulpExp n = -k :=
    ⟨(-ulpExp n).toNat, by rw [Int.toNat_of_nonneg (by unfold ulpExp; omega)]; ring⟩
  have hint : (n : ℚ) / 2 ^ (-(k : ℤ)) = ((n * 2 ^ k : ℕ) : ℤ) := by
    rw [zpow_neg, zpow_natCast]; push_cast; field_simp
  rw [toDouble, hk, hint, roundHalfEven_intCast, zpow_neg, zpow_natCast]
  push_cast
  field_simp

end QueueFlex
