import Mathlib.Data.Int.Log
import Mathlib.Data.Rat.Floor

/-!
# Double-precision arithmetic

A finite `f64` is a rational number, and each operation rounds its exact
result to the nearest number with a 53-bit significand, ties to even.  The
range of the exponent is not bounded: this is the arithmetic of computations
that neither overflow nor reach the subnormal numbers.
-/

namespace RustyTorrent.Float64

open Int

/-- The nearest integer, ties to even. -/
def roundHalfEven (x : ℚ) : ℤ :=
  if x - ⌊x⌋ < 1 / 2 then ⌊x⌋
  else if 1 / 2 < x - ⌊x⌋ then ⌊x⌋ + 1
  else if ⌊x⌋ % 2 = 0 then ⌊x⌋ else ⌊x⌋ + 1

/-- The distance between neighbouring numbers around `q`. -/
def ulp (q : ℚ) : ℚ := 2 ^ (Int.log 2 |q| - 52)

/-- The nearest representable number. -/
def round (q : ℚ) : ℚ :=
  if q = 0 then 0 else roundHalfEven (q / ulp q) * ulp q

/-- `x as f64` of an unsigned integer. -/
def ofNat (n : ℕ) : ℚ := round n

def add (x y : ℚ) : ℚ := round (x + y)
def sub (x y : ℚ) : ℚ := round (x - y)
def mul (x y : ℚ) : ℚ := round (x * y)
def div (x y : ℚ) : ℚ := round (x / y)

def clamp (x lo hi : ℚ) : ℚ := if x < lo then lo else if hi < x then hi else x

/-- `x as usize`: the fraction is cut off, negative numbers give zero. -/
def toNat (x : ℚ) : ℕ := ⌊x⌋.toNat

theorem clamp_le {x lo hi : ℚ} (h : lo ≤ hi) : clamp x lo hi ≤ hi := by
  unfold clamp
  split_ifs with h₁ h₂
  · exact h
  · exact le_refl _
  · exact not_lt.1 h₂

theorem le_clamp {x lo hi : ℚ} (h : lo ≤ hi) : lo ≤ clamp x lo hi := by
  unfold clamp
  split_ifs with h₁ h₂
  · exact le_refl _
  · exact h
  · exact not_lt.1 h₁

theorem roundHalfEven_le {x : ℚ} {n : ℤ} (h : x ≤ n) : roundHalfEven x ≤ n := by
  have hfloor : ⌊x⌋ ≤ n := by
    have hle := floor_le_floor h
    rwa [floor_intCast] at hle
  rcases hfloor.lt_or_eq with hlt | heq
  · unfold roundHalfEven
    split_ifs <;> omega
  · have hx : x - ⌊x⌋ < 1 / 2 := by
      have hzero : x - ⌊x⌋ ≤ 0 := by
        rw [heq]
        exact sub_nonpos.2 h
      exact lt_of_le_of_lt hzero (by norm_num)
    rw [roundHalfEven, if_pos hx]
    exact hfloor

theorem round_le {q : ℚ} {n : ℕ} (hq : 0 ≤ q) (h : q ≤ n)
    (hn : n < 2 ^ 53) : round q ≤ n := by
  unfold round
  split_ifs with hzero
  · exact Nat.cast_nonneg n
  have hpos : 0 < q := lt_of_le_of_ne hq (Ne.symm hzero)
  -- The exponent is at most 52, so `n` is a multiple of the spacing.
  have hlog : log 2 |q| ≤ 52 := by
    rw [abs_of_pos hpos]
    by_contra hbig
    have hle : (2 : ℚ) ^ (53 : ℤ) ≤ q := by
      calc (2 : ℚ) ^ (53 : ℤ) ≤ 2 ^ log 2 q :=
            zpow_le_zpow_right₀ (by norm_num) (by omega)
        _ ≤ q := by
            have hpow := zpow_log_le_self (b := 2) (by norm_num) hpos
            exact_mod_cast hpow
    have hlt : (n : ℚ) < 2 ^ (53 : ℤ) := by exact_mod_cast hn
    exact absurd (hle.trans h) (not_le.2 hlt)
  obtain ⟨k, hk⟩ : ∃ k : ℕ, 52 - log 2 |q| = k :=
    ⟨(52 - log 2 |q|).toNat, by omega⟩
  have hulp : ulp q = ((2 : ℚ) ^ k)⁻¹ := by
    rw [ulp, show log 2 |q| - 52 = -(k : ℤ) by omega, zpow_neg, zpow_natCast]
  have hulp_pos : 0 < ulp q := by
    rw [hulp]
    positivity
  have hscaled : q / ulp q ≤ ((n * 2 ^ k : ℕ) : ℤ) := by
    rw [hulp, div_inv_eq_mul]
    push_cast
    exact mul_le_mul_of_nonneg_right h (by positivity)
  have hround : (roundHalfEven (q / ulp q) : ℚ) ≤ ((n * 2 ^ k : ℕ) : ℤ) := by
    exact_mod_cast roundHalfEven_le hscaled
  calc (roundHalfEven (q / ulp q) : ℚ) * ulp q
      ≤ (((n * 2 ^ k : ℕ) : ℤ) : ℚ) * ulp q :=
        mul_le_mul_of_nonneg_right hround hulp_pos.le
    _ = n := by
        rw [hulp]
        push_cast
        field_simp

theorem toNat_le {x : ℚ} {n : ℕ} (h : x ≤ n) : toNat x ≤ n := by
  have hfloor := floor_le_floor h
  rw [floor_natCast] at hfloor
  unfold toNat
  omega

end RustyTorrent.Float64
