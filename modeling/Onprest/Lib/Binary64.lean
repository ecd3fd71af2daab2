import Mathlib.Data.Int.Log
import Mathlib.Data.Rat.Floor
import Mathlib.Tactic.Linarith
import Mathlib.Tactic.Ring
import Mathlib.Tactic.NormNum

/-! IEEE 754 binary64 over the rationals: rounding to nearest with ties to even, and the values it leaves fixed. -/

namespace Onprest.Lib

/-- The nearest integer, ties to even. -/
def roundEven (q : ℚ) : ℤ :=
  if q - ⌊q⌋ < 1 / 2 then ⌊q⌋
  else if 1 / 2 < q - ⌊q⌋ then ⌊q⌋ + 1
  else if ⌊q⌋ % 2 = 0 then ⌊q⌋ else ⌊q⌋ + 1

@[simp] theorem roundEven_intCast (n : ℤ) : roundEven (n : ℚ) = n := by
  simp [roundEven]

theorem floor_le_roundEven (q : ℚ) : ⌊q⌋ ≤ roundEven q := by
  unfold roundEven
  split_ifs <;> omega

theorem roundEven_le_floor (q : ℚ) : roundEven q ≤ ⌊q⌋ + 1 := by
  unfold roundEven
  split_ifs <;> omega

/-- Rounding does not leave an integer interval that holds the number. -/
theorem abs_roundEven_le {q : ℚ} {n : ℤ} (h : |q| ≤ n) : |roundEven q| ≤ n := by
  obtain ⟨hlo, hhi⟩ := abs_le.mp h
  have hge : -n ≤ ⌊q⌋ := Int.le_floor.mpr (by exact_mod_cast hlo)
  have hle : ⌊q⌋ ≤ n := by
    have : (⌊q⌋ : ℚ) ≤ n := (Int.floor_le q).trans hhi
    exact_mod_cast this
  have h₁ := floor_le_roundEven q
  have h₂ := roundEven_le_floor q
  rw [abs_le]
  refine ⟨by omega, ?_⟩
  by_contra hc
  -- only an exact `n` has floor `n`, and an exact integer is not moved
  have hfl : ⌊q⌋ = n := by omega
  have hq : q = n := le_antisymm hhi (by rw [← hfl]; exact Int.floor_le q)
  rw [hq, roundEven_intCast] at hc
  omega

namespace Binary64

/-- The exponent of the last place of the binary64 numbers around `q`. -/
def lastPlace (q : ℚ) : ℤ := max (Int.log 2 |q| - 52) (-1074)

/-- The binary64 number nearest to `q`, with an exponent that has no upper bound. -/
def round (q : ℚ) : ℚ := roundEven (q / 2 ^ lastPlace q) * 2 ^ lastPlace q

theorem two_zpow_pos (e : ℤ) : (0 : ℚ) < 2 ^ e := zpow_pos (by norm_num) e

@[simp] theorem round_zero : round 0 = 0 := by
  have : roundEven (0 : ℚ) = 0 := by exact_mod_cast roundEven_intCast 0
  simp [round, this]

/-- A significand of at most 53 bits on a place no lower than the last one. -/
theorem round_eq_self {m e : ℤ} (hm : |m| ≤ 2 ^ 53) (he : -1074 ≤ e) : round (m * 2 ^ e) = m * 2 ^ e := by
  by_cases hz : m = 0
  · subst hz
    simp
  have hmpos : (0 : ℚ) < |(m : ℚ)| := abs_pos.mpr (by exact_mod_cast hz)
  have hpos : (0 : ℚ) < |(m : ℚ) * 2 ^ e| := by
    rw [abs_mul, abs_of_pos (two_zpow_pos e)]
    exact mul_pos hmpos (two_zpow_pos e)
  -- it is enough that the scaled number is an integer
  suffices h : ∃ k : ℤ, (m : ℚ) * 2 ^ e / 2 ^ lastPlace ((m : ℚ) * 2 ^ e) = k by
    obtain ⟨k, hk⟩ := h
    rw [round, hk, roundEven_intCast, ← hk, div_mul_cancel₀]
    exact (two_zpow_pos _).ne'
  generalize hl : lastPlace ((m : ℚ) * 2 ^ e) = l
  by_cases hle : l ≤ e
  · refine ⟨m * 2 ^ (e - l).toNat, ?_⟩
    have hsub : ((e - l).toNat : ℤ) = e - l := Int.toNat_of_nonneg (by omega)
    push_cast
    rw [mul_div_assoc, ← zpow_sub₀ (by norm_num : (2 : ℚ) ≠ 0), ← zpow_natCast, hsub]
  · -- only `2 ^ 53` itself reaches the next binade
    have hlog : Int.log 2 |(m : ℚ) * 2 ^ e| = l + 52 := by
      simp only [lastPlace] at hl
      omega
    have hge : (2 : ℚ) ^ (l + 52) ≤ |(m : ℚ) * 2 ^ e| := by
      have := Int.zpow_log_le_self (b := 2) (by norm_num) hpos
      rwa [hlog] at this
    rw [abs_mul, abs_of_pos (two_zpow_pos e)] at hge
    have hmq : |(m : ℚ)| ≤ 2 ^ (53 : ℤ) := by exact_mod_cast hm
    have hupper : |(m : ℚ)| * 2 ^ e ≤ 2 ^ (53 + e) := by
      rw [zpow_add₀ (by norm_num : (2 : ℚ) ≠ 0)]
      exact mul_le_mul_of_nonneg_right hmq (two_zpow_pos e).le
    have hexp : l + 52 ≤ 53 + e := (zpow_le_zpow_iff_right₀ (by norm_num : (1 : ℚ) < 2)).mp (hge.trans hupper)
    obtain rfl : l = e + 1 := by omega
    have habs : |(m : ℚ)| = 2 ^ (53 : ℤ) := by
      refine le_antisymm hmq ?_
      have h53 : (2 : ℚ) ^ (e + 1 + 52) = 2 ^ (53 : ℤ) * 2 ^ e := by
        rw [← zpow_add₀ (by norm_num : (2 : ℚ) ≠ 0)]
        congr 1
        omega
      rw [h53] at hge
      exact le_of_mul_le_mul_right hge (two_zpow_pos e)
    have hint : |m| = 2 ^ 53 := by exact_mod_cast habs
    have heven : m / 2 * 2 = m := by
      rcases abs_eq (by norm_num : (0 : ℤ) ≤ 2 ^ 53) |>.mp hint with h | h <;> rw [h] <;> norm_num
    refine ⟨m / 2, ?_⟩
    have hcast : ((m / 2 : ℤ) : ℚ) * 2 = m := by exact_mod_cast heven
    rw [← hcast, mul_assoc, ← zpow_one_add₀ (by norm_num : (2 : ℚ) ≠ 0), add_comm 1 e, mul_div_assoc,
      div_self (two_zpow_pos _).ne', mul_one]

/-- The significand that rounding leaves has at most 53 bits. -/
theorem abs_significand_le (q : ℚ) : |roundEven (q / 2 ^ lastPlace q)| ≤ 2 ^ 53 := by
  by_cases hz : q = 0
  · have : roundEven (0 : ℚ) = 0 := by exact_mod_cast roundEven_intCast 0
    simp [hz, this]
  apply abs_roundEven_le
  rw [abs_div, abs_of_pos (two_zpow_pos _), div_le_iff₀ (two_zpow_pos _)]
  have hlt : |q| < 2 ^ (Int.log 2 |q| + 1) := Int.lt_zpow_succ_log_self (b := 2) (by norm_num) _
  have hexp : Int.log 2 |q| + 1 ≤ 53 + lastPlace q := by
    have := le_max_left (Int.log 2 |q| - 52) (-1074)
    simp only [lastPlace]
    omega
  calc |q| ≤ 2 ^ (Int.log 2 |q| + 1) := hlt.le
    _ ≤ 2 ^ (53 + lastPlace q) := zpow_le_zpow_right₀ (by norm_num) hexp
    _ = ((2 ^ 53 : ℤ) : ℚ) * 2 ^ lastPlace q := by
      rw [zpow_add₀ (by norm_num : (2 : ℚ) ≠ 0)]
      norm_num

/-- What rounding produces: a significand of at most 53 bits on some place. -/
theorem round_eq (q : ℚ) : ∃ m e : ℤ, |m| ≤ 2 ^ 53 ∧ -1074 ≤ e ∧ round q = m * 2 ^ e :=
  ⟨_, _, abs_significand_le q, le_max_right _ _, rfl⟩

@[simp] theorem round_round (q : ℚ) : round (round q) = round q := by
  obtain ⟨m, e, hm, he, hq⟩ := round_eq q
  rw [hq, round_eq_self hm he]

theorem round_intCast {n : ℤ} (h : |n| ≤ 2 ^ 53) : round n = n := by
  have := round_eq_self (e := 0) h (by norm_num)
  simpa using this

theorem round_natCast {n : ℕ} (h : n ≤ 2 ^ 53) : round n = n := by
  have := round_intCast (n := (n : ℤ)) (by rw [Nat.abs_cast]; exact_mod_cast h)
  exact_mod_cast this

end Binary64
end Onprest.Lib
