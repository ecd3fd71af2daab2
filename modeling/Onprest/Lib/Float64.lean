import Onprest.Lib.NumberText

/-! The `float64` type: the finite binary64 numbers with a signed zero, the infinities and NaN, how one is read
from a decimal text or an integer, and how `strconv` prints it. -/

namespace Onprest.Lib

namespace Binary64

/-- A finite binary64 number. -/
def Finite (q : ℚ) : Prop := round q = q ∧ |q| < 2 ^ 1024

instance (q : ℚ) : Decidable (Finite q) := inferInstanceAs (Decidable (_ ∧ _))

theorem finite_zero : Finite 0 := ⟨round_zero, by rw [abs_zero]; positivity⟩

variable {q : ℚ}

theorem round_abs (h : round q = q) : round |q| = |q| := by
  obtain ⟨m, e, hm, he, hq⟩ := round_eq q
  rw [h] at hq
  have habs : |q| = ((|m| : ℤ) : ℚ) * 2 ^ e := by
    rw [hq, abs_mul, abs_of_pos (two_zpow_pos e)]
    push_cast
    rfl
  rw [habs]
  exact round_eq_self (by rwa [abs_abs]) he

/-- Numbers far below the largest one do not overflow. -/
theorem abs_round_lt {k : ℤ} (h : |q| < 2 ^ k) (hk : k ≤ 900) : |round q| < 2 ^ 1024 := by
  by_cases hz : q = 0
  · rw [hz, round_zero, abs_zero]
    positivity
  have hlog : Int.log 2 |q| < k := (Int.lt_zpow_iff_log_lt (by norm_num) (abs_pos.mpr hz)).mp h
  have hplace : lastPlace q ≤ 900 := by
    simp only [lastPlace]
    omega
  have hm : |(roundEven (q / 2 ^ lastPlace q) : ℚ)| ≤ 2 ^ 53 := by exact_mod_cast abs_significand_le q
  calc |round q| = |(roundEven (q / 2 ^ lastPlace q) : ℚ)| * 2 ^ lastPlace q := by
        rw [round, abs_mul, abs_of_pos (two_zpow_pos _)]
    _ ≤ 2 ^ 53 * 2 ^ (900 : ℤ) :=
        mul_le_mul hm (zpow_le_zpow_right₀ (by norm_num) hplace) (two_zpow_pos _).le (by norm_num)
    _ < 2 ^ 1024 := by
        rw [zpow_ofNat, ← pow_add]
        exact pow_lt_pow_right₀ (by norm_num) (by norm_num)

end Binary64

/-- A `float64`; `finite 0` is the positive zero. -/
inductive Float64
  | nan
  | inf (negative : Bool)
  | negZero
  | finite (q : ℚ) (h : Binary64.Finite q)
deriving DecidableEq

namespace Float64

/-- The number a finite value denotes. -/
def toRat : Float64 → Option ℚ
  | .nan => none
  | .inf _ => none
  | .negZero => some 0
  | .finite q _ => some q

/-- The float nearest to `q`; a zero takes the given sign and a result out of range is an error. -/
def ofRat (negative : Bool) (q : ℚ) : Option Float64 :=
  if h : |Binary64.round q| < 2 ^ 1024 then
    if negative ∧ Binary64.round q = 0 then some .negZero
    else some (.finite (Binary64.round q) ⟨Binary64.round_round q, h⟩)
  else none

/-- `float64(n)`. -/
def ofInt (n : ℤ) : Option Float64 := ofRat false n

/-- `strconv.ParseFloat` of a decimal text. -/
def parse (t : NumberText) : Option Float64 := ofRat t.negative t.value

/-- `strconv.FormatFloat(x, 'g', -1, 64)` of a finite number, `-0` being printed as `0` by its callers. -/
def formatG (q : ℚ) : NumberText :=
  if q = 0 then NumberText.ofNat false 0 else NumberText.general (decide (q < 0)) (Decimal.shortest |q|)

variable {b : Bool} {q : ℚ} {x : Float64}

theorem toRat_ofRat (h : ofRat b q = some x) : x.toRat = some (Binary64.round q) := by
  unfold ofRat at h
  split at h
  · split at h
    · rename_i hz
      cases h
      rw [hz.2]
      rfl
    · cases h
      rfl
  · cases h

theorem exists_ofRat {k : ℤ} (h : |q| < 2 ^ k) (hk : k ≤ 900) : ∃ x, ofRat b q = some x := by
  unfold ofRat
  rw [dif_pos (Binary64.abs_round_lt h hk)]
  split
  · exact ⟨_, rfl⟩
  · exact ⟨_, rfl⟩

theorem finite_of_toRat (h : x.toRat = some q) : Binary64.Finite q := by
  cases x with
  | nan => cases h
  | inf => cases h
  | negZero =>
    cases h
    exact Binary64.finite_zero
  | finite q' hq =>
    cases h
    exact hq

/-- Printing identifies the number. -/
theorem formatG_inj {p : ℚ} (hp : Binary64.round p = p) (hq : Binary64.round q = q) (h : formatG p = formatG q) :
    p = q := by
  have hround : ∀ {x : ℚ}, Binary64.round x = x → Binary64.round (formatG x).magnitude = |x| := by
    intro x hx
    unfold formatG
    split
    · rename_i h0
      rw [h0, NumberText.magnitude_ofNat]
      simp
    · rename_i h0
      rw [NumberText.magnitude_general]
      exact Decimal.round_shortest (abs_pos.mpr h0) (Binary64.round_abs hx)
  have hneg : ∀ x : ℚ, (formatG x).negative = decide (x < 0) := by
    intro x
    unfold formatG
    split
    · rename_i h0
      rw [h0]
      rfl
    · exact NumberText.negative_general _ _
  have habs : |p| = |q| := by rw [← hround hp, ← hround hq, h]
  have hsign : p < 0 ↔ q < 0 := by
    have := hneg p
    rw [h, hneg q] at this
    exact (decide_eq_decide.mp this).symm
  rcases abs_eq_abs.mp habs with heq | heq
  · exact heq
  · -- opposite signs that agree on being negative are both zero
    rcases lt_trichotomy q 0 with hlt | hz | hgt
    · have := hsign.mpr hlt
      linarith
    · rw [heq, hz, neg_zero]
    · have : p < 0 := by linarith
      have := hsign.mp this
      linarith

end Float64
end Onprest.Lib
