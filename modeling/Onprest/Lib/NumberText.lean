import Onprest.Lib.Decimal

/-! Decimal number texts, split as the JSON grammar splits them, and the number each one denotes. -/

namespace Onprest.Lib

/-- The part of a number text after `e` or `E`. -/
structure Exponent where
  upper : Bool
  /-- `some true` is a minus sign, `some false` a plus sign. -/
  sign : Option Bool
  digits : List (Fin 10)
  ne : digits ≠ []
deriving DecidableEq, Repr

namespace Exponent

def value (e : Exponent) : ℤ :=
  if e.sign = some true then -digitsValue e.digits else digitsValue e.digits

end Exponent

theorem zero_ne_nil : ([0] : List (Fin 10)) ≠ [] := by decide

theorem one_ne_nil : ([1] : List (Fin 10)) ≠ [] := by decide

/-- Sign, whole part, fraction (empty when there is no point) and exponent. -/
structure NumberText where
  negative : Bool
  whole : List (Fin 10)
  fraction : List (Fin 10)
  exponent : Option Exponent
  ne : whole ≠ []
deriving DecidableEq, Repr

namespace NumberText

/-- The exponent, `0` when none is written. -/
def scale (t : NumberText) : ℤ := (t.exponent.map Exponent.value).getD 0

/-- The number without its sign. -/
def magnitude (t : NumberText) : ℚ := digitsValue (t.whole ++ t.fraction) * 10 ^ (t.scale - t.fraction.length)

def value (t : NumberText) : ℚ := if t.negative then -t.magnitude else t.magnitude

/-- The text has no point and no exponent. -/
def isPlain (t : NumberText) : Bool := t.fraction.isEmpty && t.exponent.isNone

theorem magnitude_nonneg (t : NumberText) : 0 ≤ t.magnitude :=
  mul_nonneg (Nat.cast_nonneg _) (Decimal.ten_zpow_pos _).le

theorem abs_value (t : NumberText) : |t.value| = t.magnitude := by
  unfold value
  split
  · rw [abs_neg, abs_of_nonneg t.magnitude_nonneg]
  · exact abs_of_nonneg t.magnitude_nonneg

theorem magnitude_of_isPlain {t : NumberText} (h : t.isPlain) : t.magnitude = digitsValue t.whole := by
  simp only [isPlain, Bool.and_eq_true, List.isEmpty_iff, Option.isNone_iff_eq_none] at h
  simp [magnitude, scale, h]

/-! ### Printing integers and decimals -/

/-- Plain digits. -/
def ofNat (negative : Bool) (n : ℕ) : NumberText := ⟨negative, decimal n, [], none, decimal_ne_nil n⟩

@[simp] theorem magnitude_ofNat (b : Bool) (n : ℕ) : (ofNat b n).magnitude = n := by
  rw [magnitude_of_isPlain (by rfl)]
  simp [ofNat]

theorem ofNat_inj {a b : Bool} {m n : ℕ} (h : ofNat a m = ofNat b n) : a = b ∧ m = n := by
  refine ⟨congrArg negative h, ?_⟩
  have := congrArg magnitude h
  rw [magnitude_ofNat, magnitude_ofNat] at this
  exact_mod_cast this

/-- The digits before the point when the point stands after `dp` digits. -/
def fixedWhole (ds : List (Fin 10)) (dp : ℤ) : List (Fin 10) :=
  if dp ≤ 0 then [0] else ds.take dp.toNat ++ List.replicate (dp.toNat - ds.length) 0

def fixedFraction (ds : List (Fin 10)) (dp : ℤ) : List (Fin 10) :=
  if dp ≤ 0 then List.replicate (-dp).toNat 0 ++ ds else ds.drop dp.toNat

variable {ds : List (Fin 10)}

theorem fixedWhole_ne_nil (h : ds ≠ []) (dp : ℤ) : fixedWhole ds dp ≠ [] := by
  unfold fixedWhole
  split
  · simp
  · rename_i hdp
    intro hnil
    have := (List.append_eq_nil_iff.mp hnil).1
    rw [List.take_eq_nil_iff] at this
    rcases this with h0 | h0
    · omega
    · exact h h0

/-- Layout `%f`. -/
def fixed (negative : Bool) (d : Decimal) : NumberText :=
  let ds := decimal d.digits
  let dp : ℤ := ds.length + d.exp
  ⟨negative, fixedWhole ds dp, fixedFraction ds dp, none, fixedWhole_ne_nil (decimal_ne_nil _) dp⟩

/-- At least two digits. -/
def padExponent (ds : List (Fin 10)) : List (Fin 10) := if ds.length < 2 then 0 :: ds else ds

theorem padExponent_ne_nil (h : ds ≠ []) : padExponent ds ≠ [] := by
  unfold padExponent
  split
  · simp
  · exact h

/-- Layout `%e`. -/
def scientific (negative : Bool) (d : Decimal) : NumberText :=
  let ds := decimal d.digits
  let x : ℤ := ds.length + d.exp - 1
  ⟨negative, ds.take 1, ds.drop 1,
    some ⟨false, some (decide (x < 0)), padExponent (decimal x.natAbs), padExponent_ne_nil (decimal_ne_nil _)⟩, by
    intro h
    rw [List.take_eq_nil_iff] at h
    rcases h with h | h
    · omega
    · exact decimal_ne_nil _ h⟩

/-- Layout `%g` with the shortest digits: the exponent form from `10 ^ 6` on and below `10 ^ -4`. -/
def general (negative : Bool) (d : Decimal) : NumberText :=
  let x : ℤ := (decimal d.digits).length + d.exp - 1
  if x < -4 ∨ 6 ≤ x then scientific negative d else fixed negative d

theorem digitsValue_padExponent (ds : List (Fin 10)) : digitsValue (padExponent ds) = digitsValue ds := by
  unfold padExponent
  split
  · simp [digitsValue_cons]
  · rfl

theorem magnitude_scientific (b : Bool) (d : Decimal) : (scientific b d).magnitude = d.value := by
  have hlen : 0 < (decimal d.digits).length := List.length_pos_iff.mpr (decimal_ne_nil _)
  have hscale : (scientific b d).scale = (decimal d.digits).length + d.exp - 1 := by
    simp only [scale, scientific, Option.map_some, Option.getD_some, Exponent.value, digitsValue_padExponent,
      digitsValue_decimal]
    split <;> rename_i h <;> simp only [Option.some.injEq, decide_eq_true_eq] at h <;> omega
  rw [magnitude, hscale]
  simp only [scientific, List.take_append_drop, digitsValue_decimal, List.length_drop]
  rw [Decimal.value]
  congr 2
  omega

theorem magnitude_fixed (b : Bool) (d : Decimal) : (fixed b d).magnitude = d.value := by
  have hscale : (fixed b d).scale = 0 := rfl
  rw [magnitude, hscale, Decimal.value]
  simp only [fixed]
  generalize hdp : ((decimal d.digits).length : ℤ) + d.exp = dp
  by_cases h : dp ≤ 0
  · have hlen : ((fixedFraction (decimal d.digits) dp).length : ℤ) = -d.exp := by
      simp only [fixedFraction, if_pos h, List.length_append, List.length_replicate]
      omega
    have hvalue : digitsValue (fixedWhole (decimal d.digits) dp ++ fixedFraction (decimal d.digits) dp) =
        d.digits := by
      rw [fixedWhole, fixedFraction, if_pos h, if_pos h, digitsValue_append, digitsValue_append,
        digitsValue_replicate_zero, digitsValue_decimal]
      simp [digitsValue]
    rw [hlen, hvalue, zero_sub, neg_neg]
  · by_cases hle : (decimal d.digits).length ≤ dp.toNat
    · -- zeros fill the places up to the point
      have hzero : fixedFraction (decimal d.digits) dp = [] := by
        simp [fixedFraction, h, hle]
      have hwhole : fixedWhole (decimal d.digits) dp
          = decimal d.digits ++ List.replicate (dp.toNat - (decimal d.digits).length) 0 := by
        simp [fixedWhole, h, List.take_of_length_le hle]
      have hexp : d.exp = ((dp.toNat - (decimal d.digits).length : ℕ) : ℤ) := by omega
      rw [hzero, hwhole, List.append_nil, digitsValue_append, digitsValue_decimal, digitsValue_replicate_zero,
        List.length_replicate, hexp, zpow_natCast]
      simp
    · have hwhole : fixedWhole (decimal d.digits) dp = (decimal d.digits).take dp.toNat := by
        have : dp.toNat - (decimal d.digits).length = 0 := by omega
        simp [fixedWhole, h, this]
      have hfraction : fixedFraction (decimal d.digits) dp = (decimal d.digits).drop dp.toNat := by
        simp [fixedFraction, h]
      rw [hwhole, hfraction, List.take_append_drop, digitsValue_decimal, List.length_drop]
      congr 2
      omega

theorem magnitude_general (b : Bool) (d : Decimal) : (general b d).magnitude = d.value := by
  unfold general
  dsimp only
  split
  · exact magnitude_scientific b d
  · exact magnitude_fixed b d

@[simp] theorem negative_general (b : Bool) (d : Decimal) : (general b d).negative = b := by
  unfold general
  dsimp only
  split <;> rfl

/-- A whole number without a fraction is laid out by its digits alone. -/
theorem fixed_eq_ofNat (b : Bool) {d : Decimal} {n : ℕ} (hd : d.digits ≠ 0) (hexp : 0 ≤ d.exp) (hn : d.value = n) :
    fixed b d = ofNat b n := by
  obtain ⟨e, he⟩ := Int.eq_ofNat_of_zero_le hexp
  have hvalue : d.digits * 10 ^ e = n := by
    rw [Decimal.value, he, zpow_natCast] at hn
    exact_mod_cast hn
  have hdp : ¬ ((decimal d.digits).length : ℤ) + d.exp ≤ 0 := by
    have := List.length_pos_iff.mpr (decimal_ne_nil d.digits)
    omega
  have hnat : (((decimal d.digits).length : ℤ) + d.exp).toNat = (decimal d.digits).length + e := by omega
  have hwhole : fixedWhole (decimal d.digits) ((decimal d.digits).length + d.exp) = decimal n := by
    rw [fixedWhole, if_neg hdp, hnat, List.take_of_length_le (by omega), Nat.add_sub_cancel_left, ← hvalue,
      decimal_mul_pow hd]
  have hfraction : fixedFraction (decimal d.digits) ((decimal d.digits).length + d.exp) = [] := by
    rw [fixedFraction, if_neg hdp, hnat, List.drop_eq_nil_iff]
    omega
  simp only [fixed, ofNat, NumberText.mk.injEq]
  exact ⟨trivial, hwhole, hfraction, trivial⟩

end NumberText
end Onprest.Lib
