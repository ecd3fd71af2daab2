import Onprest.Lib.Float64
import Onprest.Lib.JsonParse

/-! What is printed for a `float64` reads back as that `float64`, and is a JSON number of a bounded length. -/

namespace Onprest.Lib

/-! ### Rounding and signs -/

theorem roundEven_neg (q : ℚ) : roundEven (-q) = -roundEven q := by
  by_cases hint : (⌊q⌋ : ℚ) = q
  · rw [← hint, roundEven_intCast]
    exact_mod_cast roundEven_intCast (-⌊q⌋)
  · have hle := Int.floor_le q
    have hlt := Int.lt_floor_add_one q
    have hgt : (⌊q⌋ : ℚ) < q := lt_of_le_of_ne hle hint
    have hfloor : ⌊-q⌋ = -⌊q⌋ - 1 := by
      rw [Int.floor_eq_iff]
      push_cast
      constructor <;> linarith
    unfold roundEven
    rw [hfloor]
    push_cast
    split_ifs <;> first | omega | linarith

theorem Binary64.round_neg (q : ℚ) : round (-q) = -round q := by
  have hplace : lastPlace (-q) = lastPlace q := by rw [lastPlace, lastPlace, abs_neg]
  rw [round, round, hplace, neg_div, roundEven_neg]
  push_cast
  ring

/-! ### Digits -/

theorem decimal_head {n : ℕ} (h : n ≠ 0) : (decimal n).head? ≠ some 0 := by
  intro h0
  have hlen := length_decimal h
  have hvalue := digitsValue_decimal n
  obtain ⟨es, hes⟩ := List.head?_eq_some_iff.mp h0
  rw [hes] at hlen hvalue
  -- the digits after a zero are too few for the number
  have hlt := digitsValue_lt es
  have hle := Nat.pow_log_le_self 10 h
  rw [digitsValue_cons, Fin.val_zero, zero_mul, zero_add] at hvalue
  rw [List.length_cons, Nat.add_right_cancel_iff] at hlen
  rw [hvalue, hlen] at hlt
  omega

namespace Decimal

theorem digits_trim_le (n : ℕ) (d : Decimal) : (trim n d).digits ≤ d.digits := by
  induction n generalizing d with
  | zero => exact le_rfl
  | succ n ih =>
    unfold trim
    split
    · exact (ih _).trans (Nat.div_le_self _ _)
    · exact le_rfl

variable {x : ℚ} {d : Decimal}

theorem lt_exp_of_search {n : ℕ} {k : ℤ} (h : search x n k = some d) : k < d.exp + n := by
  induction n generalizing k with
  | zero => cases h
  | succ n ih =>
    unfold search at h
    split at h
    · cases h
      push_cast
      omega
    · have := ih h
      push_cast
      omega

/-- The search tries at most 17 digits. -/
theorem digits_search_lt (h : search x 17 (Int.log 10 x) = some d) : d.digits < 10 ^ 18 := by
  have hexp := lt_exp_of_search h
  have hdigits := roundShortestAt_le (search_eq_some h).2
  have hlt : x / 10 ^ d.exp < 10 ^ 17 := by
    rw [div_lt_iff₀ (ten_zpow_pos _)]
    calc x < 10 ^ (Int.log 10 x + 1) := by exact_mod_cast Int.lt_zpow_succ_log_self (by norm_num) x
      _ ≤ 10 ^ ((17 : ℤ) + d.exp) := zpow_le_zpow_right₀ (by norm_num) (by push_cast at hexp; omega)
      _ = 10 ^ 17 * 10 ^ d.exp := by rw [zpow_add₀ (by norm_num)]; norm_num
  have hfloor : ⌊x / 10 ^ d.exp⌋ < 10 ^ 17 := Int.floor_lt.mpr (by exact_mod_cast hlt)
  omega

theorem digits_exact_lt (hpos : 0 < x) (hx : Binary64.round x = x) {k : ℕ} (hlt : x < 10 ^ k) :
    (exact 1074 x).digits < 10 ^ (k + 1074) := by
  obtain ⟨m, e, -, he, hm⟩ := Binary64.round_eq x
  rw [hx] at hm
  have hvalue := value_exact hpos.le hm (p := 1074) (by exact_mod_cast he)
  have hdigits : ((exact 1074 x).digits : ℚ) = x * 10 ^ 1074 := by
    rw [value] at hvalue
    change _ * (10 : ℚ) ^ (-(1074 : ℕ) : ℤ) = x at hvalue
    rw [zpow_neg, zpow_natCast, mul_inv_eq_iff_eq_mul₀ (by positivity)] at hvalue
    exact hvalue
  have : ((exact 1074 x).digits : ℚ) < 10 ^ (k + 1074) := by
    rw [hdigits, pow_add]
    exact mul_lt_mul_of_pos_right hlt (by positivity)
  exact_mod_cast this

theorem digits_shortest (hpos : 0 < x) (hx : Binary64.round x = x) (hlt : x < 2 ^ 1024) :
    (shortest x).digits ≠ 0 ∧ (decimal (shortest x).digits).length ≤ 2098 := by
  constructor
  · intro h0
    have := round_shortest hpos hx
    rw [value, h0, Nat.cast_zero, zero_mul, Binary64.round_zero] at this
    exact hpos.ne this
  · rw [shortest]
    cases h : search x 17 (Int.log 10 x) with
    | none =>
      have hlt' : x < 10 ^ 1024 := hlt.trans_le (pow_le_pow_left₀ (by norm_num) (by norm_num) _)
      have hdigits := (digits_trim_le (Nat.log 10 (exact 1074 x).digits) _).trans_lt (digits_exact_lt hpos hx hlt')
      exact (length_decimal_le (by norm_num) hdigits).trans (by norm_num)
    | some d =>
      have := length_decimal_le (by norm_num) ((digits_trim_le (Nat.log 10 d.digits) d).trans_lt
        (digits_search_lt h))
      exact this.trans (by norm_num)

end Decimal

namespace NumberText

theorem noLeadingZero_ofNat (b : Bool) (n : ℕ) : (ofNat b n).noLeadingZero = true := by
  by_cases h : n = 0
  · subst h
    rfl
  · simp [noLeadingZero, ofNat, decimal_head h]

theorem noLeadingZero_general (b : Bool) {d : Decimal} (h : d.digits ≠ 0) : (general b d).noLeadingZero = true := by
  have hne := decimal_ne_nil d.digits
  have hhead := decimal_head h
  unfold general
  dsimp only
  split
  · have : ((decimal d.digits).take 1).length = 1 := by
      have := List.length_pos_iff.mpr hne
      rw [List.length_take]
      omega
    simp [noLeadingZero, scientific, this]
  · simp only [fixed, fixedWhole, noLeadingZero]
    split
    · rfl
    · rename_i hdp
      obtain ⟨c, cs, hc⟩ := List.exists_cons_of_ne_nil hne
      obtain ⟨m, hm⟩ : ∃ m, (((decimal d.digits).length : ℤ) + d.exp).toNat = m + 1 :=
        ⟨_, (Nat.succ_pred (by omega)).symm⟩
      have hc0 : c ≠ 0 := by simpa [hc] using hhead
      rw [hm, hc]
      simp [hc0]

/-- Digits alone are the digits of their number. -/
theorem eq_ofNat_of_isPlain {t : NumberText} (h : t.isPlain = true) (h0 : t.noLeadingZero = true) :
    t = ofNat t.negative (digitsValue t.whole) := by
  have hwhole : decimal (digitsValue t.whole) = t.whole := by
    apply decimal_digitsValue
    simp only [noLeadingZero, Bool.or_eq_true, decide_eq_true_eq, bne_iff_ne] at h0
    refine h0.imp_right fun hhead => ?_
    obtain ⟨d, es, hd⟩ := List.exists_cons_of_ne_nil t.ne
    rw [hd] at hhead ⊢
    exact ⟨d, es, rfl, fun hzero => hhead (congrArg some hzero)⟩
  simp only [isPlain, Bool.and_eq_true, List.isEmpty_iff, Option.isNone_iff_eq_none] at h
  obtain ⟨negative, whole, fraction, exponent, ne⟩ := t
  simp only [ofNat, NumberText.mk.injEq, true_and]
  exact ⟨hwhole.symm, h⟩

/-- The layout adds few zeros to the digits. -/
theorem length_general (b : Bool) (d : Decimal) :
    (general b d).whole.length + (general b d).fraction.length ≤ (decimal d.digits).length + 7 := by
  have hne := List.length_pos_iff.mpr (decimal_ne_nil d.digits)
  unfold general
  dsimp only
  split
  · simp only [scientific, List.length_take, List.length_drop]
    omega
  · rename_i hx
    simp only [fixed, fixedWhole, fixedFraction]
    split
    · simp only [List.length_singleton, List.length_append, List.length_replicate]
      omega
    · simp only [List.length_append, List.length_replicate, List.length_take, List.length_drop]
      omega

end NumberText

namespace Float64

variable {q : ℚ}

theorem formatG_of_ne (h : q ≠ 0) : formatG q = NumberText.general (decide (q < 0)) (Decimal.shortest |q|) :=
  if_neg h

theorem noLeadingZero_formatG (hq : Binary64.Finite q) : (formatG q).noLeadingZero = true := by
  by_cases h0 : q = 0
  · rw [formatG, if_pos h0]
    exact NumberText.noLeadingZero_ofNat _ _
  · rw [formatG_of_ne h0]
    exact NumberText.noLeadingZero_general _
      (Decimal.digits_shortest (abs_pos.mpr h0) (Binary64.round_abs hq.1) hq.2).1

theorem length_formatG (hq : Binary64.Finite q) :
    (formatG q).whole.length + (formatG q).fraction.length < 2 ^ 32 := by
  by_cases h0 : q = 0
  · subst h0
    decide
  · rw [formatG_of_ne h0]
    have := (Decimal.digits_shortest (abs_pos.mpr h0) (Binary64.round_abs hq.1) hq.2).2
    have := NumberText.length_general (decide (q < 0)) (Decimal.shortest |q|)
    omega

/-- The digits denote a number that rounds to the one printed. -/
theorem round_value_formatG (hq : Binary64.round q = q) : Binary64.round (formatG q).value = q := by
  by_cases h0 : q = 0
  · subst h0
    have : (formatG 0).value = 0 := by
      rw [formatG, if_pos rfl, NumberText.value, NumberText.magnitude_ofNat]
      simp
    rw [this, Binary64.round_zero]
  · have hround := Decimal.round_shortest (abs_pos.mpr h0) (Binary64.round_abs hq)
    rw [formatG_of_ne h0, NumberText.value, NumberText.negative_general, NumberText.magnitude_general]
    rcases lt_or_gt_of_ne h0 with hneg | hpos
    · rw [if_pos (by simpa using hneg), Binary64.round_neg, hround, abs_of_neg hneg, neg_neg]
    · rw [if_neg (by simpa using hpos.le), hround, abs_of_pos hpos]

/-- Printing and parsing gives the number back. -/
theorem parse_formatG (hq : Binary64.Finite q) : ∃ x, parse (formatG q) = some x ∧ x.toRat = some q := by
  have hround := round_value_formatG hq.1
  have hsome : ∃ x, parse (formatG q) = some x := by
    unfold parse ofRat
    rw [dif_pos (by rw [hround]; exact hq.2)]
    split
    · exact ⟨_, rfl⟩
    · exact ⟨_, rfl⟩
  obtain ⟨x, hx⟩ := hsome
  exact ⟨x, hx, by rw [toRat_ofRat hx, hround]⟩

end Float64
end Onprest.Lib
