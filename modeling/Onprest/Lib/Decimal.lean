import Mathlib.Data.Nat.Digits.Lemmas
import Onprest.Lib.Binary64

/-! Decimal digits, and the shortest decimal that rounds back to a binary64 number. -/

namespace Onprest.Lib

/-! ### Digit strings, most significant digit first -/

/-- The number a digit string denotes. -/
def digitsValue (ds : List (Fin 10)) : ℕ := ds.foldl (fun n (d : Fin 10) => 10 * n + d.val) 0

private theorem foldl_digits (n : ℕ) (ds : List (Fin 10)) :
    ds.foldl (fun n (d : Fin 10) => 10 * n + d.val) n = n * 10 ^ ds.length + digitsValue ds := by
  induction ds generalizing n with
  | nil => simp [digitsValue]
  | cons d ds ih =>
    simp only [List.foldl_cons, digitsValue, List.length_cons, ih (10 * n + d.val), ih (10 * 0 + d.val)]
    ring

@[simp] theorem digitsValue_nil : digitsValue [] = 0 := rfl

theorem digitsValue_append (ds es : List (Fin 10)) :
    digitsValue (ds ++ es) = digitsValue ds * 10 ^ es.length + digitsValue es := by
  rw [digitsValue, List.foldl_append, foldl_digits]
  rfl

theorem digitsValue_cons (d : Fin 10) (ds : List (Fin 10)) :
    digitsValue (d :: ds) = d * 10 ^ ds.length + digitsValue ds := by
  have := digitsValue_append [d] ds
  simpa [digitsValue] using this

@[simp] theorem digitsValue_replicate_zero (k : ℕ) : digitsValue (List.replicate k 0) = 0 := by
  induction k with
  | zero => rfl
  | succ k ih => simp [List.replicate_succ, digitsValue_cons, ih]

theorem digitsValue_lt (ds : List (Fin 10)) : digitsValue ds < 10 ^ ds.length := by
  induction ds with
  | nil => simp
  | cons d ds ih =>
    rw [digitsValue_cons, List.length_cons, pow_succ]
    have hd : (d : ℕ) ≤ 9 := by omega
    have := Nat.mul_le_mul_right (10 ^ ds.length) hd
    omega

instance neZero_ten : NeZero 10 := ⟨by decide⟩

/-- The decimal digits of a number, `0` being one digit. -/
def decimal (n : ℕ) : List (Fin 10) :=
  if n = 0 then [0] else ((Nat.digits 10 n).map (Fin.ofNat 10)).reverse

theorem decimal_ne_nil (n : ℕ) : decimal n ≠ [] := by
  unfold decimal
  split
  · simp
  · rename_i h
    simpa using Nat.digits_ne_nil_iff_ne_zero.mpr h

private theorem digitsValue_reverse_map (ds : List ℕ) (h : ∀ d ∈ ds, d < 10) :
    digitsValue (ds.map (Fin.ofNat 10)).reverse = Nat.ofDigits 10 ds := by
  induction ds with
  | nil => rfl
  | cons d ds ih =>
    have hd : d < 10 := h d List.mem_cons_self
    rw [List.map_cons, List.reverse_cons, digitsValue_append, ih fun e he => h e (List.mem_cons_of_mem _ he),
      Nat.ofDigits_cons]
    simp only [List.length_singleton, pow_one, digitsValue, List.foldl_cons, List.foldl_nil, Fin.ofNat,
      Nat.mod_eq_of_lt hd]
    omega

@[simp] theorem digitsValue_decimal (n : ℕ) : digitsValue (decimal n) = n := by
  unfold decimal
  split
  · rename_i h
    simp [h, digitsValue]
  · rw [digitsValue_reverse_map _ fun d hd => Nat.digits_lt_base (by norm_num) hd, Nat.ofDigits_digits]

/-- Digits without a leading zero are the digits of their number. -/
theorem decimal_digitsValue {ds : List (Fin 10)} (h : ds.length = 1 ∨ ∃ d es, ds = d :: es ∧ d ≠ 0) :
    decimal (digitsValue ds) = ds := by
  rcases h with h | ⟨d, es, rfl, hd⟩
  · obtain ⟨d, rfl⟩ := List.length_eq_one_iff.mp h
    revert d
    decide
  · have hback : ((((d :: es).map Fin.val).reverse).map (Fin.ofNat 10)).reverse = d :: es := by
      rw [List.map_reverse, List.reverse_reverse, List.map_map]
      conv_rhs => rw [← List.map_id (d :: es)]
      exact List.map_congr_left fun e _ => by simp
    have hvalue : digitsValue (d :: es) = Nat.ofDigits 10 ((d :: es).map Fin.val).reverse := by
      have hdigits : ∀ n ∈ ((d :: es).map Fin.val).reverse, n < 10 := by
        simp only [List.mem_reverse, List.mem_map]
        rintro _ ⟨e, -, rfl⟩
        exact e.isLt
      rw [← digitsValue_reverse_map _ hdigits, hback]
    have hpos : digitsValue (d :: es) ≠ 0 := by
      have : 0 < d.val := Nat.pos_of_ne_zero fun h0 => hd (Fin.ext h0)
      rw [digitsValue_cons]
      positivity
    rw [decimal, if_neg hpos, hvalue, Nat.digits_ofDigits 10 (by norm_num), hback]
    · simp only [List.mem_reverse, List.mem_map]
      rintro _ ⟨e, -, rfl⟩
      exact e.isLt
    · intro _
      simpa using fun h0 => hd (Fin.ext h0)

variable {n : ℕ}

/-- Appending zeros multiplies by a power of ten. -/
theorem decimal_mul_pow (h : n ≠ 0) (k : ℕ) : decimal (n * 10 ^ k) = decimal n ++ List.replicate k 0 := by
  have hne : n * 10 ^ k ≠ 0 := mul_ne_zero h (pow_ne_zero k (by norm_num))
  have hdigits : Nat.digits 10 (n * 10 ^ k) = List.replicate k 0 ++ Nat.digits 10 n := by
    rw [mul_comm]
    exact Nat.digits_base_pow_mul (by norm_num) (Nat.pos_of_ne_zero h)
  rw [decimal, if_neg hne, decimal, if_neg h, hdigits, List.map_append, List.reverse_append]
  congr 1
  rw [List.map_replicate, List.reverse_replicate]
  rfl

theorem length_decimal (h : n ≠ 0) : (decimal n).length = Nat.log 10 n + 1 := by
  rw [decimal, if_neg h, List.length_reverse, List.length_map, Nat.length_digits 10 n (by norm_num) h]

theorem length_decimal_le {k : ℕ} (hk : 0 < k) (h : n < 10 ^ k) : (decimal n).length ≤ k := by
  by_cases h0 : n = 0
  · subst h0
    exact hk
  · rw [length_decimal h0]
    exact Nat.log_lt_of_lt_pow h0 h

/-! ### Shortest decimals -/

/-- The number `digits · 10 ^ exp`. -/
structure Decimal where
  digits : ℕ
  exp : ℤ
deriving DecidableEq, Repr

namespace Decimal

def value (d : Decimal) : ℚ := d.digits * 10 ^ d.exp

theorem ten_zpow_pos (e : ℤ) : (0 : ℚ) < 10 ^ e := zpow_pos (by norm_num) e

/-- Move trailing zeros into the exponent. -/
def trim : ℕ → Decimal → Decimal
  | 0, d => d
  | n + 1, d => if d.digits % 10 = 0 then trim n ⟨d.digits / 10, d.exp + 1⟩ else d

theorem value_trim (n : ℕ) (d : Decimal) : (trim n d).value = d.value := by
  induction n generalizing d with
  | zero => rfl
  | succ n ih =>
    unfold trim
    split
    · rename_i h
      rw [ih, value, value]
      have hten : ((d.digits / 10 : ℕ) : ℚ) * 10 = d.digits := by
        exact_mod_cast Nat.div_mul_cancel (Nat.dvd_of_mod_eq_zero h)
      rw [zpow_add_one₀ (by norm_num), mul_comm _ (10 : ℚ), ← mul_assoc, hten]
    · rfl

theorem exp_le_trim (n : ℕ) (d : Decimal) : d.exp ≤ (trim n d).exp := by
  induction n generalizing d with
  | zero => exact le_rfl
  | succ n ih =>
    unfold trim
    split
    · exact le_trans (by simp) (ih _)
    · exact le_rfl

/-- The decimals next to `x` on the place of `10 ^ k` that round to it: the nearer one if both do. -/
def roundShortestAt (x : ℚ) (k : ℤ) : Option ℕ :=
  let lo := ⌊x / 10 ^ k⌋.toNat
  match decide (Binary64.round (lo * 10 ^ k) = x), decide (Binary64.round ((lo + 1 : ℕ) * 10 ^ k) = x) with
  | true, true => some (if roundEven (x / 10 ^ k) = lo then lo else lo + 1)
  | true, false => some lo
  | false, true => some (lo + 1)
  | false, false => none

/-- Try one more place at a time. -/
def search (x : ℚ) : ℕ → ℤ → Option Decimal
  | 0, _ => none
  | n + 1, k =>
    match roundShortestAt x k with
    | some d => some ⟨d, k⟩
    | none => search x n (k - 1)

/-- All digits of a number with at most `p` digits after the point. -/
def exact (p : ℕ) (x : ℚ) : Decimal := ⟨(x * 10 ^ p).num.toNat, -p⟩

/-- The digits that identify the positive binary64 number `x`: as few as possible, at most 17 being tried. -/
def shortest (x : ℚ) : Decimal :=
  let d := (search x 17 (Int.log 10 x)).getD (exact 1074 x)
  trim (Nat.log 10 d.digits) d

variable {x : ℚ} {k : ℤ} {d n : ℕ}

theorem round_of_roundShortestAt (h : roundShortestAt x k = some d) : Binary64.round (d * 10 ^ k) = x := by
  simp only [roundShortestAt] at h
  split at h
  case h_1 hlo hhi =>
    cases h
    split
    · exact of_decide_eq_true hlo
    · exact of_decide_eq_true hhi
  case h_2 hlo _ =>
    cases h
    exact of_decide_eq_true hlo
  case h_3 _ hhi =>
    cases h
    exact of_decide_eq_true hhi
  case h_4 => cases h

theorem round_of_search {d : Decimal} (h : search x n k = some d) : Binary64.round d.value = x := by
  induction n generalizing k with
  | zero => cases h
  | succ n ih =>
    unfold search at h
    split at h
    · rename_i hd
      cases h
      exact round_of_roundShortestAt hd
    · exact ih h

/-- A dyadic number has finitely many decimal digits. -/
theorem value_exact {m e : ℤ} {p : ℕ} (hpos : 0 ≤ x) (hx : x = m * 2 ^ e) (he : -p ≤ e) : (exact p x).value = x := by
  have hint : x * 10 ^ p = ((m * 2 ^ (e + p).toNat * 5 ^ p : ℤ) : ℚ) := by
    have hcast : ((e + p).toNat : ℤ) = e + p := Int.toNat_of_nonneg (by omega)
    have hsplit : (10 : ℚ) ^ p = 2 ^ (p : ℤ) * 5 ^ p := by
      rw [show (10 : ℚ) = 2 * 5 by norm_num, mul_pow, zpow_natCast]
    push_cast
    rw [← zpow_natCast (2 : ℚ) (e + p).toNat, hcast, hx, hsplit, zpow_add₀ (by norm_num)]
    ring
  have hnum : ((x * 10 ^ p).num : ℚ) = x * 10 ^ p := by
    rw [hint, Rat.num_intCast]
  have hnonneg : 0 ≤ (x * 10 ^ p).num := Rat.num_nonneg.mpr (by positivity)
  have hnat : (((x * 10 ^ p).num.toNat : ℕ) : ℚ) = x * 10 ^ p := by
    rw [← hnum]
    exact_mod_cast Int.toNat_of_nonneg hnonneg
  rw [value, exact, hnat, zpow_neg, mul_assoc, zpow_natCast, mul_inv_cancel₀ (by positivity), mul_one]

/-- The shortest digits denote a number that rounds back. -/
theorem round_shortest (hpos : 0 < x) (hx : Binary64.round x = x) : Binary64.round (shortest x).value = x := by
  rw [shortest, value_trim]
  cases h : search x 17 (Int.log 10 x) with
  | none =>
    obtain ⟨m, e, -, he, hm⟩ := Binary64.round_eq x
    rw [hx] at hm
    rw [Option.getD_none, value_exact hpos.le hm (by exact_mod_cast he), hx]
  | some d =>
    rw [Option.getD_some]
    exact round_of_search h

/-! ### Whole numbers -/

theorem roundShortestAt_le (h : roundShortestAt x k = some d) : d ≤ ⌊x / 10 ^ k⌋.toNat + 1 := by
  simp only [roundShortestAt] at h
  split at h
  case h_1 =>
    cases h
    split <;> omega
  case h_2 =>
    cases h
    omega
  case h_3 =>
    cases h
    exact le_rfl
  case h_4 => cases h

theorem search_eq_some {d : Decimal} (h : search x n k = some d) :
    d.exp ≤ k ∧ roundShortestAt x d.exp = some d.digits := by
  induction n generalizing k with
  | zero => cases h
  | succ n ih =>
    unfold search at h
    split at h
    · rename_i hd
      cases h
      exact ⟨le_rfl, hd⟩
    · obtain ⟨hle, hd⟩ := ih h
      exact ⟨by omega, hd⟩

/-- A place that works ends the search there or before. -/
theorem search_nonneg (h0 : (roundShortestAt x 0).isSome) (hk : 0 ≤ k) (hn : k < n) :
    ∃ d, search x n k = some d ∧ 0 ≤ d.exp := by
  induction n generalizing k with
  | zero => omega
  | succ n ih =>
    unfold search
    cases h : roundShortestAt x k with
    | some d => exact ⟨⟨d, k⟩, rfl, hk⟩
    | none =>
      have hne : k ≠ 0 := by
        rintro rfl
        rw [h] at h0
        cases h0
      exact ih (by omega) (by omega)

theorem roundShortestAt_natCast (h : n ≤ 2 ^ 53) : (roundShortestAt (n : ℚ) 0).isSome := by
  simp only [roundShortestAt, zpow_zero, div_one, mul_one, Int.floor_natCast, Int.toNat_natCast,
    Binary64.round_natCast h, decide_true]
  split <;> simp_all

/-- A whole number below `2 ^ 52` is printed digit by digit. -/
theorem shortest_natCast (hpos : 0 < n) (h : n ≤ 2 ^ 52) : (shortest n).value = n ∧ 0 ≤ (shortest n).exp := by
  have hlog : Int.log 10 (n : ℚ) = Nat.log 10 n := Int.log_natCast 10 n
  have hlog16 : Nat.log 10 n < 16 := Nat.log_lt_of_lt_pow hpos.ne' (by omega)
  obtain ⟨d, hd, hexp⟩ := search_nonneg (roundShortestAt_natCast (n := n) (by omega)) (n := 17)
    (k := Int.log 10 (n : ℚ)) (by omega) (by rw [hlog]; omega)
  obtain ⟨hle, hat⟩ := search_eq_some hd
  have hvalue : d.value = n := by
    obtain ⟨e, he⟩ := Int.eq_ofNat_of_zero_le hexp
    have hint : d.value = ((d.digits * 10 ^ e : ℕ) : ℤ) := by
      rw [value, he, zpow_natCast]
      push_cast
      ring
    have hpow : 10 ^ e ≤ n := by
      refine le_trans (Nat.pow_le_pow_right (by norm_num) (?_ : e ≤ Nat.log 10 n)) (Nat.pow_log_le_self 10 hpos.ne')
      rw [he, hlog] at hle
      exact_mod_cast hle
    have hdigits : d.digits ≤ n / 10 ^ e + 1 := by
      have hfloor : ⌊(n : ℚ) / 10 ^ d.exp⌋ = (n / 10 ^ e : ℕ) := by
        rw [he, zpow_natCast]
        have := Rat.floor_natCast_div_natCast n (10 ^ e)
        push_cast at this
        exact_mod_cast this
      have := roundShortestAt_le hat
      rwa [hfloor, Int.toNat_natCast] at this
    have hsmall : d.digits * 10 ^ e ≤ 2 ^ 53 :=
      calc d.digits * 10 ^ e ≤ (n / 10 ^ e + 1) * 10 ^ e := Nat.mul_le_mul_right _ hdigits
        _ = n / 10 ^ e * 10 ^ e + 10 ^ e := by ring
        _ ≤ n + n := add_le_add (Nat.div_mul_le_self _ _) hpow
        _ ≤ 2 ^ 53 := by omega
    -- the digits denote a whole number too, which rounding does not move
    have hround := round_of_search hd
    rw [hint] at hround ⊢
    rw [Binary64.round_intCast (by rw [Nat.abs_cast]; exact_mod_cast hsmall)] at hround
    exact hround
  rw [shortest, hd, Option.getD_some]
  exact ⟨(value_trim _ _).trans hvalue, hexp.trans (exp_le_trim _ _)⟩

end Decimal
end Onprest.Lib
