import Mathlib.Data.List.DropRight
import Onprest.Lib.Float64

/-! The numbers of decoded JSON: the Go types that hold them, when one is an exact `int64`, when it is a finite
`float64`, and its canonical text. -/

namespace Onprest.Contract
open Lib

/-- `json.Number` text; a body within the limits of the gateway has fewer than 2^32 digits. -/
structure JSONNumber extends NumberText where
  bounded : whole.length + fraction.length < 2 ^ 32
deriving DecidableEq

/-- The numeric types of a decoded value. -/
inductive Number
  | int64 (n : Int64)
  | int (n : Int64)
  | text (t : JSONNumber)
  | float (x : Float64)
deriving DecidableEq

/-- `strconv.ParseInt(s, 10, 64)` of digits with a sign. -/
def parseInt64 (negative : Bool) (n : ℕ) : Option Int64 :=
  let z : ℤ := if negative then -n else n
  if -2 ^ 63 ≤ z ∧ z < 2 ^ 63 then some (Int64.ofInt z) else none

/-- The exponent digits, saturated. -/
def saturatedExponent (ds : List (Fin 10)) : ℕ :=
  ds.foldl (fun e (d : Fin 10) => if e < 2 ^ 40 then e * 10 + d.val else e) 0

def signedExponent (e : Option Exponent) : ℤ :=
  match e with
  | none => 0
  | some e => if e.sign = some true then -saturatedExponent e.digits else saturatedExponent e.digits

/-- The digits without leading and trailing zeros and the power of ten they stand for, if the text denotes an
integer. -/
def integralJSONNumber (t : NumberText) : Option (List (Fin 10) × ℕ) :=
  let significand := (t.whole ++ t.fraction).dropWhile (· = 0)
  if significand = [] then some ([], 0)
  else
    let trimmed := significand.rdropWhile (· = 0)
    let exp : ℤ := signedExponent t.exponent - t.fraction.length + (significand.length - trimmed.length)
    if exp < 0 then none else some (trimmed, exp.toNat)

def jsonNumberInt64 (t : NumberText) : Option Int64 :=
  match integralJSONNumber t with
  | none => none
  | some (digits, zeros) =>
    if digits = [] then some 0
    else if digits.length + zeros > 19 then none
    else parseInt64 t.negative (digitsValue (digits ++ List.replicate zeros 0))

namespace Number

/-- The number denoted, if it is finite. -/
def value : Number → Option ℚ
  | .int64 n => some n.toInt
  | .int n => some n.toInt
  | .text t => some t.value
  | .float x => x.toRat

def exactInteger : Number → Option Int64
  | .int64 n => some n
  | .int n => some n
  | .text t => jsonNumberInt64 t.toNumberText
  | .float x =>
    match x.toRat with
    | none => none
    | some q => if q.den = 1 ∧ |q| ≤ 2 ^ 53 then some (Int64.ofInt q.num) else none

def finiteNumber : Number → Option Float64
  | .int64 n => Float64.ofInt n.toInt
  | .int n => Float64.ofInt n.toInt
  | .text t => Float64.parse t.toNumberText
  | .float x => if x.toRat.isSome then some x else none

end Number

/-- `strconv.FormatInt(n, 10)`. -/
def formatInt (n : Int64) : NumberText := NumberText.ofNat (decide (n.toInt < 0)) n.toInt.natAbs

/-- The canonical text of a `float64`. -/
def canonicalFloat (x : Float64) : Except String NumberText :=
  match x.toRat with
  | none => .error "number must be finite"
  | some q => .ok (Float64.formatG q)

/-- The number cases of `writeCanonical`. -/
def canonicalNumber : Number → Except String NumberText
  | .int64 n => .ok (formatInt n)
  | .int n => .ok (formatInt n)
  | .text t =>
    match (if t.isPlain then parseInt64 t.negative (digitsValue t.whole) else none) with
    | some n => .ok (formatInt n)
    | none =>
      if t.isPlain then .error "integer exceeds int64"
      else
        match Float64.parse t.toNumberText with
        | none => .error "invalid number"
        | some x => canonicalFloat x
  | .float x => canonicalFloat x

/-! ### Exact integers -/

variable {n v : ℕ} {i : Int64} {ds : List (Fin 10)} {e : ℤ} {t : NumberText}

theorem parseInt64_eq_some {b : Bool} : parseInt64 b n = some i ↔ i.toInt = if b then -(n : ℤ) else n := by
  unfold parseInt64
  generalize (if b then -(n : ℤ) else n) = z
  dsimp only
  constructor
  · intro h
    split at h
    · rename_i hr
      cases h
      exact Int64.toInt_ofInt_of_le hr.1 hr.2
    · cases h
  · intro h
    have h₁ := i.le_toInt
    have h₂ := i.toInt_lt
    rw [← h, if_pos ⟨h₁, h₂⟩, Int64.ofInt_toInt]

private theorem saturated_foldl (ds : List (Fin 10)) (n m : ℕ) (h : n = m ∨ 2 ^ 40 ≤ n ∧ 2 ^ 40 ≤ m) :
    let s := ds.foldl (fun e (d : Fin 10) => if e < 2 ^ 40 then e * 10 + d.val else e) n
    let e := ds.foldl (fun n (d : Fin 10) => 10 * n + d.val) m
    s = e ∨ 2 ^ 40 ≤ s ∧ 2 ^ 40 ≤ e := by
  induction ds generalizing n m with
  | nil => exact h
  | cons d ds ih =>
    refine ih _ _ ?_
    dsimp only
    split <;> omega

/-- Saturation only touches exponents that no digit string of a body can offset. -/
theorem saturatedExponent_eq (ds : List (Fin 10)) :
    saturatedExponent ds = digitsValue ds ∨ 2 ^ 40 ≤ saturatedExponent ds ∧ 2 ^ 40 ≤ digitsValue ds :=
  saturated_foldl ds 0 0 (.inl rfl)

/-- Up to thirteen digits are read exactly. -/
theorem saturatedExponent_of_length (h : ds.length ≤ 13) : saturatedExponent ds = digitsValue ds := by
  induction ds using List.reverseRecOn with
  | nil => rfl
  | append_singleton ds d ih =>
    rw [List.length_append, List.length_singleton] at h
    have hds := ih (by omega)
    have hlt : digitsValue ds < 10 ^ 12 :=
      (digitsValue_lt ds).trans_le (Nat.pow_le_pow_right (by norm_num) (by omega))
    rw [saturatedExponent, List.foldl_append, digitsValue_append]
    change (if saturatedExponent ds < 2 ^ 40 then saturatedExponent ds * 10 + d.val else saturatedExponent ds) = _
    rw [hds, if_pos (by omega)]
    simp [digitsValue]

theorem signedExponent_eq (t : NumberText) :
    signedExponent t.exponent = t.scale ∨
      (2 ^ 40 ≤ signedExponent t.exponent ∧ 2 ^ 40 ≤ t.scale) ∨
      (signedExponent t.exponent ≤ -2 ^ 40 ∧ t.scale ≤ -2 ^ 40) := by
  unfold signedExponent NumberText.scale
  cases t.exponent with
  | none => exact .inl rfl
  | some e =>
    simp only [Option.map_some, Option.getD_some, Exponent.value]
    rcases saturatedExponent_eq e.digits with h | ⟨h₁, h₂⟩
    · rw [h]
      exact .inl rfl
    · right
      split
      · exact .inr ⟨by omega, by omega⟩
      · exact .inl ⟨by omega, by omega⟩

theorem digitsValue_dropWhile (ds : List (Fin 10)) : digitsValue (ds.dropWhile (· = 0)) = digitsValue ds := by
  induction ds with
  | nil => rfl
  | cons d ds ih =>
    by_cases h : d = 0
    · subst h
      simpa [digitsValue_cons] using ih
    · simp [h]

/-- Trailing zeros are a power of ten. -/
theorem digitsValue_rdropWhile (ds : List (Fin 10)) :
    digitsValue ds = digitsValue (ds.rdropWhile (· = 0)) * 10 ^ (ds.length - (ds.rdropWhile (· = 0)).length) := by
  induction ds using List.reverseRecOn with
  | nil => rfl
  | append_singleton ds d ih =>
    by_cases h : d = 0
    · subst h
      have hle : (ds.rdropWhile (· = 0)).length ≤ ds.length := (List.rdropWhile_prefix _ ds).length_le
      rw [List.rdropWhile_concat_pos _ _ _ (by simp), digitsValue_append, ih, List.length_append,
        List.length_singleton, Nat.sub_add_comm hle, pow_succ]
      simp [digitsValue]
      ring
    · rw [List.rdropWhile_concat_neg _ _ _ (by simpa using h)]
      simp

/-- The last digit left is not zero. -/
theorem digitsValue_rdropWhile_mod (h : ds.rdropWhile (· = 0) ≠ []) :
    digitsValue (ds.rdropWhile (· = 0)) % 10 ≠ 0 := by
  have hlast := List.rdropWhile_last_not (p := fun d : Fin 10 => decide (d = 0)) ds h
  rw [← List.dropLast_append_getLast h, digitsValue_append]
  generalize (ds.rdropWhile (· = 0)).getLast h = d at *
  have hd : d.val ≠ 0 := fun h0 => hlast (decide_eq_true (Fin.ext h0))
  simp only [List.length_singleton, pow_one, digitsValue, List.foldl_cons, List.foldl_nil]
  omega

theorem le_digitsValue {d : Fin 10} (hd : d ≠ 0) (ds : List (Fin 10)) : 10 ^ ds.length ≤ digitsValue (d :: ds) := by
  have : 1 ≤ d.val := Nat.one_le_iff_ne_zero.mpr fun h => hd (Fin.ext h)
  rw [digitsValue_cons]
  have := Nat.mul_le_mul_right (10 ^ ds.length) this
  omega

private theorem ne_natCast_of_neg (hv : v % 10 ≠ 0) (he : e < 0) : (v : ℚ) * 10 ^ e ≠ n := by
  intro h
  obtain ⟨k, hk⟩ : ∃ k : ℕ, e = -((k + 1 : ℕ) : ℤ) := ⟨(-e).toNat - 1, by omega⟩
  have hv' : v = n * 10 ^ (k + 1) := by
    rw [hk, zpow_neg, zpow_natCast, ← div_eq_mul_inv, div_eq_iff (by positivity)] at h
    exact_mod_cast h
  rw [pow_succ, ← mul_assoc] at hv'
  omega

private theorem pow_le_mul_zpow {l : ℕ} (hv : 10 ^ l ≤ v) (he : 19 ≤ l + e) : (10 : ℚ) ^ 19 ≤ v * 10 ^ e := by
  have hq : (10 : ℚ) ^ (l : ℤ) ≤ v := by
    rw [zpow_natCast]
    exact_mod_cast hv
  calc (10 : ℚ) ^ 19 = 10 ^ (19 : ℤ) := by norm_num
    _ ≤ 10 ^ ((l : ℤ) + e) := zpow_le_zpow_right₀ (by norm_num) he
    _ = 10 ^ (l : ℤ) * 10 ^ e := zpow_add₀ (by norm_num) _ _
    _ ≤ v * 10 ^ e := mul_le_mul_of_nonneg_right hq (Decimal.ten_zpow_pos e).le

private theorem value_eq_intCast {z : ℤ} (h : t.value = z) : t.magnitude = z.natAbs := by
  rw [← t.abs_value, h, Nat.cast_natAbs, Int.cast_abs]

/-- The digits of a number that is not zero, without the zeros around them; `k` zeros stood behind them. -/
structure Significand (t : NumberText) (T : List (Fin 10)) (k : ℕ) : Prop where
  ne : T ≠ []
  large : 10 ^ (T.length - 1) ≤ digitsValue T
  last : digitsValue T % 10 ≠ 0
  length : T.length + k ≤ t.whole.length + t.fraction.length
  magnitude : t.magnitude = digitsValue T * 10 ^ (t.scale - t.fraction.length + (k : ℤ))

theorem integralJSONNumber_cases (t : NumberText) :
    t.value = 0 ∧ integralJSONNumber t = some ([], 0) ∨
      ∃ T k, Significand t T k ∧ integralJSONNumber t =
        if signedExponent t.exponent - t.fraction.length + (k : ℤ) < 0 then none
        else some (T, (signedExponent t.exponent - t.fraction.length + (k : ℤ)).toNat) := by
  simp only [integralJSONNumber]
  generalize hS : (t.whole ++ t.fraction).dropWhile (· = 0) = S
  have hD : digitsValue (t.whole ++ t.fraction) = digitsValue S := by rw [← hS, digitsValue_dropWhile]
  have hSlen : S.length ≤ t.whole.length + t.fraction.length := by
    rw [← List.length_append, ← hS]
    exact (List.dropWhile_suffix _).length_le
  cases S with
  | nil =>
    have hzero : t.magnitude = 0 := by simp [NumberText.magnitude, hD]
    exact .inl ⟨by simp [NumberText.value, hzero], if_pos rfl⟩
  | cons d S =>
    right
    have hd : d ≠ 0 := by
      have := List.head_dropWhile_not (p := fun d : Fin 10 => decide (d = 0)) (l := t.whole ++ t.fraction)
        (by simp [hS])
      simpa [hS] using this
    generalize hT : (d :: S).rdropWhile (· = 0) = T
    have hTlen : T.length ≤ (d :: S).length := hT ▸ (List.rdropWhile_prefix _ _).length_le
    have hne : T ≠ [] := by
      rw [← hT, Ne, List.rdropWhile_eq_nil_iff]
      intro h
      exact hd (of_decide_eq_true (h d List.mem_cons_self))
    have hhead : ∃ T', T = d :: T' := by
      obtain ⟨r, hr⟩ : T <+: d :: S := hT ▸ List.rdropWhile_prefix _ _
      cases T with
      | nil => exact absurd rfl hne
      | cons a T' => exact ⟨T', by rw [(List.cons.inj hr).1]⟩
    have hsplit : digitsValue (d :: S) = digitsValue T * 10 ^ ((d :: S).length - T.length) :=
      hT ▸ digitsValue_rdropWhile (d :: S)
    have hsub : (((d :: S).length : ℤ) - T.length) = ((d :: S).length - T.length : ℕ) := by omega
    refine ⟨T, (d :: S).length - T.length, ⟨hne, ?_, ?_, by omega, ?_⟩, ?_⟩
    · obtain ⟨T', rfl⟩ := hhead
      exact le_digitsValue hd T'
    · exact hT ▸ digitsValue_rdropWhile_mod (hT ▸ hne)
    · rw [NumberText.magnitude, hD, hsplit, zpow_add₀ (by norm_num), zpow_natCast]
      push_cast
      ring
    · rw [if_neg (List.cons_ne_nil d S), hsub]

/-- No digit string of the text can offset a saturated exponent. -/
def Resolved (t : NumberText) : Prop :=
  signedExponent t.exponent = t.scale ∨
    t.fraction.length + 19 ≤ 2 ^ 40 ∧ t.whole.length + t.fraction.length < 2 ^ 40

theorem Resolved.cases (h : Resolved t) :
    signedExponent t.exponent = t.scale ∨
      ((2 ^ 40 ≤ signedExponent t.exponent ∧ 2 ^ 40 ≤ t.scale) ∨
        (signedExponent t.exponent ≤ -2 ^ 40 ∧ t.scale ≤ -2 ^ 40)) ∧
      t.fraction.length + 19 ≤ 2 ^ 40 ∧ t.whole.length + t.fraction.length < 2 ^ 40 := by
  rcases h with h | h
  · exact .inl h
  · rcases signedExponent_eq t with hexact | hsat
    · exact .inl hexact
    · exact .inr ⟨hsat, h⟩

/-- `JSONNumberInt64` decides whether the text denotes an `int64`, and which. -/
theorem jsonNumberInt64_eq_some_iff (ht : Resolved t) : jsonNumberInt64 t = some i ↔ t.value = (i.toInt : ℚ) := by
  have hi : (i.toInt.natAbs : ℚ) < 10 ^ 19 := by
    have h₁ := i.le_toInt
    have h₂ := i.toInt_lt
    have : i.toInt.natAbs < 10 ^ 19 := by omega
    exact_mod_cast this
  rw [jsonNumberInt64]
  rcases integralJSONNumber_cases t with ⟨hzero, hsome⟩ | ⟨T, k, sig, hsome⟩
  · rw [hsome, hzero]
    simp only [if_true, Option.some.injEq]
    constructor
    · rintro rfl
      rfl
    · intro h
      apply Int64.toInt.inj
      have : ((0 : ℤ) : ℚ) = i.toInt := by exact_mod_cast h
      exact_mod_cast this
  · rw [hsome]
    have hlength := sig.length
    have hTpos : 0 < T.length := List.length_pos_iff.mpr sig.ne
    have hmag := sig.magnitude
    have hlong (e : ℤ) (he : 19 ≤ (T.length - 1 : ℕ) + e) (hm : t.magnitude = digitsValue T * 10 ^ e) :
        t.value ≠ i.toInt := by
      intro h
      have := pow_le_mul_zpow sig.large he
      rw [← hm, value_eq_intCast h] at this
      linarith
    have hfraction (e : ℤ) (he : e < 0) (hm : t.magnitude = digitsValue T * 10 ^ e) : t.value ≠ i.toInt := by
      intro h
      exact ne_natCast_of_neg sig.last he (hm.symm.trans (value_eq_intCast h))
    generalize hx : signedExponent t.exponent - t.fraction.length + (k : ℤ) = x
    rcases ht.cases with hexact | ⟨⟨hlo, hlo'⟩ | ⟨hhi, hhi'⟩, hfew, hall⟩
    · rw [← hexact, hx] at hmag
      by_cases hneg : x < 0
      · rw [if_pos hneg]
        exact iff_of_false (by simp) (hfraction x hneg hmag)
      · obtain ⟨z, rfl⟩ := Int.eq_ofNat_of_zero_le (not_lt.mp hneg)
        simp only [hneg, if_false, Int.toNat_natCast, sig.ne]
        split
        · exact iff_of_false (by simp) (hlong z (by omega) hmag)
        · have hmag' : t.magnitude = ((digitsValue (T ++ List.replicate z 0) : ℕ) : ℚ) := by
            rw [hmag, digitsValue_append, digitsValue_replicate_zero, List.length_replicate, zpow_natCast]
            push_cast
            ring
          rw [parseInt64_eq_some, NumberText.value, hmag']
          constructor
          · intro h
            rw [h]
            split <;> push_cast <;> rfl
          · intro h
            split at h
            · rename_i hminus
              rw [if_pos hminus]
              exact_mod_cast h.symm
            · rename_i hplus
              rw [if_neg hplus]
              exact_mod_cast h.symm
    · -- a saturated exponent is out of range, and so is the number
      have hnone : ¬ x < 0 := by omega
      simp only [hnone, if_false, sig.ne]
      rw [if_pos (by omega)]
      exact iff_of_false (by simp) (hlong _ (by omega) hmag)
    · rw [if_pos (by omega)]
      exact iff_of_false (by simp) (hfraction _ (by omega) hmag)

/-- `JSONNumberIsInteger` decides whether the text denotes an integer. -/
theorem isSome_integralJSONNumber (ht : t.whole.length + t.fraction.length < 2 ^ 40) :
    (integralJSONNumber t).isSome ↔ ∃ z : ℤ, t.value = z := by
  rcases integralJSONNumber_cases t with ⟨hzero, hsome⟩ | ⟨T, k, sig, hsome⟩
  · rw [hsome, hzero]
    exact iff_of_true rfl ⟨0, by norm_num⟩
  · have hlength := sig.length
    have hmag := sig.magnitude
    have hfraction (h : t.scale - t.fraction.length + (k : ℤ) < 0) : ¬ ∃ z : ℤ, t.value = z := by
      rintro ⟨z, hz⟩
      exact ne_natCast_of_neg sig.last h (hmag.symm.trans (value_eq_intCast hz))
    have hwhole (h : ¬ t.scale - t.fraction.length + (k : ℤ) < 0) : ∃ z : ℤ, t.value = z := by
      obtain ⟨n, hn⟩ := Int.eq_ofNat_of_zero_le (not_lt.mp h)
      rw [hn, zpow_natCast] at hmag
      rw [NumberText.value, hmag]
      split
      · exact ⟨-(digitsValue T * 10 ^ n : ℕ), by push_cast; rfl⟩
      · exact ⟨(digitsValue T * 10 ^ n : ℕ), by push_cast; rfl⟩
    rw [hsome]
    have hsame : signedExponent t.exponent - t.fraction.length + (k : ℤ) < 0 ↔
        t.scale - t.fraction.length + (k : ℤ) < 0 := by
      rcases signedExponent_eq t with hexact | ⟨hlo, hlo'⟩ | ⟨hhi, hhi'⟩
      · rw [hexact]
      · omega
      · omega
    by_cases hneg : signedExponent t.exponent - t.fraction.length + (k : ℤ) < 0
    · rw [if_pos hneg]
      exact iff_of_false nofun (hfraction (hsame.mp hneg))
    · rw [if_neg hneg]
      exact iff_of_true rfl (hwhole (mt hsame.mpr hneg))

theorem jsonNumberInt64_eq_some (t : JSONNumber) :
    jsonNumberInt64 t.toNumberText = some i ↔ t.value = (i.toInt : ℚ) := by
  have hb := t.bounded
  exact jsonNumberInt64_eq_some_iff (.inr ⟨by omega, by omega⟩)

namespace Number

variable {n : Number} {i : Int64}

theorem value_exactInteger (h : n.exactInteger = some i) : n.value = some (i.toInt : ℚ) := by
  cases n with
  | int64 m | int m =>
    cases h
    rfl
  | text t => exact congrArg some ((jsonNumberInt64_eq_some t).mp h)
  | float x =>
    simp only [exactInteger] at h
    split at h
    · cases h
    · rename_i q hq
      split at h
      · rename_i hwhole
        cases h
        have hnum : (q.num : ℚ) = q := Rat.coe_int_num_of_den_eq_one hwhole.1
        have habs : |q.num| ≤ 2 ^ 53 := by
          have := hwhole.2
          rw [← hnum] at this
          exact_mod_cast this
        have := abs_le.mp habs
        rw [Int64.toInt_ofInt_of_le (by omega) (by omega), hnum]
        exact hq
      · cases h

/-- A whole number of magnitude at most `2 ^ 53` is recognized in every representation. -/
theorem exactInteger_of_value {z : ℤ} (h : n.value = some (z : ℚ)) (hz : |z| ≤ 2 ^ 53) :
    n.exactInteger = some (Int64.ofInt z) := by
  have hle := abs_le.mp hz
  have hto : (Int64.ofInt z).toInt = z := Int64.toInt_ofInt_of_le (by omega) (by omega)
  cases n with
  | int64 m | int m =>
    have : m.toInt = z := by exact_mod_cast Option.some.inj h
    rw [exactInteger, ← this, Int64.ofInt_toInt]
  | text t =>
    refine (jsonNumberInt64_eq_some t).mpr ?_
    rw [hto]
    exact Option.some.inj h
  | float x =>
    have hq : x.toRat = some (z : ℚ) := h
    have habs : |(z : ℚ)| ≤ 2 ^ 53 := by exact_mod_cast hz
    simp only [exactInteger, hq, Rat.den_intCast, Rat.num_intCast, habs, and_self, if_true]

theorem exactInteger_float {x : Float64} :
    (Number.float x).exactInteger = some i ↔ x.toRat = some (i.toInt : ℚ) ∧ |i.toInt| ≤ 2 ^ 53 := by
  constructor
  · intro h
    have hvalue : x.toRat = some (i.toInt : ℚ) := value_exactInteger h
    refine ⟨hvalue, ?_⟩
    simp only [exactInteger, hvalue] at h
    split at h
    · rename_i hwhole
      exact_mod_cast hwhole.2
    · cases h
  · rintro ⟨hx, habs⟩
    rw [exactInteger_of_value (n := .float x) hx habs, Int64.ofInt_toInt]

/-- Every `int64` converts to a finite float. -/
theorem exists_ofInt (n : Int64) : ∃ x, Float64.ofInt n.toInt = some x := by
  refine Float64.exists_ofRat (k := 64) ?_ (by norm_num)
  have h₁ := n.le_toInt
  have h₂ := n.toInt_lt
  have : |n.toInt| < 2 ^ 64 := abs_lt.mpr ⟨by omega, by omega⟩
  exact_mod_cast this

end Number
end Onprest.Contract
