import Onprest.Lib.JsonText
import Onprest.Contract.Number

/-! Integers read off number text, character by character as the source does it, against the number the text denotes.
The exponent is saturated, so there is a length from which a fraction can offset it. -/

namespace Onprest.Contract
open Lib

namespace JsonInteger

def decimalDigits (s : List Char) : Bool := s.all fun c => decide ('0' ≤ c) && decide (c ≤ '9')

/-- The exponent of decimal digits, saturated. -/
def saturate (s : List Char) : ℤ := s.foldl (fun e c => if e < 2 ^ 40 then e * 10 + (c.toNat - 48) else e) 0

/-- The exponent, from the `e` on; none is zero. -/
def readExponent : List Char → Option ℤ
  | [] => some 0
  | _ :: s =>
    let (minus, s) := Exponent.takeSign s
    if s = [] || !decimalDigits s then none
    else some ((if minus = some true then -1 else 1) * saturate s)

/-- `integralJSONNumber`: the sign, the digits without leading and trailing zeros and the zeros behind them, if the
text denotes an integer. -/
def integralJSONNumber (text : List Char) : Option (Bool × List Char × ℤ) :=
  let (negative, s) := NumberText.takeMinus text
  let mantissa := s.takeWhile fun c => !(c == 'e' || c == 'E')
  let exponent := s.dropWhile fun c => !(c == 'e' || c == 'E')
  let whole := mantissa.takeWhile (· != '.')
  let point := mantissa.dropWhile (· != '.')
  let fraction := point.tail
  if whole = [] || !decimalDigits whole || (point ≠ [] && (fraction = [] || !decimalDigits fraction)) then none
  else
    match readExponent exponent with
    | none => none
    | some exp =>
      let significand := (whole ++ fraction).dropWhile (· == '0')
      if significand = [] then some (negative, [], 0)
      else
        let trimmed := significand.rdropWhile (· == '0')
        let exp := exp - fraction.length + (significand.length - trimmed.length)
        if exp < 0 then none else some (negative, trimmed, exp)

/-- `JSONNumberIsInteger`. -/
def jsonNumberIsInteger (text : List Char) : Bool := (integralJSONNumber text).isSome

/-- `strconv.ParseInt(s, 10, 64)`. -/
def parseInt (s : List Char) : Option Int64 :=
  let (minus, s) := Exponent.takeSign s
  match s.mapM digitOf with
  | none => none
  | some ds => if ds = [] then none else parseInt64 (minus == some true) (digitsValue ds)

/-- `JSONNumberInt64`. -/
def jsonNumberInt64 (text : List Char) : Option Int64 :=
  match integralJSONNumber text with
  | none => none
  | some (negative, digits, zeros) =>
    if digits = [] then some 0
    else if digits.length + zeros > 19 then none
    else parseInt ((if negative then ['-'] else []) ++ digits ++ List.replicate zeros.toNat '0')

/-! ### The pieces of a number text -/

theorem digitChar_facts : ∀ d : Fin 10, ('0' ≤ digitChar d ∧ digitChar d ≤ '9') ∧ digitChar d ≠ 'e' ∧
    digitChar d ≠ 'E' ∧ digitChar d ≠ '.' ∧ digitChar d ≠ '-' ∧ digitChar d ≠ '+' ∧ (digitChar d = '0' ↔ d = 0) ∧
    (digitChar d).toNat = 48 + d.val := by
  decide

theorem decimalDigits_map (ds : List (Fin 10)) : decimalDigits (ds.map digitChar) = true := by
  rw [decimalDigits, List.all_map, List.all_eq_true]
  intro d _
  obtain ⟨⟨hlo, hhi⟩, -⟩ := digitChar_facts d
  simp [hlo, hhi]

theorem saturate_map (ds : List (Fin 10)) : saturate (ds.map digitChar) = saturatedExponent ds := by
  have hfold (n : ℕ) : (ds.map digitChar).foldl (fun (e : ℤ) c => if e < 2 ^ 40 then e * 10 +
    (c.toNat - 48) else e) n =
      (ds.foldl (fun e (d : Fin 10) => if e < 2 ^ 40 then e * 10 + d.val else e) n : ℕ) := by
    induction ds generalizing n with
    | nil => rfl
    | cons d ds ih =>
      have hd : (digitChar d).toNat = 48 + d.val := (digitChar_facts d).2.2.2.2.2.2.2
      have hstep : (if (n : ℤ) < 2 ^ 40 then (n : ℤ) * 10 + ((digitChar d).toNat - 48) else n) =
          ((if n < 2 ^ 40 then n * 10 + d.val else n : ℕ) : ℤ) := by
        rw [hd]
        split_ifs <;> push_cast <;> omega
      rw [List.map_cons, List.foldl_cons, List.foldl_cons, hstep]
      exact ih _
  exact hfold 0

theorem beq_zero_comp : (fun c => c == '0') ∘ digitChar = fun d : Fin 10 => decide (d = 0) := by
  funext d
  have : digitChar d = '0' ↔ d = 0 := (digitChar_facts d).2.2.2.2.2.2.1
  simp only [Function.comp_apply, beq_eq_decide, this]

theorem dropWhile_map (ds : List (Fin 10)) :
    (ds.map digitChar).dropWhile (· == '0') = (ds.dropWhile (· = 0)).map digitChar := by
  rw [List.dropWhile_map, beq_zero_comp]

theorem rdropWhile_map (ds : List (Fin 10)) :
    (ds.map digitChar).rdropWhile (· == '0') = (ds.rdropWhile (· = 0)).map digitChar := by
  rw [List.rdropWhile, List.rdropWhile, ← List.map_reverse, dropWhile_map, List.map_reverse]

section
variable (t : NumberText)

theorem takeMinus_text : NumberText.takeMinus t.text =
    (t.negative, t.whole.map digitChar ++ t.fractionText ++ t.exponentText) := by
  unfold NumberText.text
  cases t.negative with
  | true => simp [NumberText.takeMinus]
  | false =>
    have := NumberText.takeMinus_digits t.ne (t.fractionText ++ t.exponentText)
    simpa using this

theorem fractionText_ne : ∀ c ∈ t.fractionText, c ≠ 'e' ∧ c ≠ 'E' := by
  unfold NumberText.fractionText
  split
  · exact nofun
  · intro c hc
    rcases List.mem_cons.mp hc with rfl | hc
    · decide
    · obtain ⟨d, -, rfl⟩ := List.mem_map.mp hc
      obtain ⟨-, he, hE, -⟩ := digitChar_facts d
      exact ⟨he, hE⟩

theorem cut_exponent :
    (t.whole.map digitChar ++ t.fractionText ++ t.exponentText).takeWhile (fun c => !(c == 'e' || c == 'E')) =
        t.whole.map digitChar ++ t.fractionText ∧
      (t.whole.map digitChar ++ t.fractionText ++ t.exponentText).dropWhile (fun c => !(c == 'e' || c == 'E')) =
        t.exponentText := by
  have hmantissa : ∀ c ∈ t.whole.map digitChar ++ t.fractionText, (!(c == 'e' || c == 'E')) = true := by
    intro c hc
    have hne : c ≠ 'e' ∧ c ≠ 'E' := by
      rcases List.mem_append.mp hc with hc | hc
      · obtain ⟨d, -, rfl⟩ := List.mem_map.mp hc
        obtain ⟨-, he, hE, -⟩ := digitChar_facts d
        exact ⟨he, hE⟩
      · exact fractionText_ne t c hc
    simp [hne]
  rw [List.takeWhile_append_of_pos hmantissa, List.dropWhile_append_of_pos hmantissa]
  unfold NumberText.exponentText
  cases t.exponent with
  | none => simp
  | some e =>
    rw [Option.map_some, Option.getD_some, Exponent.text]
    cases e.upper <;> simp

theorem cut_point :
    (t.whole.map digitChar ++ t.fractionText).takeWhile (· != '.') = t.whole.map digitChar ∧
      (t.whole.map digitChar ++ t.fractionText).dropWhile (· != '.') = t.fractionText := by
  have hwhole : ∀ c ∈ t.whole.map digitChar, (c != '.') = true := by
    intro c hc
    obtain ⟨d, -, rfl⟩ := List.mem_map.mp hc
    obtain ⟨-, -, -, hpoint, -⟩ := digitChar_facts d
    simp [hpoint]
  rw [List.takeWhile_append_of_pos hwhole, List.dropWhile_append_of_pos hwhole]
  unfold NumberText.fractionText
  split <;> simp

theorem readExponent_text : readExponent t.exponentText = some (signedExponent t.exponent) := by
  unfold NumberText.exponentText
  cases t.exponent with
  | none => rfl
  | some e =>
    obtain ⟨upper, sign, ds, hne⟩ := e
    have hsign : Exponent.takeSign (Exponent.signText ⟨upper, sign, ds, hne⟩ ++ ds.map digitChar) =
        (sign, ds.map digitChar) := by
      cases sign with
      | none =>
        have := Exponent.takeSign_digits hne []
        rw [List.append_nil] at this
        exact this
      | some b => cases b <;> rfl
    rw [Option.map_some, Option.getD_some, Exponent.text, readExponent, hsign]
    simp only [decimalDigits_map, List.map_eq_nil_iff, hne, saturate_map, signedExponent]
    split_ifs <;> simp_all

/-- The text is split as the grammar splits it. -/
theorem integralJSONNumber_text : integralJSONNumber t.text =
    (Contract.integralJSONNumber t).map fun x => (t.negative, x.1.map digitChar, (x.2 : ℤ)) := by
  obtain ⟨hmantissa, hexponent⟩ := cut_exponent t
  obtain ⟨hwhole, hpoint⟩ := cut_point t
  have htail : t.fractionText.tail = t.fraction.map digitChar := by
    unfold NumberText.fractionText
    split
    · rename_i h
      rw [h]
      rfl
    · rfl
  have hok : (decide (t.whole = []) || !decimalDigits (t.whole.map digitChar) ||
      (decide (t.fractionText ≠ []) && (decide (t.fraction = []) || !decimalDigits (t.fraction.map digitChar)))) =
        false := by
    rw [decimalDigits_map, decimalDigits_map, decide_eq_false t.ne]
    unfold NumberText.fractionText
    split <;> simp_all
  simp only [integralJSONNumber, takeMinus_text, hmantissa, hexponent, hwhole, hpoint, htail, readExponent_text,
    Contract.integralJSONNumber, hok, ← List.map_append, dropWhile_map, rdropWhile_map, List.map_eq_nil_iff,
    List.length_map, Bool.false_eq_true, if_false]
  split
  · rfl
  · split
    · rfl
    · rename_i hneg
      rw [Option.map_some, Int.toNat_of_nonneg (not_lt.mp hneg)]

theorem mapM_digitOf (ds : List (Fin 10)) : (ds.map digitChar).mapM digitOf = some ds := by
  induction ds with
  | nil => rfl
  | cons d ds ih => simp [ih]

theorem parseInt_digits (negative : Bool) {ds : List (Fin 10)} (h : ds ≠ []) :
    parseInt ((if negative then ['-'] else []) ++ ds.map digitChar) = parseInt64 negative (digitsValue ds) := by
  have hsign : Exponent.takeSign ((if negative then ['-'] else []) ++ ds.map digitChar) =
      (if negative then some true else none, ds.map digitChar) := by
    cases negative with
    | true => rfl
    | false =>
      have := Exponent.takeSign_digits h []
      rw [List.append_nil] at this
      exact this
  rw [parseInt, hsign]
  simp only [mapM_digitOf, h, if_false]
  cases negative <;> rfl

theorem jsonNumberInt64_text : jsonNumberInt64 t.text = Contract.jsonNumberInt64 t := by
  rw [jsonNumberInt64, integralJSONNumber_text, Contract.jsonNumberInt64]
  cases h : Contract.integralJSONNumber t with
  | none => rfl
  | some x =>
    obtain ⟨ds, zeros⟩ := x
    have hzero : List.replicate zeros '0' = (List.replicate zeros (0 : Fin 10)).map digitChar := by
      rw [List.map_replicate]
      rfl
    simp only [Option.map_some, List.map_eq_nil_iff, List.length_map, Int.toNat_natCast, hzero, List.append_assoc,
      ← List.map_append]
    split
    · rfl
    · rename_i hne
      have hne' : ds ++ List.replicate zeros 0 ≠ [] := fun h => hne (List.append_eq_nil_iff.mp h).1
      rw [parseInt_digits t.negative hne']
      have hiff : (ds.length : ℤ) + zeros > 19 ↔ ds.length + zeros > 19 := by omega
      simp only [hiff]

/-! ### How long a text may be -/

theorem length_text : t.text.length =
    t.negative.toNat + t.whole.length + t.fractionText.length + t.exponentText.length := by
  unfold NumberText.text
  cases t.negative with
  | true =>
    simp only [if_true, List.length_append, List.length_map, List.length_singleton, Bool.toNat_true]
  | false =>
    simp only [Bool.false_eq_true, if_false, List.length_append, List.length_map, List.length_nil, Bool.toNat_false]

theorem length_fractionText : t.fraction.length ≤ t.fractionText.length ∧
    (t.fraction ≠ [] → t.fractionText.length = t.fraction.length + 1) := by
  unfold NumberText.fractionText
  split <;> simp_all

/-- A text one byte below the bound is too short to offset an exponent that was cut off. -/
theorem resolved_of_length (h : t.text.length < 2 ^ 40 - 1) : Resolved t := by
  have hlength := length_text t
  obtain ⟨hfraction, hpoint⟩ := length_fractionText t
  have hwhole := List.length_pos_iff.mpr t.ne
  rw [Resolved, or_iff_not_imp_left]
  intro hcut
  have hexponent : 15 ≤ t.exponentText.length := by
    by_contra hshort
    apply hcut
    unfold NumberText.exponentText at hshort
    unfold signedExponent NumberText.scale
    cases he : t.exponent with
    | none => rfl
    | some e =>
      rw [he] at hshort
      have hdigits : e.digits.length ≤ 13 := by
        simp only [Option.map_some, Option.getD_some, Exponent.text, List.length_cons, List.length_append,
          List.length_map] at hshort
        omega
      simp only [Option.map_some, Option.getD_some, Exponent.value, saturatedExponent_of_length hdigits]
  by_cases hne : t.fraction = []
  · rw [hne]
    exact ⟨by norm_num, by rw [List.length_nil]; omega⟩
  · have := hpoint hne
    exact ⟨by omega, by omega⟩

end

/-- Integers are read exactly off number text: an `int64` off every text shorter than `2 ^ 40 - 1` bytes, and whether
the number is an integer off every text shorter than `2 ^ 40` bytes. -/
theorem integers_read_exactly (t : NumberText) :
    (t.text.length < 2 ^ 40 - 1 → ∀ i : Int64, jsonNumberInt64 t.text = some i ↔ t.value = (i.toInt : ℚ)) ∧
      (t.text.length < 2 ^ 40 → (jsonNumberIsInteger t.text = true ↔ ∃ z : ℤ, t.value = z)) := by
  constructor
  · intro h i
    rw [jsonNumberInt64_text]
    exact jsonNumberInt64_eq_some_iff (resolved_of_length t h)
  · intro h
    have hlength := length_text t
    have hfraction := (length_fractionText t).1
    have hsome := isSome_integralJSONNumber (t := t) (by omega)
    rw [jsonNumberIsInteger, integralJSONNumber_text, Option.isSome_map]
    exact hsome

theorem integers_read_exactly_example :
    let t : NumberText := ⟨false, [1], [5], some ⟨false, none, [1], by decide⟩, by decide⟩
    t.text.length < 2 ^ 40 - 1 ∧ (∀ i : Int64, jsonNumberInt64 t.text = some i ↔ t.value = (i.toInt : ℚ)) ∧
      (jsonNumberIsInteger t.text = true ↔ ∃ z : ℤ, t.value = z) := by
  have h := integers_read_exactly ⟨false, [1], [5], some ⟨false, none, [1], by decide⟩, by decide⟩
  exact ⟨by decide, h.1 (by decide), h.2 (by decide)⟩

/-- `e10995116277760`, of which the last digit is cut off. -/
def cutExponent : Exponent := ⟨false, none, [1, 0, 9, 9, 5, 1, 1, 6, 2, 7, 7, 7, 6, 0], by decide⟩

/-- `0.0…01e10995116277760`, with `n` zeros behind the point. -/
def offset (n : ℕ) : NumberText where
  negative := false
  whole := [0]
  fraction := List.replicate n 0 ++ [1]
  exponent := some cutExponent
  ne := zero_ne_nil

theorem length_offset (n : ℕ) : (offset n).text.length = n + 18 := by
  have hne : (offset n).fraction ≠ [] := by simp [offset]
  have hfraction := (length_fractionText (offset n)).2 hne
  have hlength : (offset n).fraction.length = n + 1 := by simp [offset]
  have hexponent : (offset n).exponentText.length = 15 := rfl
  have hwhole : (offset n).whole.length = 1 := rfl
  have hminus : (offset n).negative.toNat = 0 := rfl
  rw [length_text, hfraction, hlength, hexponent, hwhole, hminus]
  omega

theorem dropWhile_offset (n : ℕ) : ((offset n).whole ++ (offset n).fraction).dropWhile (· = 0) = [1] := by
  change ((0 : Fin 10) :: (List.replicate n 0 ++ [1])).dropWhile (· = 0) = [1]
  rw [← List.cons_append, ← List.replicate_succ, List.dropWhile_append_of_pos (by simp)]
  rfl

/-- At this length the digit that is left and the cut exponent look like `10 ^ 18`. -/
theorem jsonNumberInt64_offset {n : ℕ} (h : n + 19 = 2 ^ 40) :
    Contract.jsonNumberInt64 (offset n) = some 1000000000000000000 := by
  have htrim : ([1] : List (Fin 10)).rdropWhile (· = 0) = [1] := rfl
  have hlength : (offset n).fraction.length = n + 1 := by simp [offset]
  have hexp : signedExponent (offset n).exponent - (offset n).fraction.length + (1 - 1) = 18 := by
    have : signedExponent (some cutExponent) = 2 ^ 40 := by decide
    rw [hlength]
    change signedExponent (some cutExponent) - _ + _ = _
    push_cast
    omega
  have hintegral : Contract.integralJSONNumber (offset n) = some ([1], 18) := by
    simp only [Contract.integralJSONNumber, dropWhile_offset, htrim, List.length_singleton, Nat.cast_one, hexp]
    rfl
  rw [Contract.jsonNumberInt64, hintegral]
  dsimp only
  rw [if_neg (by decide), if_neg (by decide), parseInt64_eq_some]
  have hdigits : digitsValue ([1] ++ List.replicate 18 (0 : Fin 10)) = 10 ^ 18 := by decide
  have hplus : (offset n).negative = false := rfl
  rw [hdigits, hplus]
  decide

theorem value_offset (n : ℕ) : (offset n).value = 10 ^ ((10995116277760 : ℤ) - (n + 1)) := by
  have hdigits : digitsValue ((offset n).whole ++ (offset n).fraction) = 1 := by
    rw [← digitsValue_dropWhile, dropWhile_offset]
    rfl
  have hscale : (offset n).scale = 10995116277760 := by
    change cutExponent.value = _
    decide
  have hlength : (offset n).fraction.length = n + 1 := by simp [offset]
  have hplus : (offset n).negative = false := rfl
  rw [NumberText.value, hplus, NumberText.magnitude, hdigits, hscale, hlength]
  push_cast
  simp

/-- One byte below `2 ^ 40` a text of another number is taken for `10 ^ 18`. -/
theorem int64_misread : (offset (2 ^ 40 - 19)).text.length < 2 ^ 40 ∧
    jsonNumberInt64 (offset (2 ^ 40 - 19)).text = some 1000000000000000000 ∧
    (offset (2 ^ 40 - 19)).value ≠ ((1000000000000000000 : Int64).toInt : ℚ) := by
  have hn : 2 ^ 40 - 19 + 19 = 2 ^ 40 := by norm_num
  generalize 2 ^ 40 - 19 = n at hn ⊢
  refine ⟨?_, ?_, ?_⟩
  · rw [length_offset]
    omega
  · rw [jsonNumberInt64_text]
    exact jsonNumberInt64_offset hn
  · have hint : (1000000000000000000 : Int64).toInt = 10 ^ 18 := by decide
    have hlt : (10 : ℚ) ^ (18 : ℤ) < 10 ^ ((10995116277760 : ℤ) - (n + 1)) :=
      zpow_lt_zpow_right₀ (by norm_num) (by omega)
    rw [value_offset, hint]
    push_cast
    exact hlt.ne'

end JsonInteger

end Onprest.Contract
