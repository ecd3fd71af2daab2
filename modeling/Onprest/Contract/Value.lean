import Onprest.Lib.FloatText
import Onprest.Contract.Number

/-! Decoded JSON values with the files of a request in them, the data they denote, and their canonical text. -/

namespace Onprest.Contract
open Lib

/-- Validated request-owned metadata of a file: neither payload nor host path. -/
structure FileValue where
  pointer : String
  id : String
  name : String
  mimeType : String
  sha256 : String
  requestID : String
  sizeBytes : Int64
deriving DecidableEq

inductive Leaf
  | num (n : Number)
  | file (f : FileValue)
deriving DecidableEq

/-- A decoded value: `nil`, booleans, strings, numbers, files, arrays and maps. -/
abbrev Value := Json Leaf

@[match_pattern] abbrev Value.num (n : Number) : Value := .leaf (.num n)
@[match_pattern] abbrev Value.file (f : FileValue) : Value := .leaf (.file f)

mutual
/-- Every map of the value has distinct keys. -/
def distinct {α : Type} : Json α → Bool
  | .arr xs => distinctItems xs
  | .obj fs => decide (fs.map Prod.fst).Nodup && distinctFields fs
  | _ => true
def distinctItems {α : Type} : List (Json α) → Bool
  | [] => true
  | x :: xs => distinct x && distinctItems xs
def distinctFields {α : Type} : List (String × Json α) → Bool
  | [] => true
  | (_, x) :: fs => distinct x && distinctFields fs
end

variable {α : Type} {m : Int64}

theorem distinct_arr {xs : List (Json α)} : distinct (.arr xs) = true ↔ ∀ x ∈ xs, distinct x = true := by
  rw [distinct]
  induction xs with
  | nil => simp [distinctItems]
  | cons x xs ih => rw [distinctItems, Bool.and_eq_true, ih, List.forall_mem_cons]

theorem distinct_obj {fs : List (String × Json α)} :
    distinct (.obj fs) = true ↔ (fs.map Prod.fst).Nodup ∧ ∀ f ∈ fs, distinct f.2 = true := by
  have hfields : distinctFields fs = true ↔ ∀ f ∈ fs, distinct f.2 = true := by
    induction fs with
    | nil => simp [distinctFields]
    | cons f fs ih => rw [distinctFields, Bool.and_eq_true, ih, List.forall_mem_cons]
  rw [distinct, Bool.and_eq_true, decide_eq_true_iff, hfields]

/-- JSON data: a number is compared by the value it denotes. -/
abbrev Data := Json ℚ

def Leaf.data : Leaf → Option ℚ
  | .num n => n.value
  | .file _ => none

/-- The data a value denotes; a file or a number that is not finite is no JSON data. -/
def dataOf (v : Value) : Option Data := Json.traverse Leaf.data v

def Leaf.canonical : Leaf → Option NumberText
  | .num n => (canonicalNumber n).toOption
  | .file _ => none

/-- What canonical JSON prints: the members of an object sorted, every number as its text. -/
def canonicalForm (v : Value) : Option (Json NumberText) := Json.traverse Leaf.canonical v

/-- `CanonicalJSON`; all its errors are `none` here. -/
def canonicalJSON (v : Value) : Option (List Char) := (canonicalForm v).map (Json.render false)

def equalJSON (a b : Value) : Bool :=
  match canonicalJSON a, canonicalJSON b with
  | some x, some y => x == y
  | _, _ => false

/-- A text that is printed is that of an `int64` or of a finite `float64`. -/
theorem canonicalNumber_cases {n : Number} {t : NumberText} (h : canonicalNumber n = .ok t) :
    (∃ i : Int64, t = formatInt i) ∨ ∃ q, Binary64.Finite q ∧ t = Float64.formatG q := by
  have hfloat {x : Float64} (hx : canonicalFloat x = .ok t) : ∃ q, Binary64.Finite q ∧ t = Float64.formatG q := by
    unfold canonicalFloat at hx
    split at hx
    · cases hx
    · rename_i q hq
      exact ⟨q, Float64.finite_of_toRat hq, (Except.ok.inj hx).symm⟩
  cases n with
  | int64 i | int i => exact .inl ⟨i, (Except.ok.inj h).symm⟩
  | float x => exact .inr (hfloat h)
  | text u =>
    simp only [canonicalNumber] at h
    split at h
    · exact .inl ⟨_, (Except.ok.inj h).symm⟩
    · split at h
      · cases h
      · split at h
        · cases h
        · exact .inr (hfloat h)

theorem noLeadingZero_canonical {n : Number} {t : NumberText} (h : canonicalNumber n = .ok t) :
    t.noLeadingZero = true := by
  rcases canonicalNumber_cases h with ⟨i, rfl⟩ | ⟨q, hq, rfl⟩
  · exact NumberText.noLeadingZero_ofNat _ _
  · exact Float64.noLeadingZero_formatG hq

theorem canonical_num {a : Leaf} {t : NumberText} (h : a.canonical = some t) :
    ∃ n, a = .num n ∧ canonicalNumber n = .ok t := by
  cases a with
  | file f => cases h
  | num n =>
    refine ⟨n, rfl, ?_⟩
    simp only [Leaf.canonical] at h
    cases hn : canonicalNumber n with
    | error e =>
      rw [hn] at h
      cases h
    | ok u =>
      rw [hn] at h
      exact congrArg Except.ok (Option.some.inj h)

theorem tidy_canonicalForm {v : Value} {f : Json NumberText} (h : canonicalForm v = some f) : f.Tidy := by
  refine Json.forall_leaves_of_traverse (fun a t ha => ?_) h
  obtain ⟨n, -, hn⟩ := canonical_num ha
  exact noLeadingZero_canonical hn

/-- Equal texts are equal canonical forms. -/
theorem equalJSON_iff {a b : Value} :
    equalJSON a b = true ↔ ∃ f, canonicalForm a = some f ∧ canonicalForm b = some f := by
  unfold equalJSON canonicalJSON
  cases ha : canonicalForm a with
  | none => simp
  | some x =>
    cases hb : canonicalForm b with
    | none => simp
    | some y =>
      simp only [Option.map_some, beq_iff_eq, Option.some.injEq]
      constructor
      · intro h
        exact ⟨x, rfl, (Json.render_inj (tidy_canonicalForm ha) (tidy_canonicalForm hb) h).symm⟩
      · rintro ⟨_, rfl, rfl⟩
        rfl

/-! ### When an integer and a float print alike -/

theorem value_formatInt (n : Int64) : (formatInt n).magnitude = n.toInt.natAbs := NumberText.magnitude_ofNat _ _

theorem formatInt_inj {n : Int64} (h : formatInt m = formatInt n) : m = n := by
  obtain ⟨hs, ha⟩ := NumberText.ofNat_inj h
  rw [decide_eq_decide] at hs
  apply Int64.toInt.inj
  omega

/-- Digits laid out with a point stay below the place from which the exponent form is used. -/
theorem value_lt_of_general_plain {b : Bool} {d : Decimal} (h : (NumberText.general b d).exponent = none) :
    d.value < 10 ^ 6 := by
  unfold NumberText.general at h
  dsimp only at h
  split at h
  · cases h
  · rename_i hx
    have hlt : (d.digits : ℚ) < 10 ^ ((decimal d.digits).length : ℤ) := by
      rw [zpow_natCast]
      have := digitsValue_lt (decimal d.digits)
      rw [digitsValue_decimal] at this
      exact_mod_cast this
    calc d.value < 10 ^ ((decimal d.digits).length : ℤ) * 10 ^ d.exp :=
          mul_lt_mul_of_pos_right hlt (Decimal.ten_zpow_pos _)
      _ = 10 ^ ((decimal d.digits).length + d.exp) := (zpow_add₀ (by norm_num) _ _).symm
      _ ≤ 10 ^ (6 : ℤ) := zpow_le_zpow_right₀ (by norm_num) (by omega)
      _ = 10 ^ 6 := by norm_num

/-- A whole number below a million is printed like an integer. -/
theorem general_eq_ofNat (b : Bool) {n : ℕ} (hpos : 0 < n) (h : n < 10 ^ 6) :
    NumberText.general b (Decimal.shortest n) = NumberText.ofNat b n := by
  obtain ⟨hvalue, hexp⟩ := Decimal.shortest_natCast hpos (by omega)
  generalize Decimal.shortest (n : ℚ) = d at *
  have hd : d.digits ≠ 0 := by
    intro h0
    rw [Decimal.value, h0] at hvalue
    have : (n : ℚ) ≠ 0 := by exact_mod_cast hpos.ne'
    simp at hvalue
    exact this hvalue.symm
  obtain ⟨e, he⟩ := Int.eq_ofNat_of_zero_le hexp
  have hlen : (decimal d.digits).length + e ≤ 6 := by
    have hle : 10 ^ ((decimal d.digits).length - 1) ≤ d.digits := by
      rw [length_decimal hd, Nat.add_sub_cancel]
      exact Nat.pow_log_le_self 10 hd
    have hnat : d.digits * 10 ^ e = n := by
      rw [Decimal.value, he, zpow_natCast] at hvalue
      exact_mod_cast hvalue
    have hpow : 10 ^ ((decimal d.digits).length - 1 + e) < 10 ^ 6 := by
      rw [pow_add]
      exact lt_of_le_of_lt (Nat.mul_le_mul_right _ hle) (hnat ▸ h)
    have := (Nat.pow_lt_pow_iff_right (by norm_num : 1 < 10)).mp hpow
    omega
  have hpos' := List.length_pos_iff.mpr (decimal_ne_nil d.digits)
  rw [NumberText.general, if_neg (by omega)]
  exact NumberText.fixed_eq_ofNat b hd hexp hvalue

/-- An `int64` and a `float64` have the same text exactly when they are the same number below a million. -/
theorem formatInt_eq_formatG_iff {q : ℚ} (hq : Binary64.round q = q) :
    formatInt m = Float64.formatG q ↔ q = m.toInt ∧ |q| < 10 ^ 6 := by
  constructor
  · intro h
    by_cases h0 : q = 0
    · subst h0
      rw [Float64.formatG, if_pos rfl] at h
      obtain ⟨-, habs⟩ := NumberText.ofNat_inj h
      have : m.toInt = 0 := Int.natAbs_eq_zero.mp habs
      rw [this]
      norm_num
    · rw [Float64.formatG, if_neg h0] at h
      have hlt := value_lt_of_general_plain (congrArg NumberText.exponent h).symm
      have hmag := congrArg NumberText.magnitude h
      rw [value_formatInt, NumberText.magnitude_general] at hmag
      have hround := Decimal.round_shortest (abs_pos.mpr h0) (Binary64.round_abs hq)
      -- the digits denote a whole number, which rounding does not move
      have hnat : m.toInt.natAbs < 10 ^ 6 := by
        rw [← hmag] at hlt
        exact_mod_cast hlt
      rw [← hmag, Binary64.round_natCast (by omega)] at hround
      have hsign : m.toInt < 0 ↔ q < 0 := by
        have := congrArg NumberText.negative h
        rw [NumberText.negative_general] at this
        exact decide_eq_decide.mp this
      have habs : |q| = |(m.toInt : ℚ)| := by
        rw [← hround, Nat.cast_natAbs, Int.cast_abs]
      refine ⟨?_, by rw [← hround]; exact_mod_cast hnat⟩
      have hsignq : (m.toInt : ℚ) < 0 ↔ q < 0 := by
        rw [← hsign]
        exact_mod_cast Iff.rfl
      rcases abs_eq_abs.mp habs with heq | heq
      · exact heq
      · rcases lt_or_ge q 0 with hneg | hnn
        · have := hsignq.mpr hneg
          linarith
        · have : ¬ (m.toInt : ℚ) < 0 := fun hc => absurd (hsignq.mp hc) (not_lt.mpr hnn)
          linarith
  · rintro ⟨rfl, hlt⟩
    by_cases h0 : m.toInt = 0
    · simp [formatInt, Float64.formatG, h0]
    · have hq0 : (m.toInt : ℚ) ≠ 0 := by exact_mod_cast h0
      have habs : |(m.toInt : ℚ)| = (m.toInt.natAbs : ℕ) := by
        rw [Nat.cast_natAbs, Int.cast_abs]
      rw [habs] at hlt
      rw [Float64.formatG, if_neg hq0, habs,
        general_eq_ofNat _ (Int.natAbs_pos.mpr h0) (by exact_mod_cast hlt), formatInt]
      congr 1
      rw [decide_eq_decide]
      exact_mod_cast Iff.rfl

end Onprest.Contract
