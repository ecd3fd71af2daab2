import Mathlib.Algebra.Order.Field.Rat
import Onprest.Lib.Json

/-! JSON Schema 2020-12: the keywords that constrain a value, and which values they make valid. -/

namespace Onprest.Lib

/-- The names of the `type` keyword. -/
inductive TypeName
  | null | boolean | object | array | number | string | integer
deriving DecidableEq, Repr

/-- A value has the type; a whole number is an integer as well as a number. -/
def TypeName.describes : TypeName → Json ℚ → Bool
  | .null, .null => true
  | .boolean, .bool _ => true
  | .object, .obj _ => true
  | .array, .arr _ => true
  | .string, .str _ => true
  | .number, .leaf _ => true
  | .integer, .leaf q => q.den == 1
  | _, _ => false

/-- The keywords of a schema that hold no schema. Numbers are an `α` and patterns a `π`; every keyword without a
field of its own is an annotation and constrains nothing. -/
structure Keywords (α π : Type) where
  type : List TypeName := []
  enum : Option (List (Json α)) := none
  const : Option (Json α) := none
  minimum : Option α := none
  maximum : Option α := none
  exclusiveMinimum : Option α := none
  exclusiveMaximum : Option α := none
  minLength : Option ℤ := none
  maxLength : Option ℤ := none
  minItems : Option ℤ := none
  maxItems : Option ℤ := none
  pattern : Option π := none
  required : Option (List String) := none
  annotations : List (String × Json α) := []

/-- A schema: a boolean, or an object of keywords. An empty `anyOf` is an absent one. -/
inductive JSchema (α π : Type)
  | bool (b : Bool)
  | mk (keywords : Keywords α π) (properties : Option (List (String × JSchema α π)))
    (items additional : Option (JSchema α π)) (anyOf : List (JSchema α π)) (negated : Option (JSchema α π))

/-- What numbers and patterns mean. -/
structure Vocabulary (α π : Type) where
  value : α → Option ℚ
  isMatch : π → String → Bool

variable {α π : Type}

namespace Keywords
variable (voc : Vocabulary α π) (k : Keywords α π)

def typeHolds (v : Json ℚ) : Bool := k.type.isEmpty || k.type.any (·.describes v)

/-- `enum` and `const` compare values as data. -/
def valueHolds (v : Json ℚ) : Bool :=
  k.enum.all (fun vs => vs.any fun e => decide (Json.traverse voc.value e = some v)) &&
    k.const.all fun c => decide (Json.traverse voc.value c = some v)

def numberHolds (q : ℚ) : Bool :=
  (k.minimum.bind voc.value).all (fun b => decide (b ≤ q)) &&
    (k.maximum.bind voc.value).all (fun b => decide (q ≤ b)) &&
    (k.exclusiveMinimum.bind voc.value).all (fun b => decide (b < q)) &&
    (k.exclusiveMaximum.bind voc.value).all fun b => decide (q < b)

/-- Lengths are counted in code points. -/
def stringHolds (s : String) : Bool :=
  k.minLength.all (fun n => decide (n ≤ (s.length : ℤ))) && k.maxLength.all (fun n => decide ((s.length : ℤ) ≤ n)) &&
    k.pattern.all fun p => voc.isMatch p s

def arrayHolds (n : ℕ) : Bool :=
  k.minItems.all (fun lo => decide (lo ≤ (n : ℤ))) && k.maxItems.all fun hi => decide ((n : ℤ) ≤ hi)

def objectHolds (fs : List (String × Json ℚ)) : Bool :=
  k.required.all fun names => names.all fun name => (Fields.get name fs).isSome

/-- The keywords that apply to the kind of the value. -/
def kindHolds : Json ℚ → Bool
  | .leaf q => k.numberHolds voc q
  | .str s => k.stringHolds voc s
  | .arr xs => k.arrayHolds xs.length
  | .obj fs => k.objectHolds fs
  | _ => true

variable {voc k}

theorem valueHolds_iff {v : Json ℚ} : k.valueHolds voc v = true ↔
    (∀ vs ∈ k.enum, ∃ e ∈ vs, Json.traverse voc.value e = some v) ∧ ∀ c ∈ k.const,
      Json.traverse voc.value c = some v := by
  unfold valueHolds
  rw [Bool.and_eq_true]
  cases k.enum <;> cases k.const <;> simp

end Keywords

namespace JSchema

mutual
/-- The value is valid against the schema. -/
def valid (voc : Vocabulary α π) : JSchema α π → Json ℚ → Bool
  | .bool b, _ => b
  | .mk k ps i a anyOf negated, v =>
    k.typeHolds v && k.valueHolds voc v && k.kindHolds voc v && validAnyOf voc anyOf v &&
      validNegated voc negated v &&
      match v with
      | .arr xs => xs.all fun x => validBelow voc i x
      | .obj fs => fs.all fun f => validProperty voc (validBelow voc a f.2) f ps
      | _ => true
def validBelow (voc : Vocabulary α π) : Option (JSchema α π) → Json ℚ → Bool
  | none, _ => true
  | some s, v => valid voc s v
def validNegated (voc : Vocabulary α π) : Option (JSchema α π) → Json ℚ → Bool
  | none, _ => true
  | some s, v => !valid voc s v
/-- A member is valid against its property, or else as `other` has it. -/
def validProperty (voc : Vocabulary α π) (other : Bool) (f : String × Json ℚ) :
    Option (List (String × JSchema α π)) → Bool
  | none => other
  | some ps => validIn voc other f ps
def validIn (voc : Vocabulary α π) (other : Bool) (f : String × Json ℚ) : List (String × JSchema α π) → Bool
  | [] => other
  | (k, s) :: ps => if f.1 = k then valid voc s f.2 else validIn voc other f ps
def validAnyOf (voc : Vocabulary α π) : List (JSchema α π) → Json ℚ → Bool
  | [], _ => true
  | [s], v => valid voc s v
  | s :: t :: rest, v => valid voc s v || validAnyOf voc (t :: rest) v
end

/-- The elements or members of a value are valid, each against the schema of its place. -/
def ChildrenValid (voc : Vocabulary α π) (ps : Option (List (String × JSchema α π))) (i a : Option (JSchema α π)) :
    Json ℚ → Prop
  | .arr xs => ∀ x ∈ xs, ∀ s ∈ i, valid voc s x = true
  | .obj fs => ∀ f ∈ fs, (∀ s ∈ Fields.get f.1 (ps.getD []), valid voc s f.2 = true) ∧
      (Fields.get f.1 (ps.getD []) = none → ∀ s ∈ a, valid voc s f.2 = true)
  | _ => True

section
variable {voc : Vocabulary α π}

variable {o : Option (JSchema α π)} {v : Json ℚ} {other : Bool} {f : String × Json ℚ}
  {ps : Option (List (String × JSchema α π))}

theorem validBelow_iff : validBelow voc o v = true ↔ ∀ s ∈ o, valid voc s v = true := by
  cases o <;> simp [validBelow]

theorem validNegated_iff : validNegated voc o v = true ↔ ∀ s ∈ o, valid voc s v = false := by
  cases o <;> simp [validNegated]

theorem validAnyOf_iff {ss : List (JSchema α π)} :
    validAnyOf voc ss v = true ↔ ss = [] ∨ ∃ s ∈ ss, valid voc s v = true := by
  induction ss with
  | nil => simp [validAnyOf]
  | cons s ss ih =>
    cases ss with
    | nil => simp [validAnyOf]
    | cons t rest =>
      rw [validAnyOf, Bool.or_eq_true, ih]
      simp

theorem validIn_iff {ps : List (String × JSchema α π)} :
    validIn voc other f ps = true ↔
      (∀ s ∈ Fields.get f.1 ps, valid voc s f.2 = true) ∧ (Fields.get f.1 ps = none → other = true) := by
  induction ps with
  | nil => simp [validIn]
  | cons q ps ih =>
    obtain ⟨k, s⟩ := q
    rw [validIn]
    by_cases hk : f.1 = k
    · rw [if_pos hk, hk, Fields.get_cons_self]
      simp
    · rw [if_neg hk, Fields.get_cons_ne hk, ih]

theorem validProperty_iff :
    validProperty voc other f ps = true ↔
      (∀ s ∈ Fields.get f.1 (ps.getD []), valid voc s f.2 = true) ∧
        (Fields.get f.1 (ps.getD []) = none → other = true) := by
  cases ps with
  | none => simp [validProperty]
  | some ps => exact validIn_iff

/-- What validity asks, keyword by keyword. -/
theorem valid_mk {k : Keywords α π} {i a : Option (JSchema α π)} {anyOf : List (JSchema α π)}
    {negated : Option (JSchema α π)} :
    valid voc (.mk k ps i a anyOf negated) v = true ↔
      k.typeHolds v = true ∧ k.valueHolds voc v = true ∧ k.kindHolds voc v = true ∧
        (anyOf = [] ∨ ∃ s ∈ anyOf, valid voc s v = true) ∧ (∀ s ∈ negated, valid voc s v = false) ∧
        ChildrenValid voc ps i a v := by
  rw [valid.eq_def]
  simp only [Bool.and_eq_true, validAnyOf_iff, validNegated_iff, and_assoc]
  refine and_congr_right' (and_congr_right' (and_congr_right' (and_congr_right' (and_congr_right' ?_))))
  cases v with
  | arr xs => simp only [List.all_eq_true, validBelow_iff, ChildrenValid]
  | obj fs => simp only [List.all_eq_true, validProperty_iff, validBelow_iff, ChildrenValid]
  | _ => exact iff_of_true rfl trivial

end

end JSchema

end Onprest.Lib
