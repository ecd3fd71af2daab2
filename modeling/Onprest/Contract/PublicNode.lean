import Onprest.Contract.Compiled
import Onprest.Contract.PublicSchema

/-! The keywords published for one node against the checks of the node. -/

namespace Onprest.Contract
open Lib

theorem wrongType_eq_false {r : Rules} {t : JType} :
    wrongType r t = false ↔ r.types = [] ∨ t ∈ r.types ∨ t = .integer ∧ .number ∈ r.types := by
  unfold wrongType
  simp only [Bool.and_eq_false_iff, decide_eq_false_iff_not, Bool.not_eq_false', List.contains_iff_mem,
    Bool.and_eq_true, decide_eq_true_eq, not_not, or_assoc, ne_eq]

/-- What a declared type says of JSON data. -/
def JType.describes (t : JType) (d : Data) : Bool := t.typeName.any (·.describes d)

section Keywords
variable {r : Rules} {ps : List (String × Schema)} {input : Bool}

variable {t : JType} {d : Data} {q : ℚ} {o : Option Number} {s : String} {n : ℕ}

theorem typeName_isSome (h : t ≠ .file) : t.typeName.isSome := by
  cases t <;> first | rfl | exact absurd rfl h

/-- The published types are the declared ones. -/
theorem typeHolds_public (hfile : .file ∉ r.types) :
    (publicKeywords r ps input).typeHolds d = true ↔ r.types = [] ∨ ∃ t ∈ r.types, t.describes d = true := by
  have hempty : r.types.filterMap JType.typeName = [] ↔ r.types = [] := by
    rw [List.filterMap_eq_nil_iff, List.eq_nil_iff_forall_not_mem]
    refine forall_congr' fun t => ⟨fun h ht => ?_, fun h ht => absurd ht h⟩
    have hsome := typeName_isSome fun heq => hfile (heq ▸ ht)
    rw [h ht] at hsome
    cases hsome
  have hany : (r.types.filterMap JType.typeName).any (·.describes d) = true ↔ ∃ t ∈ r.types,
      t.describes d = true := by
    simp only [List.any_eq_true, List.mem_filterMap, JType.describes, Option.any_eq_true]
    constructor
    · rintro ⟨n, ⟨t, ht, hn⟩, hd⟩
      exact ⟨t, ht, n, hn, hd⟩
    · rintro ⟨t, ht, n, hn, hd⟩
      exact ⟨n, ⟨t, ht, hn⟩, hd⟩
  rw [Keywords.typeHolds, Bool.or_eq_true, List.isEmpty_iff]
  exact or_congr hempty hany

/-- Data that only one type describes. -/
theorem typeHolds_single (hfile : .file ∉ r.types) (ht : ∀ u : JType, u.describes d = true ↔ u = t) :
    (publicKeywords r ps input).typeHolds d = true ↔ r.types = [] ∨ t ∈ r.types := by
  rw [typeHolds_public hfile]
  refine or_congr_right ⟨?_, fun h => ⟨t, h, (ht t).mpr rfl⟩⟩
  rintro ⟨u, hu, hd⟩
  exact (ht u).mp hd ▸ hu

theorem typeHolds_number (hfile : .file ∉ r.types) :
    (publicKeywords r ps input).typeHolds (.leaf q) = true ↔
      r.types = [] ∨ .number ∈ r.types ∨ .integer ∈ r.types ∧ q.den = 1 := by
  rw [typeHolds_public hfile]
  refine or_congr_right ?_
  constructor
  · rintro ⟨t, ht, hd⟩
    cases t with
    | integer => exact .inr ⟨ht, by simpa [JType.describes, JType.typeName, TypeName.describes] using hd⟩
    | number => exact .inl ht
    | _ => simp [JType.describes, JType.typeName, TypeName.describes] at hd
  · rintro (h | ⟨h, hq⟩)
    · exact ⟨.number, h, rfl⟩
    · exact ⟨.integer, h, by simp [JType.describes, JType.typeName, TypeName.describes, hq]⟩

theorem describes_null (u : JType) : u.describes .null = true ↔ u = .null := by cases u <;> decide
theorem describes_bool (b : Bool) (u : JType) : u.describes (.bool b) = true ↔ u = .boolean := by
  cases u <;> simp [JType.describes, JType.typeName, TypeName.describes]
theorem describes_str (s : String) (u : JType) : u.describes (.str s) = true ↔ u = .string := by
  cases u <;> simp [JType.describes, JType.typeName, TypeName.describes]
theorem describes_arr (xs : List Data) (u : JType) : u.describes (.arr xs) = true ↔ u = .array := by
  cases u <;> simp [JType.describes, JType.typeName, TypeName.describes]
theorem describes_obj (fs : List (String × Data)) (u : JType) : u.describes (.obj fs) = true ↔ u = .object := by
  cases u <;> simp [JType.describes, JType.typeName, TypeName.describes]

/-! ### Bounds -/

/-- The number is within the bounds of the node. -/
structure InBounds (r : Rules) (q : ℚ) : Prop where
  minimum : ∀ b ∈ r.minimum, numberRat b ≤ q
  maximum : ∀ b ∈ r.maximum, q ≤ numberRat b
  exclusiveMinimum : ∀ b ∈ r.exclusiveMinimum, numberRat b < q
  exclusiveMaximum : ∀ b ∈ r.exclusiveMaximum, q < numberRat b

theorem outsideBounds_eq_false {k : Number} (hk : k.value = some q) : outsideBounds r k = false ↔ InBounds r q := by
  have hq : numberRat k = q := by rw [numberRat, hk, Option.getD_some]
  have hany (o : Option Number) (P : ℚ → Prop) [DecidablePred P] :
      o.any (fun b => decide (P (numberRat b))) = false ↔ ∀ b ∈ o, ¬ P (numberRat b) := by
    cases o <;> simp
  unfold outsideBounds
  rw [hq]
  simp only [Bool.or_eq_false_iff]
  rw [hany r.minimum (q < ·), hany r.maximum (q > ·), hany r.exclusiveMinimum (q ≤ ·),
    hany r.exclusiveMaximum (q ≥ ·)]
  simp only [not_lt, not_le, gt_iff_lt, ge_iff_le]
  constructor
  · rintro ⟨⟨⟨h₁, h₂⟩, h₃⟩, h₄⟩
    exact ⟨h₁, h₂, h₃, h₄⟩
  · intro h
    exact ⟨⟨⟨h.minimum, h.maximum⟩, h.exclusiveMinimum⟩, h.exclusiveMaximum⟩

/-- The bounds of the node are finite numbers. -/
def FiniteBounds (r : Rules) : Prop :=
  ∀ b, b ∈ r.minimum ∨ b ∈ r.maximum ∨ b ∈ r.exclusiveMinimum ∨ b ∈ r.exclusiveMaximum → b.value = some (numberRat b)

theorem Base.finiteBounds {i a : Option Schema} (h : Base input r ps i a) : FiniteBounds r := by
  intro b hb
  obtain ⟨c, rfl⟩ := h.bounds b hb
  cases c <;> rfl

variable {ecma : PatternNode → String → Bool}

theorem all_bound (ecma : PatternNode → String → Bool) (h : ∀ b ∈ o, b.value = some (numberRat b)) (P : ℚ → Prop)
    [DecidablePred P] :
    ((o.map Leaf.num).bind (vocabulary ecma).value).all (fun b => decide (P b)) = true ↔ ∀ b ∈ o,
      P (numberRat b) := by
  cases o with
  | none => simp
  | some b =>
    have hb : (vocabulary ecma).value (.num b) = some (numberRat b) := h b rfl
    simp [hb]

/-- A tightened bound says what the bound and the given number say. -/
theorem all_tighten (ecma : PatternNode → String → Bool) (c : Int64) (h : ∀ b ∈ o, b.value = some (numberRat b))
    (looser : ℚ → ℚ → Prop) [DecidableRel looser] (P : ℚ → Prop) [DecidablePred P]
    (himp : ∀ x y, looser x y → P y → P x) (himp' : ∀ x y, ¬ looser x y → P x → P y) :
    ((tighten looser c (o.map Leaf.num)).bind (vocabulary ecma).value).all (fun b => decide (P b)) = true ↔
      (∀ b ∈ o, P (numberRat b)) ∧ P c.toInt := by
  have hc : (vocabulary ecma).value (.num (.int64 c)) = some (c.toInt : ℚ) := rfl
  cases o with
  | none => simp [tighten, hc]
  | some b =>
    have hb : (vocabulary ecma).value (.num b) = some (numberRat b) := h b rfl
    rw [Option.map_some, tighten]
    split
    · rename_i hlooser
      simp only [Option.bind_some, hc, Option.all_some, decide_eq_true_eq, Option.mem_some_iff, forall_eq']
      exact ⟨fun hp => ⟨himp _ _ hlooser hp, hp⟩, And.right⟩
    · rename_i hlooser
      simp only [Option.bind_some, hb, Option.all_some, decide_eq_true_eq, Option.mem_some_iff, forall_eq']
      exact ⟨fun hp => ⟨hp, himp' _ _ hlooser hp⟩, And.left⟩

/-- The number is in the range of an `int64`. -/
def InInt64 (q : ℚ) : Prop := (Int64.minValue.toInt : ℚ) ≤ q ∧ q ≤ (Int64.maxValue.toInt : ℚ)

theorem numberHolds_public (hb : FiniteBounds r) :
    (publicKeywords r ps input).numberHolds (vocabulary ecma) q = true ↔
      InBounds r q ∧ (r.integerOnly = true → InInt64 q) := by
  have h₁ := all_bound ecma (fun b h => hb b (.inl h)) (· ≤ q)
  have h₂ := all_bound ecma (fun b h => hb b (.inr (.inl h))) (q ≤ ·)
  have h₃ := all_bound ecma (fun b h => hb b (.inr (.inr (.inl h)))) (· < q)
  have h₄ := all_bound ecma (fun b h => hb b (.inr (.inr (.inr h)))) (q < ·)
  have h₅ := all_tighten ecma Int64.minValue (fun b h => hb b (.inl h)) (· < ·) (· ≤ q)
    (fun _ _ hlt hq => hlt.le.trans hq) fun _ _ hle hq => (not_lt.mp hle).trans hq
  have h₆ := all_tighten ecma Int64.maxValue (fun b h => hb b (.inr (.inl h))) (· > ·) (q ≤ ·)
    (fun _ _ hlt hq => hq.trans (le_of_lt hlt)) fun _ _ hle hq => hq.trans (not_lt.mp hle)
  unfold Keywords.numberHolds publicKeywords raiseMinimum lowerMaximum
  simp only [Bool.and_eq_true]
  by_cases hint : r.integerOnly = true
  · rw [if_pos hint, if_pos hint, h₃, h₄, h₅, h₆]
    constructor
    · rintro ⟨⟨⟨⟨hmin, hlo⟩, hmax, hhi⟩, hemin⟩, hemax⟩
      exact ⟨⟨hmin, hmax, hemin, hemax⟩, fun _ => ⟨hlo, hhi⟩⟩
    · rintro ⟨h, hrange⟩
      exact ⟨⟨⟨⟨h.minimum, (hrange hint).1⟩, h.maximum, (hrange hint).2⟩, h.exclusiveMinimum⟩, h.exclusiveMaximum⟩
  · rw [if_neg hint, if_neg hint, h₁, h₂, h₃, h₄]
    constructor
    · rintro ⟨⟨⟨hmin, hmax⟩, hemin⟩, hemax⟩
      exact ⟨⟨hmin, hmax, hemin, hemax⟩, fun h => absurd h hint⟩
    · rintro ⟨h, -⟩
      exact ⟨⟨⟨h.minimum, h.maximum⟩, h.exclusiveMinimum⟩, h.exclusiveMaximum⟩

/-! ### Lengths -/

theorem stringHolds_public (hpattern : r.pattern = none) :
    (publicKeywords r ps input).stringHolds (vocabulary ecma) s = true ↔
      (∀ lo ∈ r.minLength, lo.toInt ≤ s.length) ∧ ∀ hi ∈ r.maxLength, (s.length : ℤ) ≤ hi.toInt := by
  unfold Keywords.stringHolds publicKeywords
  rw [hpattern]
  cases r.minLength <;> cases r.maxLength <;> simp

theorem reason_eq_none {c : Bool} {e : String} {o : Option String} :
    (if c = true then some e else o) = none ↔ c = false ∧ o = none := by
  cases c <;> simp

theorem any_lt_eq_false {o : Option Int64} : (o.any fun lo => (n : ℤ) < lo.toInt) = false ↔
    ∀ lo ∈ o, lo.toInt ≤ n := by
  cases o <;> simp

theorem any_gt_eq_false {o : Option Int64} :
    (o.any fun hi => (n : ℤ) > hi.toInt) = false ↔ ∀ hi ∈ o, (n : ℤ) ≤ hi.toInt := by
  cases o <;> simp

theorem stringReason_eq_none {lib : Library} (hpattern : r.pattern = none) :
    stringReason lib r s = none ↔ ((∀ lo ∈ r.minLength, lo.toInt ≤ s.length) ∧
      ∀ hi ∈ r.maxLength, (s.length : ℤ) ≤ hi.toInt) ∧ r.format.bind (Format.validate lib s) = none := by
  unfold stringReason
  rw [hpattern, reason_eq_none, reason_eq_none, reason_eq_none, any_lt_eq_false, any_gt_eq_false]
  simp only [Option.any_none, true_and, and_assoc]

theorem arrayHolds_public : (publicKeywords r ps input).arrayHolds n = true ↔ lengthReason r n = none := by
  rw [lengthReason_eq_none]
  unfold Keywords.arrayHolds publicKeywords
  cases r.minItems <;> cases r.maxItems <;> simp

/-! ### Members -/

/-- The required members are there. -/
theorem objectHolds_public {ds : List (String × Data)} :
    (publicKeywords r ps input).objectHolds ds = true ↔
      (.object ∈ r.types → ∀ k ∈ publicRequired r ps input, (Fields.get k ds).isSome) := by
  unfold Keywords.objectHolds publicKeywords
  by_cases hobj : .object ∈ r.types
  · simp [hobj]
  · simp [hobj]

/-- A required member may be left out of an input if it has a default. -/
theorem mem_publicRequired {k : String} : k ∈ publicRequired r ps input ↔
    k ∈ r.required ∧ (input = true → ∀ s, Fields.get k ps = some s → s.rules.default = none) := by
  rw [publicRequired, List.mem_filter]
  refine and_congr_right fun _ => ?_
  cases input <;> cases Fields.get k ps <;> simp

end Keywords

/-! ### The schema of one node -/

section
variable {r : Rules} {ps : List (String × Schema)} {i a : Option Schema} {input : Bool}

theorem publicItems_eq (input : Bool) (i : Option Schema) :
    publicItems input i = i.map (publicSchema input false) := by
  cases i <;> rfl

theorem get_publicProperties (input : Bool) (ps : List (String × Schema)) (k : String) :
    Fields.get k (publicProperties input ps) = (Fields.get k ps).map (publicSchema input false) := by
  induction ps with
  | nil => rfl
  | cons q ps ih =>
    obtain ⟨l, s⟩ := q
    rw [publicProperties]
    by_cases hk : k = l
    · rw [hk, Fields.get_cons_self, Fields.get_cons_self]
      rfl
    · rw [Fields.get_cons_ne hk, Fields.get_cons_ne hk, ih]

/-- The data is valid against the schema published for a position. -/
def PublicValid (ecma : PatternNode → String → Bool) (input : Bool) (s : Schema) (d : Data) : Prop :=
  (publicSchema input false s).valid (vocabulary ecma) d = true

instance (ecma : PatternNode → String → Bool) (input : Bool) (s : Schema) (d : Data) :
    Decidable (PublicValid ecma input s d) := inferInstanceAs (Decidable (_ = _))

variable {ecma : PatternNode → String → Bool}

/-- Where nothing is declared everything is valid. -/
theorem publicValid_free (d : Data) : PublicValid ecma input .free d := by
  have hk : (publicKeywords Schema.free.rules [] input).typeHolds d = true ∧
      (publicKeywords Schema.free.rules [] input).valueHolds (vocabulary ecma) d = true ∧
      (publicKeywords Schema.free.rules [] input).kindHolds (vocabulary ecma) d = true := by
    refine ⟨rfl, rfl, ?_⟩
    cases d <;> rfl
  have hchildren : JSchema.ChildrenValid (vocabulary ecma) none none none d := by
    cases d with
    | arr xs => exact nofun
    | obj fs =>
      intro f hf
      exact ⟨nofun, nofun⟩
    | _ => trivial
  cases input <;> exact JSchema.valid_mk.mpr ⟨hk.1, hk.2.1, hk.2.2, .inl rfl, nofun, hchildren⟩

variable {d : Data}

theorem publicValid_below {o : Option Schema} :
    PublicValid ecma input (below o) d ↔ ∀ s ∈ o, PublicValid ecma input s d := by
  cases o with
  | none => exact iff_of_true (publicValid_free d) nofun
  | some s => simp [below]

/-- What holds of the keywords and children of a node, whatever its rules for values are. -/
structure Shape (r : Rules) (ps : List (String × Schema)) (i a : Option Schema) : Prop where
  noFile : r.file = none
  noFileType : .file ∉ r.types
  distinct : (ps.map Prod.fst).Nodup
  noProperties : r.propertiesSet = false → ps = []
  object_of_properties : ps ≠ [] → .object ∈ r.types
  allowed_of_additional : a.isSome → r.additionalAllowed = true
  object_of_allowed : r.additionalAllowed = true → .object ∈ r.types
  object_of_required : r.required ≠ [] → .object ∈ r.types
  required : ∀ k ∈ r.required, k ∈ ps.map Prod.fst
  array_of_items : i.isSome → .array ∈ r.types
  bounds : FiniteBounds r

theorem Base.shape (base : Base input r ps i a) (enum : Option (List Value)) (const default : Option Value) :
    Shape { r with enum, const, default } ps i a where
  noFile := base.noFile
  noFileType := base.noFileType
  distinct := base.distinct
  noProperties h := by
    by_contra hne
    have := base.set_of_properties hne
    simp_all
  object_of_properties h := base.object_of_set (base.set_of_properties h)
  allowed_of_additional := base.allowed_of_additional
  object_of_allowed := base.object_of_allowed
  object_of_required := base.object_of_required
  required := base.required
  array_of_items := base.array_of_items
  bounds := base.finiteBounds

theorem shape_free : Shape Schema.free.rules [] none none where
  noFile := rfl
  noFileType := nofun
  distinct := List.nodup_nil
  noProperties _ := rfl
  object_of_properties h := absurd rfl h
  allowed_of_additional := nofun
  object_of_allowed := nofun
  object_of_required h := absurd rfl h
  required := nofun
  array_of_items := nofun
  bounds b hb := by simp [Schema.free] at hb

/-- The published children of a node, as they stand beside its keywords. -/
def PublicChildren (ecma : PatternNode → String → Bool) (input : Bool) (r : Rules) (ps : List (String × Schema))
    (i a : Option Schema) (d : Data) : Prop :=
  JSchema.ChildrenValid (vocabulary ecma) (if r.propertiesSet then some (publicProperties input ps) else none)
    (publicItems input i)
    (if r.types.contains .object then some (publicAdditional input r.additionalAllowed a) else none) d

theorem publicChildren_arr {ds : List Data} :
    PublicChildren ecma input r ps i a (.arr ds) ↔ ∀ x ∈ ds, PublicValid ecma input (below i) x := by
  refine forall₂_congr fun x hx => ?_
  rw [publicValid_below, publicItems_eq]
  simp [PublicValid]

theorem publicChildren_obj (shape : Shape r ps i a) {ds : List (String × Data)} :
    PublicChildren ecma input r ps i a (.obj ds) ↔
      (∀ f ∈ ds, PublicValid ecma input (member ps a f.1) f.2) ∧
        (.object ∈ r.types → r.additionalAllowed = false → ∀ f ∈ ds, f.1 ∈ ps.map Prod.fst) := by
  have hproperties (k : String) : Fields.get k
    ((if r.propertiesSet then some (publicProperties input ps) else none).getD
      []) = (Fields.get k ps).map (publicSchema input false) := by
    cases hset : r.propertiesSet with
    | true => exact get_publicProperties input ps k
    | false =>
      rw [shape.noProperties hset]
      rfl
  have hmember (f : String × Data) : ((∀ s ∈ (Fields.get f.1 ps).map (publicSchema input false),
      s.valid (vocabulary ecma) f.2 = true) ∧ ((Fields.get f.1 ps).map (publicSchema input false) = none →
        ∀ s ∈ (if r.types.contains .object then some (publicAdditional input r.additionalAllowed a) else none),
          s.valid (vocabulary ecma) f.2 = true)) ↔
      PublicValid ecma input (member ps a f.1) f.2 ∧
        (.object ∈ r.types → r.additionalAllowed = false → f.1 ∈ ps.map Prod.fst) := by
    cases hget : Fields.get f.1 ps with
    | some s =>
      have hname : f.1 ∈ ps.map Prod.fst := List.mem_map_of_mem (Fields.mem_of_get hget)
      simp [member, hget, hname, PublicValid]
    | none =>
      have hname := Fields.get_eq_none.mp hget
      rw [member_of_not_mem hname]
      simp only [Option.map_none, Option.not_mem_none, false_implies, implies_true, true_and, forall_const, hname,
        imp_false, Bool.not_eq_false]
      by_cases hobj : .object ∈ r.types
      · rw [if_pos (List.contains_iff_mem.mpr hobj)]
        cases a with
        | none => simp [publicAdditional, JSchema.valid, below, publicValid_free, hobj]
        | some t => simp [publicAdditional, below, PublicValid, shape.allowed_of_additional rfl]
      · have ha : a = none := by
          by_contra hne
          exact hobj (shape.object_of_allowed (shape.allowed_of_additional (Option.isSome_iff_ne_none.mpr hne)))
        rw [if_neg (by simpa using hobj), ha]
        simp [below, publicValid_free, hobj]
  unfold PublicChildren JSchema.ChildrenValid
  simp only [hproperties, hmember]
  constructor
  · intro h
    exact ⟨fun f hf => (h f hf).1, fun hobj hallowed f hf => (h f hf).2 hobj hallowed⟩
  · rintro ⟨hvalid, hnames⟩ f hf
    exact ⟨hvalid f hf, fun hobj hallowed => hnames hobj hallowed f hf⟩

/-- What the schema published for an input node asks. -/
theorem publicValid_input (hf : r.file = none) :
    PublicValid ecma true (.mk r ps i a) d ↔ (publicKeywords r ps true).typeHolds d = true ∧
      (publicKeywords r ps true).valueHolds (vocabulary ecma) d = true ∧
      (publicKeywords r ps true).kindHolds (vocabulary ecma) d = true ∧ PublicChildren ecma true r ps i a d := by
  rw [PublicValid, publicSchema, hf]
  simp only [Bool.true_or, if_true, JSchema.valid_mk, true_or, Option.not_mem_none, false_implies,
    implies_true, true_and]
  rfl

end

end Onprest.Contract
