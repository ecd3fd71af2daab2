import Onprest.Contract.PublicNode
import Onprest.Contract.Satisfied

/-! The published schema of an input against the schema that is enforced: on objects with small whole numbers they
accept the same ones, up to the way a large number is written at a position without a type. -/

namespace Onprest.Contract
open Lib

/-! ### Values written unlike the declared ones -/

/-- A value equals a declared one only with a clash. -/
def MisspelledHere (s : Schema) (v : Value) : Prop :=
  (∃ vs ∈ s.rules.enum, (∃ e ∈ vs, SameData v e) ∧ ∀ e ∈ vs, SameData v e → Clash s v e) ∨
    ∃ c ∈ s.rules.const, SameData v c ∧ Clash s v c

/-- At some position the value equals the declared values it equals only with a clash. -/
inductive Misspelled : Schema → Value → Prop
  | here {s : Schema} {v : Value} (h : MisspelledHere s v) : Misspelled s v
  | member {r : Rules} {ps : List (String × Schema)} {i a : Option Schema} {fs : List (String × Value)} {k : String}
    {x : Value} (hx : Fields.get k fs = some x) (h : Misspelled (member ps a k) x) :
    Misspelled (.mk r ps i a) (.obj fs)
  | item {r : Rules} {ps : List (String × Schema)} {i a : Option Schema} {xs : List Value} {x : Value} (hx : x ∈ xs)
    (h : Misspelled (below i) x) : Misspelled (.mk r ps i a) (.arr xs)

section
variable {r : Rules} {ps : List (String × Schema)} {i a : Option Schema}

theorem not_misspelled_arr {xs : List Value} : ¬ Misspelled (.mk r ps i a) (.arr xs) ↔
    ¬ MisspelledHere (.mk r ps i a) (.arr xs) ∧ ∀ x ∈ xs, ¬ Misspelled (below i) x := by
  constructor
  · intro h
    exact ⟨fun hn => h (.here hn), fun x hx hn => h (.item hx hn)⟩
  · rintro ⟨hhere, hitem⟩ h
    cases h with
    | here h => exact hhere h
    | item hx h => exact hitem _ hx h

theorem not_misspelled_obj {fs : List (String × Value)} : ¬ Misspelled (.mk r ps i a) (.obj fs) ↔
    ¬ MisspelledHere (.mk r ps i a) (.obj fs) ∧
      ∀ k x, Fields.get k fs = some x → ¬ Misspelled (Contract.member ps a k) x := by
  constructor
  · intro h
    exact ⟨fun hn => h (.here hn), fun k x hx hn => h (.member hx hn)⟩
  · rintro ⟨hhere, hmember⟩ h
    cases h with
    | here h => exact hhere h
    | member hx h => exact hmember _ _ hx h

end

/-! ### Nodes -/

/-- A node without declared values of its own, which the published keywords describe. -/
structure Undeclared (r : Rules) (ps : List (String × Schema)) (i a : Option Schema) : Prop where
  shape : Shape r ps i a
  noEnum : r.enum = none
  noConst : r.const = none
  noFormat : r.format = none
  noPattern : r.pattern = none
  input : r.output = false
  untyped : r.nullable = true → r.types = []

/-- A node of an input schema without files, formats and patterns, and without defaults below declared values. -/
inductive PlainNode (lib : Library) : Schema → Prop
  | node {r : Rules} {ps : List (String × Schema)} {i a : Option Schema} {enum : Option (List Value)}
    {const default : Option Value} (base : Undeclared r ps i a)
    (letThrough : r.nullable = true → enum = none ∧ const = none)
    (declared : Declared lib r ps i a enum const default)
    (noDefaults : enum.isSome ∨ const.isSome → NoDefaultsBelow (.mk r ps i a)) :
    PlainNode lib (.mk { r with enum, const, default } ps i a)

theorem plainNode_free (lib : Library) : PlainNode lib .free := by
  have hbase : Undeclared Schema.free.rules [] none none :=
    ⟨shape_free, rfl, rfl, rfl, rfl, rfl, fun _ => rfl⟩
  have hdeclared : Declared lib Schema.free.rules [] none none none none none := ⟨nofun, nofun, nofun, nofun⟩
  exact .node hbase (fun _ => ⟨rfl, rfl⟩) hdeclared nofun

variable {v e : Value}

theorem sameData_iff {d : Data} (hv : dataOf v = some d) : SameData v e ↔ Json.traverse Leaf.data e = some d := by
  constructor
  · rintro ⟨u, hu, he⟩
    rw [he, ← hu]
    exact hv
  · intro he
    exact ⟨d, hv, he⟩

theorem Clash.congr (r r' : Rules) (h : r.types = r'.types) {ps : List (String × Schema)} {i a : Option Schema}
    (hc : Clash (.mk r ps i a) v e) : Clash (.mk r' ps i a) v e := by
  cases hc with
  | here hn =>
    refine .here ?_
    rw [ClashNumber, ← h]
    exact hn
  | member hx hy hc => exact .member hx hy hc
  | item hxy hc => exact .item hxy hc

section
variable {lib : Library} {m : Mode} {ecma : PatternNode → String → Bool}

section Declared
variable {r : Rules} {ps : List (String × Schema)} {i a : Option Schema} {enum : Option (List Value)}
  {const default : Option Value} {p : String} {v : Value} {d : Data}

/-- The declared values of a node are published; the difference is how large numbers are written. -/
theorem declared_iff (letThrough : r.nullable = true → enum = none ∧ const = none)
    (hdeclared : ∀ e, (∃ vs ∈ enum, e ∈ vs) ∨ e ∈ const →
      (Alike (read m.defaults (.mk r ps i a) v) e ↔ SameData v e ∧
        ¬ Clash (.mk { r with enum, const, default } ps i a) v e))
    (hv : dataOf v = some d) :
    (v = .null ∧ r.nullable = true ∨
        validateEnumConst { r with enum, const } (read m.defaults (.mk r ps i a) v) = none) ↔
      (publicKeywords { r with enum, const, default } ps true).valueHolds (vocabulary ecma) d = true ∧
        ¬ MisspelledHere (.mk { r with enum, const, default } ps i a) v := by
  have hequal (e : Value) (he : (∃ vs ∈ enum, e ∈ vs) ∨ e ∈ const) :
      equalJSON (read m.defaults (.mk r ps i a) v) e = true ↔
        SameData v e ∧ ¬ Clash (.mk { r with enum, const, default } ps i a) v e :=
    equalJSON_iff_alike.trans (hdeclared e he)
  have hvalue : (publicKeywords { r with enum, const, default } ps true).valueHolds (vocabulary ecma) d = true ↔
      (∀ vs ∈ enum, ∃ e ∈ vs, SameData v e) ∧ ∀ c ∈ const, SameData v c := by
    simp only [sameData_iff hv]
    exact Keywords.valueHolds_iff
  have hnull : v = .null ∧ r.nullable = true →
      validateEnumConst { r with enum, const } (read m.defaults (.mk r ps i a) v) = none := by
    rintro ⟨-, hn⟩
    obtain ⟨rfl, rfl⟩ := letThrough hn
    exact validateEnumConst_of_none rfl rfl _
  rw [or_iff_right_of_imp hnull, validateEnumConst_eq_none, hvalue]
  unfold MisspelledHere
  constructor
  · rintro ⟨henum, hconst⟩
    refine ⟨⟨fun vs hvs => ?_, fun c hc => ((hequal c (.inr hc)).mp (hconst c hc)).1⟩, ?_⟩
    · obtain ⟨e, he, heq⟩ := henum vs hvs
      exact ⟨e, he, ((hequal e (.inl ⟨vs, hvs, he⟩)).mp heq).1⟩
    · rintro (⟨vs, hvs, -, hclash⟩ | ⟨c, hc, -, hclash⟩)
      · obtain ⟨e, he, heq⟩ := henum vs hvs
        have hsame := (hequal e (.inl ⟨vs, hvs, he⟩)).mp heq
        exact hsame.2 (hclash e he hsame.1)
      · exact ((hequal c (.inr hc)).mp (hconst c hc)).2 hclash
  · rintro ⟨⟨henum, hconst⟩, hmis⟩
    rw [not_or] at hmis
    constructor
    · intro vs hvs
      by_contra hnone
      refine hmis.1 ⟨vs, hvs, henum vs hvs, fun e he hsame => ?_⟩
      by_contra hclash
      exact hnone ⟨e, he, (hequal e (.inl ⟨vs, hvs, he⟩)).mpr ⟨hsame, hclash⟩⟩
    · intro c hc
      refine (hequal c (.inr hc)).mpr ⟨hconst c hc, fun hclash => ?_⟩
      exact hmis.2 ⟨c, hc, hconst c hc, hclash⟩

end Declared

/-! ### The other checks of a node -/

theorem Small.inInt64 {q : ℚ} (h : Small q) : InInt64 q := by
  obtain ⟨z, rfl, hz⟩ := h.exists_int
  have hle := abs_le.mp hz
  have hmin : Int64.minValue.toInt ≤ z := by
    have : Int64.minValue.toInt = -2 ^ 63 := rfl
    omega
  have hmax : z ≤ Int64.maxValue.toInt := by
    have : Int64.maxValue.toInt = 2 ^ 63 - 1 := rfl
    omega
  exact ⟨by exact_mod_cast hmin, by exact_mod_cast hmax⟩

section Checks
variable {r : Rules} {ps : List (String × Schema)} {i a : Option Schema} {p : String} {d : Data}

/-- Type, bounds and children of the published node hold. -/
def ChecksHold (ecma : PatternNode → String → Bool) (r : Rules) (ps : List (String × Schema)) (i a : Option Schema)
    (d : Data) : Prop :=
  (publicKeywords r ps true).typeHolds d = true ∧ (publicKeywords r ps true).kindHolds (vocabulary ecma) d = true ∧
    PublicChildren ecma true r ps i a d

theorem checks_null (h : Undeclared r ps i a) :
    Accepts lib m (.mk r ps i a) p .null ↔ ChecksHold ecma r ps i a .null := by
  have htype : (publicKeywords r ps true).typeHolds .null = true ↔ _ :=
    typeHolds_single h.shape.noFileType describes_null
  rw [accepts_null, validateEnumConst_of_none h.noEnum h.noConst, ChecksHold, htype]
  have hrest : (publicKeywords r ps true).kindHolds (vocabulary ecma) .null = true ∧
      PublicChildren ecma true r ps i a .null := ⟨rfl, trivial⟩
  rw [and_iff_left hrest, h.input]
  simp only [true_and, and_true]
  exact or_iff_right_of_imp fun hn => .inl (h.untyped hn)

theorem checks_bool (h : Undeclared r ps i a) (b : Bool) :
    Accepts lib m (.mk r ps i a) p (.bool b) ↔ ChecksHold ecma r ps i a (.bool b) := by
  have htype : (publicKeywords r ps true).typeHolds (.bool b) = true ↔ _ :=
    typeHolds_single h.shape.noFileType (describes_bool b)
  rw [accepts_bool h.shape.noFile, validateEnumConst_of_none h.noEnum h.noConst, ChecksHold, htype,
    wrongType_eq_false]
  have hrest : (publicKeywords r ps true).kindHolds (vocabulary ecma) (.bool b) = true ∧
      PublicChildren ecma true r ps i a (.bool b) := ⟨rfl, trivial⟩
  rw [and_iff_left hrest]
  simp

theorem checks_str (h : Undeclared r ps i a) (x : String) :
    Accepts lib m (.mk r ps i a) p (.str x) ↔ ChecksHold ecma r ps i a (.str x) := by
  have htype : (publicKeywords r ps true).typeHolds (.str x) = true ↔ _ :=
    typeHolds_single h.shape.noFileType (describes_str x)
  have hchildren : PublicChildren ecma true r ps i a (.str x) := trivial
  rw [accepts_str h.shape.noFile, validateEnumConst_of_none h.noEnum h.noConst, ChecksHold, htype,
    wrongType_eq_false, and_iff_left hchildren, Keywords.kindHolds, stringHolds_public h.noPattern,
    stringReason_eq_none h.noPattern, h.noFormat]
  simp

theorem checks_num (h : Undeclared r ps i a) {n : Number} {q : ℚ} (hn : n.value = some q) (hq : Small q) :
    Accepts lib m (.mk r ps i a) p (.num n) ↔ ChecksHold ecma r ps i a (.leaf q) := by
  obtain ⟨k, hk, hkq, -⟩ := normalizeNumber_of_small h.input hn hq
  have hchildren : PublicChildren ecma true r ps i a (.leaf q) := trivial
  rw [accepts_num h.shape.noFile, ChecksHold, and_iff_left hchildren, typeHolds_number h.shape.noFileType,
    Keywords.kindHolds, numberHolds_public h.shape.bounds, and_iff_left fun _ => hq.inInt64]
  have hvalues := validateEnumConst_of_none h.noEnum h.noConst
  constructor
  · rintro ⟨t, k', hk', ht, hb, -⟩
    obtain ⟨rfl, rfl⟩ := Prod.mk.inj (Except.ok.inj (hk.symm.trans hk'))
    refine ⟨?_, (outsideBounds_eq_false hkq).mp hb⟩
    rw [wrongType_eq_false] at ht
    split at ht
    · rename_i hint
      exact .inr (.inr ⟨hint, hq.1⟩)
    · simp only [reduceCtorEq, false_and, or_false] at ht
      exact ht.imp_right .inl
  · rintro ⟨ht, hb⟩
    refine ⟨_, k, hk, wrongType_eq_false.mpr ?_, (outsideBounds_eq_false hkq).mpr hb, hvalues _⟩
    split
    · rename_i hint
      exact .inr (.inl hint)
    · rename_i hint
      simp only [hint, false_and, or_false] at ht
      exact ht.imp_right .inl

theorem checks_arr (h : Undeclared r ps i a) {xs : List Value} {ds : List Data}
    (hall : List.Forall₂ (fun x d => dataOf x = some d) xs ds)
    (hitem : ∀ x ∈ xs, ∀ d, dataOf x = some d → d ∈ ds → ∀ p, Accepts lib m (below i) p x ↔
      PublicValid ecma true (below i) d ∧ ¬ Misspelled (below i) x) :
    Accepts lib m (.mk r ps i a) p (.arr xs) ↔
      ChecksHold ecma r ps i a (.arr ds) ∧ ∀ x ∈ xs, ¬ Misspelled (below i) x := by
  have htype : (publicKeywords r ps true).typeHolds (.arr ds) = true ↔ _ :=
    typeHolds_single h.shape.noFileType (describes_arr ds)
  rw [accepts_arr h.shape.noFile, validateEnumConst_of_none h.noEnum h.noConst, ChecksHold, htype,
    wrongType_eq_false, publicChildren_arr, Keywords.kindHolds, arrayHolds_public, ← hall.length_eq]
  simp only [reduceCtorEq, false_and, or_false, and_true, and_assoc]
  refine and_congr_right' (and_congr_right' ?_)
  constructor
  · intro haccepts
    have hx (x) (hx : x ∈ xs) (d) (hd : dataOf x = some d) (hmem : d ∈ ds) :
        PublicValid ecma true (below i) d ∧ ¬ Misspelled (below i) x := by
      rw [← List.zipIdx_map_fst 0 xs] at hx
      obtain ⟨y, hy, rfl⟩ := List.mem_map.mp hx
      exact (hitem _ (List.fst_mem_of_mem_zipIdx hy) d hd hmem _).mp (haccepts y hy)
    constructor
    · intro d hd
      obtain ⟨x, hxs, hxd⟩ := Json.forall₂_exists_right hall.flip hd
      exact (hx x hxs d hxd hd).1
    · intro x hxs
      obtain ⟨d, hd, hxd⟩ := Json.forall₂_exists_right hall hxs
      exact (hx x hxs d hxd hd).2
  · rintro ⟨hvalid, hspelled⟩ y hy
    have hxs := List.fst_mem_of_mem_zipIdx hy
    obtain ⟨d, hd, hxd⟩ := Json.forall₂_exists_right hall hxs
    exact (hitem _ hxs d hxd hd _).mpr ⟨hvalid d hd, hspelled _ hxs⟩

section Members
variable {fs : List (String × Value)} {ds : List (String × Data)}

/-- The members are those of the data. -/
theorem isSome_get_iff (hget : ∀ k, Fields.get k ds = (Fields.get k fs).bind dataOf)
    (hsome : ∀ x ∈ fs, (dataOf x.2).isSome) (k : String) : (Fields.get k ds).isSome ↔ (Fields.get k fs).isSome := by
  rw [hget]
  cases hx : Fields.get k fs with
  | none => rfl
  | some x => simpa using hsome _ (Fields.mem_of_get hx)

/-- Required members, given that defaults are filled in. -/
theorem required_iff (shape : Shape r ps i a)
    (hpresent : ∀ k, (Fields.get k ds).isSome ↔ (Fields.get k fs).isSome) :
    (∀ q ∈ ps, propertyValue true fs q.1 q.2 = none → q.1 ∉ r.required) ↔
      (.object ∈ r.types → ∀ k ∈ publicRequired r ps true, (Fields.get k ds).isSome) := by
  constructor
  · intro hreq _ k hk
    obtain ⟨hk, hdefault⟩ := mem_publicRequired.mp hk
    obtain ⟨q, hq, rfl⟩ := List.mem_map.mp (shape.required k hk)
    rw [hpresent]
    by_contra hnone
    refine hreq q hq ?_ hk
    rw [propertyValue, Option.not_isSome_iff_eq_none.mp hnone]
    exact hdefault rfl q.2 (Fields.get_of_mem shape.distinct hq)
  · intro hreq q hq hnone hk
    rw [propertyValue, Option.or_eq_none_iff] at hnone
    have hobj := shape.object_of_required (List.ne_nil_of_mem hk)
    have hmem : q.1 ∈ publicRequired r ps true := by
      refine mem_publicRequired.mpr ⟨hk, fun _ s hs => ?_⟩
      rw [Fields.get_of_mem shape.distinct hq] at hs
      cases hs
      exact hnone.2
    have := hreq hobj q.1 hmem
    rw [hpresent, hnone.1] at this
    cases this

theorem unknownProperty_iff (hpresent : ∀ k, (Fields.get k ds).isSome ↔ (Fields.get k fs).isSome) :
    unknownProperty r (ps.map Prod.fst) fs = false ↔
      (.object ∈ r.types → r.additionalAllowed = false → ∀ f ∈ ds, f.1 ∈ ps.map Prod.fst) := by
  have hkeys : (∀ f ∈ fs, f.1 ∈ ps.map Prod.fst) ↔ ∀ f ∈ ds, f.1 ∈ ps.map Prod.fst := by
    constructor
    · intro h f hf
      obtain ⟨x, hx⟩ := Fields.get_isSome.mp ((hpresent f.1).mp (Fields.get_isSome.mpr ⟨f.2, hf⟩))
      exact h _ hx
    · intro h f hf
      obtain ⟨x, hx⟩ := Fields.get_isSome.mp ((hpresent f.1).mpr (Fields.get_isSome.mpr ⟨f.2, hf⟩))
      exact h _ hx
  rw [← hkeys, unknownProperty]
  by_cases hobj : .object ∈ r.types <;> cases hadd : r.additionalAllowed <;> simp [hobj]

/-- With accepted defaults, the members are accepted one by one. -/
theorem members_iff (hps : (ps.map Prod.fst).Nodup) (hfs : (fs.map Prod.fst).Nodup)
    (hdefault : ∀ q ∈ ps, ∀ x ∈ q.2.rules.default, ∀ p, Accepts lib m q.2 p x) :
    (∀ q ∈ ps, ∀ x ∈ propertyValue true fs q.1 q.2, Accepts lib m q.2 (memberPointer p q.1) x) ∧
        (∀ f ∈ otherMembers (ps.map Prod.fst) fs, Accepts lib m (below a) (memberPointer p f.1) f.2) ↔
      ∀ k x, Fields.get k fs = some x → Accepts lib m (member ps a k) (memberPointer p k) x := by
  constructor
  · rintro ⟨hproperties, hothers⟩ k x hx
    rcases member_cases ps a k with hmem | ⟨hk, heq⟩
    · refine hproperties _ hmem x ?_
      rw [propertyValue, hx]
      rfl
    · rw [heq]
      refine hothers (k, x) (List.mem_filter.mpr ⟨Fields.mem_of_get hx, ?_⟩)
      simpa using hk
  · intro h
    constructor
    · intro q hq x hx
      rw [propertyValue] at hx
      cases hget : Fields.get q.1 fs with
      | some y =>
        have hy := h q.1 y hget
        rw [member_of_mem hps hq] at hy
        rw [hget] at hx
        cases hx
        exact hy
      | none =>
        rw [hget] at hx
        exact hdefault q hq x hx _
    · intro f hf
      obtain ⟨hf, hk⟩ := List.mem_filter.mp hf
      have hx := h f.1 f.2 (Fields.get_of_mem hfs hf)
      rw [member_of_not_mem (by simpa using hk)] at hx
      exact hx

theorem checks_obj (h : Undeclared r ps i a) (hm : m.defaults = true)
    (hdefault : ∀ q ∈ ps, ∀ x ∈ q.2.rules.default, ∀ p, Accepts lib m q.2 p x)
    (hfs : (fs.map Prod.fst).Nodup) (hds : (ds.map Prod.fst).Nodup)
    (hget : ∀ k, Fields.get k ds = (Fields.get k fs).bind dataOf) (hsome : ∀ x ∈ fs, (dataOf x.2).isSome)
    (hmember : ∀ k x d, Fields.get k fs = some x → Fields.get k ds = some d → ∀ p,
      Accepts lib m (member ps a k) p x ↔
      PublicValid ecma true (member ps a k) d ∧ ¬ Misspelled (member ps a k) x) :
    Accepts lib m (.mk r ps i a) p (.obj fs) ↔
      ChecksHold ecma r ps i a (.obj ds) ∧ ∀ k x, Fields.get k fs = some x → ¬ Misspelled (member ps a k) x := by
  have htype : (publicKeywords r ps true).typeHolds (.obj ds) = true ↔ _ :=
    typeHolds_single h.shape.noFileType (describes_obj ds)
  have hpresent := isSome_get_iff hget hsome
  have hmembers : (∀ k x, Fields.get k fs = some x → Accepts lib m (member ps a k) (memberPointer p k) x) ↔
      (∀ f ∈ ds, PublicValid ecma true (member ps a f.1) f.2) ∧
        ∀ k x, Fields.get k fs = some x → ¬ Misspelled (member ps a k) x := by
    have hpair (k x) (hx : Fields.get k fs = some x) : ∃ d, Fields.get k ds = some d := by
      have := (hpresent k).mpr (by rw [hx]; rfl)
      exact Option.isSome_iff_exists.mp this
    constructor
    · intro haccepts
      constructor
      · intro f hf
        have hd := Fields.get_of_mem hds hf
        obtain ⟨x, hx⟩ := Option.isSome_iff_exists.mp ((hpresent f.1).mp (by rw [hd]; rfl))
        exact ((hmember _ x _ hx hd _).mp (haccepts _ x hx)).1
      · intro k x hx
        obtain ⟨d, hd⟩ := hpair k x hx
        exact ((hmember k x d hx hd _).mp (haccepts k x hx)).2
    · rintro ⟨hvalid, hspelled⟩ k x hx
      obtain ⟨d, hd⟩ := hpair k x hx
      exact (hmember k x d hx hd _).mpr ⟨hvalid _ (Fields.mem_of_get hd), hspelled k x hx⟩
  rw [accepts_obj h.shape.noFile, validateEnumConst_of_none h.noEnum h.noConst, ChecksHold, htype,
    wrongType_eq_false, publicChildren_obj h.shape, Keywords.kindHolds, objectHolds_public, hm,
    required_iff h.shape hpresent, unknownProperty_iff hpresent]
  simp only [and_true, members_iff h.shape.distinct hfs hdefault, hmembers, reduceCtorEq, false_and, or_false]
  tauto

end Members

end Checks

/-! ### Whole values -/

variable {p : String} {v : Value} {d : Data} {s : Schema}

/-- A node with declared values, from its other checks. -/
theorem node_iff {r : Rules} {ps : List (String × Schema)} {i a : Option Schema} {enum : Option (List Value)}
    {const default : Option Value} {children : Prop} (base : Undeclared r ps i a)
    (letThrough : r.nullable = true → enum = none ∧ const = none)
    (declared : Declared lib r ps i a enum const default)
    (noDefaults : enum.isSome ∨ const.isSome → NoDefaultsBelow (.mk r ps i a))
    (hs : (Schema.mk r ps i a).Everywhere (InputNode lib)) (hv : dataOf v = some d) (hsmall : SmallData d)
    (hchecks : Accepts lib m (.mk r ps i a) p v ↔ ChecksHold ecma r ps i a d ∧ children)
    (hspelled : ¬ Misspelled (.mk { r with enum, const, default } ps i a) v ↔
      ¬ MisspelledHere (.mk { r with enum, const, default } ps i a) v ∧ children) :
    Accepts lib m (.mk { r with enum, const, default } ps i a) p v ↔
      PublicValid ecma true (.mk { r with enum, const, default } ps i a) d ∧
        ¬ Misspelled (.mk { r with enum, const, default } ps i a) v := by
  have hequal (ha : Accepts lib m (.mk r ps i a) p v) (e) (he : (∃ vs ∈ enum, e ∈ vs) ∨ e ∈ const) :
      Alike (read m.defaults (.mk r ps i a) v) e ↔
        SameData v e ∧ ¬ Clash (.mk { r with enum, const, default } ps i a) v e := by
    have hclash : Clash (.mk { r with enum, const, default } ps i a) v e ↔ Clash (.mk r ps i a) v e :=
      ⟨Clash.congr { r with enum, const, default } r rfl, Clash.congr r { r with enum, const, default } rfl⟩
    rw [hclash]
    rcases he with ⟨vs, hvs, he⟩ | hc
    · have hfixed := Keeps.fixed r r rfl rfl hs (declared.member vs hvs e he)
      exact alike_read_iff hs (noDefaults (.inl (Option.isSome_of_mem hvs))) ha hv hsmall hfixed
    · have hs' : (Schema.mk { r with enum } ps i a).Everywhere (InputNode lib) :=
        InputNode.congr r { r with enum } rfl hs
      have hfixed := Keeps.fixed { r with enum } r rfl rfl hs' (declared.constant e hc)
      exact alike_read_iff hs (noDefaults (.inr (Option.isSome_of_mem hc))) ha hv hsmall hfixed
  have hf : ({ r with enum, const, default } : Rules).file = none := base.shape.noFile
  rw [accepts_declared base.shape.noFile base.noEnum base.noConst enum const default, publicValid_input hf, hspelled]
  constructor
  · rintro ⟨ha, hvalue⟩
    obtain ⟨⟨htype, hkind, hchildren⟩, hrest⟩ := hchecks.mp ha
    obtain ⟨hvalue, hhere⟩ := (declared_iff letThrough (hequal ha) hv).mp hvalue
    exact ⟨⟨htype, hvalue, hkind, hchildren⟩, hhere, hrest⟩
  · rintro ⟨⟨htype, hvalue, hkind, hchildren⟩, hhere, hrest⟩
    have ha := hchecks.mpr ⟨⟨htype, hkind, hchildren⟩, hrest⟩
    exact ⟨ha, (declared_iff letThrough (hequal ha) hv).mpr ⟨hvalue, hhere⟩⟩

theorem not_misspelled_scalar (harr : ∀ xs, v ≠ .arr xs) (hobj : ∀ fs, v ≠ .obj fs) :
    ¬ Misspelled s v ↔ ¬ MisspelledHere s v := by
  refine not_congr ⟨fun h => ?_, .here⟩
  cases h with
  | here h => exact h
  | member hx h => exact absurd rfl (hobj _)
  | item hx h => exact absurd rfl (harr _)

/-- A value is accepted exactly when its data is valid and it is written as its declared values are. -/
theorem accepts_iff_valid (hm : m.defaults = true) (hs : s.Everywhere fun t => PlainNode lib t ∧ InputNode lib t)
    (hdistinct : distinct v = true) (hv : dataOf v = some d) (hsmall : SmallData d) :
    Accepts lib m s p v ↔ PublicValid ecma true s d ∧ ¬ Misspelled s v := by
  induction s, v using Schema.induct_member generalizing d p with
  | step r ps i a v hitem hmember =>
    have hinput : (Schema.mk r ps i a).Everywhere (InputNode lib) := hs.imp fun t ht => ht.2
    have hfree : PlainNode lib .free ∧ InputNode lib .free := ⟨plainNode_free lib, inputNode_free lib⟩
    cases hs with
    | mk node properties items additional =>
      obtain ⟨hplain, hnode⟩ := node
      cases hplain with
      | @node r _ _ _ enum const default base letThrough declared noDefaults =>
        have hs' : (Schema.mk r ps i a).Everywhere (InputNode lib) :=
          InputNode.congr { r with enum, const, default } r rfl hinput
        have hscalar (harr : ∀ xs, v ≠ .arr xs) (hobj : ∀ fs, v ≠ .obj fs)
            (h : Accepts lib m (.mk r ps i a) p v ↔ ChecksHold ecma r ps i a d) :
            Accepts lib m (.mk { r with enum, const, default } ps i a) p v ↔
              PublicValid ecma true (.mk { r with enum, const, default } ps i a) d ∧
                ¬ Misspelled (.mk { r with enum, const, default } ps i a) v := by
          refine node_iff base letThrough declared noDefaults hs' hv hsmall
            (h.trans (iff_of_eq (and_true _)).symm) ?_
          exact (not_misspelled_scalar harr hobj).trans (iff_of_eq (and_true _)).symm
        cases v with
        | null =>
          cases hv
          exact hscalar nofun nofun (checks_null base)
        | bool b =>
          cases hv
          exact hscalar nofun nofun (checks_bool base b)
        | str x =>
          cases hv
          exact hscalar nofun nofun (checks_str base x)
        | leaf l =>
          cases l with
          | file x => cases hv
          | num n =>
            obtain ⟨q, hq, rfl⟩ := Option.map_eq_some_iff.mp hv
            exact hscalar nofun nofun (checks_num base hq (hsmall q (List.mem_singleton_self q)))
        | arr xs =>
          obtain ⟨ds, rfl, hall⟩ := Json.traverse_arr.mp hv
          have hchecks := checks_arr (p := p) base hall fun x hx d hd hmem q =>
            hitem xs rfl x hx (everywhere_below hfree items)
            (distinct_arr.mp hdistinct x hx) hd (Json.forall_leaves_arr.mp hsmall d hmem)
          exact node_iff base letThrough declared noDefaults hs' hv hsmall hchecks not_misspelled_arr
        | obj fs =>
          obtain ⟨hsome, ds, rfl, hsorted, hget⟩ := Json.traverse_obj.mp hv
          obtain ⟨hfs, hall⟩ := distinct_obj.mp hdistinct
          have hdefault (q) (hq : q ∈ ps) (x) (hx : x ∈ q.2.rules.default) (p : String) : Accepts lib m q.2 p x :=
            (hnode.regular.defaults q hq x hx).2.2 m p hm
          have hchecks := checks_obj (p := p) base hm hdefault hfs hsorted.nodup hget hsome fun k x d hx hd q => by
            have hmem := Fields.mem_of_get hx
            have hxd : dataOf x = some d := by
              rw [hget, hx] at hd
              exact hd
            have hsmall' := Json.forall_leaves_obj.mp hsmall _ (Fields.mem_of_get hd)
            exact hmember fs rfl k x hmem (everywhere_member hfree properties additional k) (hall _ hmem) hxd hsmall'
          exact node_iff base letThrough declared noDefaults hs' hv hsmall hchecks not_misspelled_obj

/-! ### Inputs -/

/-- A schema without format and pattern, and without defaults below declared values. -/
structure Plain (s : Schema) : Prop where
  noFormat : s.rules.format = none
  noPattern : s.rules.pattern = none
  noDefaults : s.rules.enum.isSome ∨ s.rules.const.isSome → NoDefaultsBelow s

theorem CompiledNode.plainNode (h : CompiledNode lib true s) (hfile : s.rules.file = none) (hplain : Plain s) :
    PlainNode lib s := by
  cases h with
  | file => cases hfile
  | @node r ps i a enum const default base declared =>
    have hbase : Undeclared r ps i a := ⟨base.shape r.enum r.const r.default, base.noEnum,
      base.noConst, hplain.noFormat, hplain.noPattern, base.output,
      fun hn => absurd hn (by simp [base.notNullable rfl])⟩
    exact .node hbase (fun hn => absurd hn (by simp [base.notNullable rfl])) declared hplain.noDefaults

theorem noFile_of_hasFiles (h : s.hasFiles = false) : s.Everywhere fun t => t.rules.file = none := by
  induction s with
  | mk r ps i a hps hi ha =>
    rw [Schema.hasFiles] at h
    simp only [Bool.or_eq_false_iff] at h
    obtain ⟨⟨⟨hfile, hfi⟩, hfa⟩, hfps⟩ := h
    refine .mk (by simpa using hfile) (fun q hq => hps q hq (hasFiles_of_mem hfps q hq)) ?_ ?_
    · rintro s rfl
      exact hi s rfl hfi
    · rintro s rfl
      exact ha s rfl hfa

/-- The nodes of an input schema without files. -/
theorem InputSchema.nodes (hs : InputSchema lib s) (hfiles : s.hasFiles = false) (hplain : s.Everywhere Plain) :
    s.Everywhere fun t => PlainNode lib t ∧ InputNode lib t := by
  have hregular := hs.regular
  obtain ⟨m, t, ht, hst⟩ := hs
  have hcompiled : s.Everywhere (CompiledNode lib true) := by
    rcases hst with rfl | ⟨max, hmax⟩
    · exact compileSchema_eq_ok ht
    · rw [hasFiles_resolve hmax] at hfiles
      rw [resolve_of_hasFiles hfiles hmax]
      exact compileSchema_eq_ok ht
  refine (everywhere_and hcompiled (everywhere_and (noFile_of_hasFiles hfiles) (everywhere_and hplain hregular))).imp
    ?_
  rintro t ⟨hnode, ⟨hfile, ⟨hplain, hregular, -⟩, -⟩, -⟩
  refine ⟨hnode.plainNode hfile hplain, hregular, ?_⟩
  cases hnode with
  | file => rfl
  | node base declared => exact base.output

theorem fileLimitsReason_nil (l : Limits) : fileLimitsReason l [] = none := by
  have hpos (n : Int64) : (decide (n > 0) && decide ((0 : ℤ) > n.toInt)) = false := by
    rw [Bool.and_eq_false_iff, decide_eq_false_iff_not, decide_eq_false_iff_not, gt_iff_lt, Int64.lt_iff_toInt_lt]
    have : (0 : Int64).toInt = 0 := rfl
    omega
  unfold fileLimitsReason fileLimitsReason.total
  simp only [List.length_nil, Nat.cast_zero, hpos, Bool.false_eq_true, if_false]

/-- An object of small whole numbers and a schema without files, formats and patterns, and without defaults below
declared values; the object and what is read of it are within the limits. -/
structure Comparable (s : Schema) (l : Limits) (x : List (String × Value)) (d : Data) : Prop where
  noFiles : s.hasFiles = false
  plain : s.Everywhere Plain
  distinct : Contract.distinct (Json.obj x) = true
  data : dataOf (.obj x) = some d
  small : SmallData d
  limits : checkJSONLimits l (.obj x) = .ok ()
  limits_read : checkJSONLimits l (read true s (.obj x)) = .ok ()

/-- The input of a request is accepted exactly when it is valid against the published schema, unless it is valid and
somewhere equals its declared values only by numbers written in the other way. -/
theorem validateInput_iff_publicValid {s : Schema} {l : Limits} {x : List (String × Value)} {d : Data}
    (hs : InputSchema lib s) (h : Comparable s l x d) :
    ((∃ v, validateInput lib s l x = .ok v) ↔ PublicValid ecma true s d) ↔
      ¬ (PublicValid ecma true s d ∧ Misspelled s (.obj x)) := by
  have haccepts : (∃ v, validateInput lib s l x = .ok v) ↔ Accepts lib l.mode s "" (.obj x) := by
    constructor
    · rintro ⟨v, hv⟩
      exact (validateInput_eq_ok.mp hv).2.1
    · intro ha
      have hleaves := leaves_of_hasFiles (m := l.mode) h.noFiles "" (.obj x)
      refine ⟨(read true s (.obj x), []), validateInput_eq_ok.mpr ?_⟩
      exact ⟨h.limits, ha, rfl, hleaves.symm, fileLimitsReason_nil l, h.limits_read⟩
  have hvalid : Accepts lib l.mode s "" (.obj x) ↔ PublicValid ecma true s d ∧ ¬ Misspelled s (.obj x) :=
    accepts_iff_valid rfl (hs.nodes h.noFiles h.plain) h.distinct h.data h.small
  rw [haccepts, hvalid]
  tauto

end

instance (s : Schema) : Decidable (NoDefaults s) :=
  inferInstanceAs (Decidable (s.Everywhere fun t => t.rules.default = none))

instance (s : Schema) : Decidable (NoDefaultsBelow s) := inferInstanceAs (Decidable (_ ∧ _))

instance (s : Schema) : Decidable (Plain s) :=
  decidable_of_iff (s.rules.format = none ∧ s.rules.pattern = none ∧
    (s.rules.enum.isSome ∨ s.rules.const.isSome → NoDefaultsBelow s)) ⟨fun h => ⟨h.1, h.2.1, h.2.2⟩, fun h =>
      ⟨h.noFormat, h.noPattern, h.noDefaults⟩⟩

/-- An array with declared values. -/
def listRaw : RawMap where
  fields := [("properties", .obj [("a", .obj [("type", .str "array"),
    ("enum", .arr [.arr [.leaf (.int 1000000)]])])])]
  distinct := by decide

/-- `{"a": [1000000]}`. -/
def plainMillion : List (String × Value) := [("a", .arr [Value.num (.int64 1000000)])]

/-- `{"a": [1e6]}`. -/
def scientificMillion : List (String × Value) := [("a", .arr [Value.num (.text millionText)])]

/-- The data of both. -/
def millionData : Data := .obj [("a", .arr [.leaf 1000000])]

instance (s : Schema) (l : Limits) (x : List (String × Value)) (d : Data) : Decidable (Comparable s l x d) :=
  decidable_of_iff (s.hasFiles = false ∧ s.Everywhere Plain ∧ distinct (Json.obj x) = true ∧
    dataOf (.obj x) = some d ∧
    SmallData d ∧ checkJSONLimits l (.obj x) = .ok () ∧ checkJSONLimits l (read true s (.obj x)) = .ok ())
    ⟨fun ⟨h₁, h₂, h₃, h₄, h₅, h₆, h₇⟩ => ⟨h₁, h₂, h₃, h₄, h₅, h₆, h₇⟩,
      fun h => ⟨h.noFiles, h.plain, h.distinct, h.data, h.small, h.limits, h.limits_read⟩⟩

theorem validateInput_iff_publicValid_plain : ∃ s, InputSchema .bare s ∧
    Comparable s smallLimits plainMillion millionData ∧
    (((∃ v, validateInput .bare s smallLimits plainMillion = .ok v) ↔
      PublicValid (fun _ _ => true) true s millionData) ↔
      ¬ (PublicValid (fun _ _ => true) true s millionData ∧ Misspelled s (.obj plainMillion))) := by
  have hex : ∃ s, compileSchema .bare listRaw true true false = .ok s ∧
      Comparable s smallLimits plainMillion millionData := exists_of_compile _ (by decide +kernel)
  obtain ⟨s, hs, h⟩ := hex
  have hinput : InputSchema .bare s := ⟨listRaw, s, hs, .inl rfl⟩
  exact ⟨s, hinput, h, validateInput_iff_publicValid hinput h⟩

/-- `{"a": [1e6]}` is valid where `[1000000]` is the only declared value, and it is not accepted. -/
theorem publicValid_not_accepted : ∃ s, InputSchema .bare s ∧
    Comparable s smallLimits scientificMillion millionData ∧ PublicValid (fun _ _ => true) true s millionData ∧
    ¬ ∃ v, validateInput .bare s smallLimits scientificMillion = .ok v := by
  have hex : ∃ s, compileSchema .bare listRaw true true false = .ok s ∧
      Comparable s smallLimits scientificMillion millionData ∧ PublicValid (fun _ _ => true) true s millionData ∧
      (validateInput .bare s smallLimits scientificMillion).isOk = false := exists_of_compile _ (by decide +kernel)
  obtain ⟨s, hs, h, hvalid, hfails⟩ := hex
  refine ⟨s, ⟨listRaw, s, hs, .inl rfl⟩, h, hvalid, ?_⟩
  rintro ⟨v, hv⟩
  rw [hv] at hfails
  cases hfails

end Onprest.Contract
