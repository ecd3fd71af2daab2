import Onprest.Contract.Reread
import Onprest.Contract.Compile

/-! What compilation guarantees of every node of a schema. -/

namespace Onprest.Contract
open Lib

/-- The rules of a node before its declared values. -/
structure Base (input : Bool) (r : Rules) (ps : List (String × Schema)) (i a : Option Schema) : Prop where
  noFile : r.file = none
  noFileType : .file ∉ r.types
  noEnum : r.enum = none
  noConst : r.const = none
  noDefault : r.default = none
  output : r.output = !input
  distinct : (ps.map Prod.fst).Nodup
  object_of_set : r.propertiesSet = true → .object ∈ r.types
  set_of_properties : ps ≠ [] → r.propertiesSet = true
  object_only : ps ≠ [] → ∀ t ∈ r.types, t = .object ∨ t = .null
  array_of_items : i.isSome → .array ∈ r.types
  array_only : i.isSome → ∀ t ∈ r.types, t = .array ∨ t = .null
  object_of_allowed : r.additionalAllowed = true → .object ∈ r.types
  allowed_of_additional : a.isSome → r.additionalAllowed = true
  object_of_required : r.required ≠ [] → .object ∈ r.types
  required : ∀ k ∈ r.required, k ∈ ps.map Prod.fst
  noFilesOther : input = true → (below a).hasFiles = false
  notNullable : input = true → r.nullable = false
  nullable : input = false → .null ∈ r.types → r.nullable = true
  bounds : ∀ b, b ∈ r.minimum ∨ b ∈ r.maximum ∨ b ∈ r.exclusiveMinimum ∨ b ∈ r.exclusiveMaximum →
    ∃ c : Scalar, b = c.number

/-- A declared value is what a schema keeps of a configuration value. -/
def Keeps (lib : Library) (defaults : Bool) (s : Schema) (w : Value) : Prop :=
  ∃ v : Raw, Accepts lib { defaults } s "" (plain v) ∧ w = read defaults s (plain v)

/-- The declared values of a node. -/
structure Declared (lib : Library) (r : Rules) (ps : List (String × Schema)) (i a : Option Schema)
    (enum : Option (List Value)) (const default : Option Value) : Prop where
  member : ∀ vs ∈ enum, ∀ e ∈ vs, Keeps lib false (.mk r ps i a) e
  constant : ∀ c ∈ const, Keeps lib false (.mk { r with enum } ps i a) c
  filled : ∀ d ∈ default, Keeps lib true (.mk { r with enum, const } ps i a) d ∧
    (Schema.mk r ps i a).hasFiles = false
  typed : enum.isSome ∨ const.isSome → r.types ≠ []

/-- A node as compilation leaves it. -/
inductive CompiledNode (lib : Library) (input : Bool) : Schema → Prop
  | file {description : Option String} {f : FileConstraints} (h : input = true) :
    CompiledNode lib input (.mk { description, types := [.file], file := some f } [] none none)
  | node {r : Rules} {ps : List (String × Schema)} {i a : Option Schema} {enum : Option (List Value)}
    {const default : Option Value} (base : Base input r ps i a)
    (declared : Declared lib r ps i a enum const default) :
    CompiledNode lib input (.mk { r with enum, const, default } ps i a)

/-! ### The steps of compilation -/

variable {lib : Library} {s : Schema} {v : Raw} {m fs : List (String × Raw)} {input passthrough root : Bool}
  {r r' : Rules} {ps : List (String × Schema)} {i a : Option Schema} {t : JType} {types types' : List JType}
  {k : String} {compile : List (String × Raw) → Except String Schema}

theorem settle_eq_ok {defaults : Bool} {w : Value} (h : settle lib defaults s v = .ok w) :
    Keeps lib defaults s w := by
  unfold settle at h
  split at h
  · cases h
  · rename_i x ls hv
    cases h
    obtain ⟨ha, rfl, -⟩ := validate_eq_ok.mp hv
    exact ⟨v, ha, rfl⟩

theorem compileMembers_eq_ok {seen : List (List Char)} {vs : List Raw} {ws : List Value}
    (h : compileMembers lib s seen vs = .ok ws) : ∀ w ∈ ws, Keeps lib false s w := by
  induction vs generalizing seen ws with
  | nil =>
    cases h
    exact nofun
  | cons v vs ih =>
    rw [compileMembers, except_bind_eq_ok] at h
    obtain ⟨w, hw, h⟩ := h
    split at h
    · cases h
    · rw [refuse_bind_eq_ok, except_bind_eq_ok] at h
      obtain ⟨-, ws', hws, h⟩ := h
      cases h
      exact List.forall_mem_cons.mpr ⟨settle_eq_ok (except_mapError_eq_ok.mp hw), ih hws⟩

theorem compileEnum_eq_ok {enum : Option (List Value)} (h : compileEnum lib m s = .ok enum) :
    (∀ vs ∈ enum, ∀ e ∈ vs, Keeps lib false s e) ∧ enum.isSome = has m "enum" := by
  unfold compileEnum at h
  unfold has
  split at h
  · rename_i hget
    cases h
    rw [hget]
    exact ⟨by simp, rfl⟩
  · rename_i v vs hget
    rw [except_bind_eq_ok] at h
    obtain ⟨ws, hws, h⟩ := h
    cases h
    rw [hget]
    refine ⟨?_, rfl⟩
    rintro _ ⟨rfl⟩ e he
    exact compileMembers_eq_ok hws e ((List.mem_insertionSort _).mp he)
  · cases h

theorem compileConst_eq_ok {const : Option Value} (h : compileConst lib m s = .ok const) :
    (∀ c ∈ const, Keeps lib false s c) ∧ const.isSome = has m "const" := by
  unfold compileConst at h
  unfold has
  split at h
  · rename_i hget
    cases h
    rw [hget]
    exact ⟨by simp, rfl⟩
  · rename_i v hget
    obtain ⟨w, hw, rfl⟩ := except_map_eq_ok.mp h
    rw [hget]
    refine ⟨?_, rfl⟩
    rintro _ ⟨rfl⟩
    exact settle_eq_ok hw

theorem compileDefault_eq_ok {default : Option Value} (h : compileDefault lib m input s = .ok default) :
    ∀ d ∈ default, Keeps lib true s d ∧ s.hasFiles = false := by
  unfold compileDefault at h
  split at h
  · cases h
    exact nofun
  · rw [refuse_bind_eq_ok, except_bind_eq_ok] at h
    obtain ⟨hf, w, hw, h⟩ := h
    cases h
    rintro _ ⟨rfl⟩
    exact ⟨settle_eq_ok (except_mapError_eq_ok.mp hw), hf⟩

theorem compileValues_eq_ok (h : compileValues lib m input r ps i a = .ok s) :
    ∃ enum const default, s = .mk { r with enum, const, default } ps i a ∧
      Declared lib r ps i a enum const default := by
  rw [compileValues, refuse_bind_eq_ok, except_bind_eq_ok] at h
  obtain ⟨htyped, enum, he, h⟩ := h
  rw [except_bind_eq_ok] at h
  obtain ⟨const, hc, h⟩ := h
  rw [except_bind_eq_ok] at h
  obtain ⟨default, hd, h⟩ := h
  cases h
  obtain ⟨henum, hhasEnum⟩ := compileEnum_eq_ok he
  obtain ⟨hconst, hhasConst⟩ := compileConst_eq_ok hc
  refine ⟨enum, const, default, rfl, henum, hconst, compileDefault_eq_ok hd, ?_⟩
  rintro hsome htypes
  rw [hhasEnum, hhasConst] at hsome
  rw [htypes] at htyped
  simp only [decide_true, Bool.true_and, Bool.or_eq_false_iff] at htyped
  rcases hsome with h | h
  · rw [htyped.1] at h
    cases h
  · rw [htyped.2] at h
    cases h

@[simp] theorem mem_sortTypes : t ∈ sortTypes types ↔ t ∈ types := by
  cases t <;> simp [sortTypes, JType.all]

theorem rootTypes_eq_ok (h : rootTypes m root types = .ok types') (hfile : .file ∉ types) : .file ∉ types' := by
  unfold rootTypes at h
  split at h
  · rw [refuse_bind_eq_ok, refuse_bind_eq_ok] at h
    obtain ⟨-, -, h⟩ := h
    cases h
    decide
  · cases h
    exact hfile

theorem inferredType_ne_file (h : inferredType m = some t) : t ≠ .file := by
  rintro rfl
  unfold inferredType at h
  split at h
  · cases h
  · split at h <;> cases h

theorem inferredType_ne_null (h : inferredType m = some t) : t ≠ .null := by
  rintro rfl
  unfold inferredType at h
  split at h
  · cases h
  · split at h <;> cases h

/-- Of two types at most, with `null` if there are two, the second is `null`. -/
theorem only_of_length (hne : t ≠ .null) (ht : t ∈ types) (hlen : decide (types.length > 2) = false)
    (hnull : (decide (types.length = 2) && !types.contains .null) = false) : ∀ u ∈ types, u = t ∨ u = .null := by
  match types with
  | [] => cases ht
  | [a] =>
    intro u hu
    exact .inl ((List.mem_singleton.mp hu).trans (List.mem_singleton.mp ht).symm)
  | [a, b] =>
    have hnull : JType.null = a ∨ JType.null = b := by simpa [or_iff_not_imp_left] using hnull
    have ht : t = a ∨ t = b := by simpa using ht
    intro u hu
    have hu : u = a ∨ u = b := by simpa using hu
    rcases hnull with rfl | rfl <;> rcases ht with rfl | rfl <;> tauto
  | _ :: _ :: _ :: _ => simp at hlen

theorem inferTypes_eq_ok (h : inferTypes m types = .ok types') :
    (.file ∉ types → .file ∉ types') ∧
      (has m "properties" → .object ∈ types' ∧ ∀ t ∈ types', t = .object ∨ t = .null) ∧
      (has m "items" → .array ∈ types' ∧ ∀ t ∈ types', t = .array ∨ t = .null) := by
  rw [inferTypes, refuse_bind_eq_ok] at h
  obtain ⟨hexcl, h⟩ := h
  have hinferred : ∀ {t}, inferredType m = some t → (t ∈ types' ∧ ∀ u ∈ types', u = t ∨ u = .null) →
      (has m "properties" → .object ∈ types' ∧ ∀ t ∈ types', t = .object ∨ t = .null) ∧
        (has m "items" → .array ∈ types' ∧ ∀ t ∈ types', t = .array ∨ t = .null) := by
    intro t ht hmem
    unfold inferredType at ht
    constructor
    · intro hp
      rw [hp, Bool.true_and] at hexcl
      rw [hexcl, hp] at ht
      cases ht
      exact hmem
    · intro hi
      rw [hi] at ht
      cases ht
      exact hmem
  cases ht : inferredType m with
  | none =>
    rw [ht] at h
    cases h
    refine ⟨id, ?_, ?_⟩
    · intro hp
      unfold inferredType at ht
      rw [hp] at ht
      split at ht <;> cases ht
    · intro hi
      unfold inferredType at ht
      rw [hi] at ht
      cases ht
  | some t =>
    rw [ht] at h
    dsimp only at h
    split at h
    · cases h
      refine ⟨fun _ hmem => ?_, hinferred ht ⟨List.mem_singleton.mpr rfl,
        fun u hu => .inl (List.mem_singleton.mp hu)⟩⟩
      exact inferredType_ne_file ht (List.mem_singleton.mp hmem).symm
    · rw [refuse_bind_eq_ok] at h
      obtain ⟨hmem, h⟩ := h
      cases h
      simp only [Bool.or_eq_false_iff, Bool.not_eq_false'] at hmem
      have hmember := List.contains_iff_mem.mp hmem.1.1
      exact ⟨id, hinferred ht ⟨hmember, only_of_length (inferredType_ne_null ht) hmember hmem.1.2 hmem.2⟩⟩

theorem compileNullable_eq_ok {nullable : Bool} (h : compileNullable m input types = .ok (nullable, types')) :
    (input = true → nullable = false) ∧ (∀ t ∈ types', t ∈ types) ∧ (∀ t ∈ types, t ≠ .null → t ∈ types') ∧
      (input = false → .null ∈ types' → nullable = true) := by
  unfold compileNullable at h
  split at h
  · rename_i hin
    cases h
    exact ⟨fun _ => rfl, fun _ => id, fun _ ht _ => ht, fun hout => by rw [hin] at hout; cases hout⟩
  · rename_i hin
    rw [except_bind_eq_ok] at h
    obtain ⟨b, -, h⟩ := h
    rw [refuse_bind_eq_ok] at h
    obtain ⟨hcontra, h⟩ := h
    cases h
    refine ⟨fun h => absurd h hin, ?_, ?_, ?_⟩
    · intro t ht
      split at ht
      · exact List.mem_of_mem_filter ht
      · exact ht
    · intro t ht hne
      split
      · exact List.mem_filter.mpr ⟨ht, by simpa using hne⟩
      · exact ht
    · intro _ hnull
      have hmem : .null ∈ types := by
        split at hnull
        · exact List.mem_of_mem_filter hnull
        · exact hnull
      rw [List.contains_iff_mem.mpr hmem] at hcontra
      simpa using hcontra

theorem distinct_of_get (h : distinct (.obj m) = true) (hv : Fields.get k m = some v) : distinct v = true :=
  (distinct_obj.mp h).2 _ (Fields.mem_of_get hv)

theorem compileProperties_eq_ok (h : compileProperties compile fs = .ok ps) :
    ps.map Prod.fst = fs.map Prod.fst ∧ ∀ q ∈ ps, ∃ m, (q.1, Json.obj m) ∈ fs ∧ compile m = .ok q.2 := by
  induction fs generalizing ps with
  | nil =>
    cases h
    exact ⟨rfl, nofun⟩
  | cons f fs ih =>
    obtain ⟨k, v⟩ := f
    rw [compileProperties, except_bind_eq_ok] at h
    obtain ⟨m, hm, h⟩ := h
    rw [except_bind_eq_ok] at h
    obtain ⟨s, hs, h⟩ := h
    rw [except_bind_eq_ok] at h
    obtain ⟨ps', hps, h⟩ := h
    cases h
    obtain ⟨hnames, hall⟩ := ih hps
    unfold object at hm
    split at hm
    · rename_i fs' hv
      cases hv
      cases hm
      refine ⟨by rw [List.map_cons, List.map_cons, hnames], List.forall_mem_cons.mpr ⟨?_, ?_⟩⟩
      · exact ⟨_, List.mem_cons_self, except_mapError_eq_ok.mp hs⟩
      · intro q hq
        obtain ⟨m, hmem, hm⟩ := hall q hq
        exact ⟨m, List.mem_cons_of_mem _ hmem, hm⟩
    · cases hm

theorem object_eq_ok {label : String} {v : Option Raw} (h : object label v = .ok fs) : v = some (.obj fs) := by
  unfold object at h
  split at h
  · rw [Except.ok.inj h]
  · cases h

theorem compilePropertyMap_eq_ok (hm : distinct (.obj m) = true) (h : compilePropertyMap compile m = .ok ps) :
    (ps.map Prod.fst).Nodup ∧ (ps ≠ [] → has m "properties") ∧
      ∀ q ∈ ps, ∃ fs, distinct (.obj fs) = true ∧ compile fs = .ok q.2 := by
  unfold compilePropertyMap at h
  split at h
  · rename_i hhas
    rw [except_bind_eq_ok] at h
    obtain ⟨fs, hfs, h⟩ := h
    obtain ⟨hnames, hall⟩ := compileProperties_eq_ok h
    obtain ⟨hk, hdistinct⟩ := distinct_obj.mp (distinct_of_get hm (object_eq_ok hfs))
    refine ⟨hnames ▸ hk, fun _ => hhas, fun q hq => ?_⟩
    obtain ⟨fs', hmem, hs⟩ := hall q hq
    exact ⟨fs', hdistinct _ hmem, hs⟩
  · cases h
    exact ⟨List.nodup_nil, fun hne => absurd rfl hne, by simp⟩

theorem compileItems_eq_ok (h : compileItems compile m = .ok i) :
    (i.isSome → has m "items") ∧ ∀ s ∈ i, ∃ fs, Fields.get "items" m = some (.obj fs) ∧ compile fs = .ok s := by
  unfold compileItems at h
  split at h
  · rename_i hhas
    rw [except_bind_eq_ok] at h
    obtain ⟨fs, hfs, h⟩ := h
    rw [except_bind_eq_ok] at h
    obtain ⟨s, hs, h⟩ := h
    cases h
    refine ⟨fun _ => hhas, ?_⟩
    rintro _ ⟨rfl⟩
    exact ⟨fs, object_eq_ok hfs, hs⟩
  · cases h
    exact ⟨by simp, by simp⟩

theorem compileRequired_eq_ok {names required : List String} (h : compileRequired m types names = .ok required) :
    (required ≠ [] → .object ∈ types) ∧ ∀ k ∈ required, k ∈ names := by
  unfold compileRequired at h
  split at h
  · rename_i hobj
    rw [except_bind_eq_ok] at h
    obtain ⟨ks, -, h⟩ := h
    rw [refuse_bind_eq_ok] at h
    obtain ⟨hnames, h⟩ := h
    cases h
    refine ⟨fun _ => List.contains_iff_mem.mp (Bool.and_eq_true_iff.mp hobj).1, fun k hk => ?_⟩
    have := List.any_eq_false.mp hnames k ((List.mem_insertionSort _).mp hk)
    simpa using this
  · cases h
    exact ⟨fun hne => absurd rfl hne, by simp⟩

theorem compileAdditional_eq_ok {allowed : Bool}
    (h : compileAdditional compile m types input passthrough = .ok (allowed, a)) :
    (allowed = true → .object ∈ types) ∧ (a.isSome → allowed = true) ∧ (input = true → (below a).hasFiles = false) ∧
      ∀ s ∈ a, ∃ fs, Fields.get "additionalProperties" m = some (.obj fs) ∧ compile fs = .ok s := by
  unfold compileAdditional at h
  split at h
  · rename_i hobj
    have hobj := List.contains_iff_mem.mp hobj
    split at h
    · cases h
      exact ⟨fun _ => hobj, by simp, fun _ => rfl, by simp⟩
    · cases h
      exact ⟨fun _ => hobj, by simp, fun _ => rfl, by simp⟩
    · rename_i fs hget
      rw [except_bind_eq_ok] at h
      obtain ⟨s, hs, h⟩ := h
      rw [refuse_bind_eq_ok] at h
      obtain ⟨hfiles, h⟩ := h
      cases h
      refine ⟨fun _ => hobj, fun _ => rfl, fun hin => ?_, ?_⟩
      · rw [hin, Bool.true_and] at hfiles
        exact hfiles
      · rintro _ ⟨rfl⟩
        exact ⟨fs, hget, hs⟩
    · cases h
  · cases h
    exact ⟨by simp, by simp, fun _ => rfl, by simp⟩

theorem compileBound_eq_ok {b : Option Number} (h : compileBound m types k = .ok b) :
    ∀ n ∈ b, ∃ c : Scalar, n = c.number := by
  unfold compileBound at h
  split at h
  · cases h
    exact nofun
  · rw [refuse_bind_eq_ok] at h
    obtain ⟨-, h⟩ := h
    split at h
    · cases h
      rintro _ ⟨rfl⟩
      exact ⟨_, rfl⟩
    · cases h

theorem compileRanges_eq_ok (h : compileRanges m r = .ok r') :
    ∃ minimum maximum exclusiveMinimum exclusiveMaximum minLength maxLength minItems maxItems,
      r' = { r with
        minimum, maximum, exclusiveMinimum, exclusiveMaximum, minLength, maxLength, minItems, maxItems } ∧
      ∀ b, b ∈ minimum ∨ b ∈ maximum ∨ b ∈ exclusiveMinimum ∨ b ∈ exclusiveMaximum → ∃ c : Scalar, b = c.number := by
  unfold compileRanges at h
  simp only [except_bind_eq_ok] at h
  obtain ⟨mn, hmn, mx, hmx, emn, hemn, emx, hemx, mnl, -, mxl, -, mni, -, mxi, -, -, -, -, -, h⟩ := h
  refine ⟨mn, mx, emn, emx, mnl, mxl, mni, mxi, (Except.ok.inj h).symm, ?_⟩
  rintro b (hb | hb | hb | hb)
  · exact compileBound_eq_ok hmn b hb
  · exact compileBound_eq_ok hmx b hb
  · exact compileBound_eq_ok hemn b hb
  · exact compileBound_eq_ok hemx b hb

theorem compileTexts_eq_ok (h : compileTexts lib m r = .ok r') :
    ∃ pattern format, r' = { r with pattern, format } := by
  rw [compileTexts, except_bind_eq_ok] at h
  obtain ⟨pattern, -, h⟩ := h
  rw [except_bind_eq_ok] at h
  obtain ⟨format, -, h⟩ := h
  exact ⟨pattern, format, (Except.ok.inj h).symm⟩

/-! ### Every node -/

theorem compileNode_eq_ok {description : Option String} {declared : List JType} (hm : distinct (.obj m) = true)
    (hfile : .file ∉ declared)
    (hcompile : ∀ fs t, distinct (.obj fs) = true → compile fs = .ok t → t.Everywhere (CompiledNode lib input))
    (h : compileNode lib compile m input root passthrough description declared = .ok s) :
    s.Everywhere (CompiledNode lib input) := by
  rw [compileNode, except_bind_eq_ok] at h
  obtain ⟨types₁, hroot, h⟩ := h
  rw [except_bind_eq_ok] at h
  obtain ⟨types₂, hinfer, h⟩ := h
  rw [except_bind_eq_ok] at h
  obtain ⟨⟨nullable, types₃⟩, hnullable, h⟩ := h
  rw [except_bind_eq_ok] at h
  obtain ⟨ps, hps, h⟩ := h
  rw [except_bind_eq_ok] at h
  obtain ⟨i, hi, h⟩ := h
  rw [refuse_bind_eq_ok] at h
  obtain ⟨-, h⟩ := h
  rw [except_bind_eq_ok] at h
  obtain ⟨required, hrequired, h⟩ := h
  rw [except_bind_eq_ok] at h
  obtain ⟨⟨allowed, a⟩, hadditional, h⟩ := h
  rw [except_bind_eq_ok] at h
  obtain ⟨r₁, hr₁, h⟩ := h
  rw [except_bind_eq_ok] at h
  obtain ⟨r₂, hr₂, h⟩ := h
  obtain ⟨_, _, _, _, _, _, _, _, rfl, hbounds⟩ := compileRanges_eq_ok hr₁
  obtain ⟨_, _, rfl⟩ := compileTexts_eq_ok hr₂
  obtain ⟨enum, const, default, rfl, hdeclared⟩ := compileValues_eq_ok h
  obtain ⟨hfile₂, hobject, harray⟩ := inferTypes_eq_ok hinfer
  obtain ⟨hnotNullable, hsub, hsup, hnull⟩ := compileNullable_eq_ok hnullable
  obtain ⟨hdistinct, hset, hpsAll⟩ := compilePropertyMap_eq_ok hm hps
  obtain ⟨hitems, hitemsAll⟩ := compileItems_eq_ok hi
  obtain ⟨hreqObject, hreqNames⟩ := compileRequired_eq_ok hrequired
  obtain ⟨hallowed, hsome, hnoFiles, haAll⟩ := compileAdditional_eq_ok hadditional
  refine .mk (.node ?_ hdeclared) ?_ ?_ ?_
  · exact {
      noFile := rfl
      noFileType := fun hmem => hfile₂ (rootTypes_eq_ok hroot hfile) (hsub _ (mem_sortTypes.mp hmem))
      noEnum := rfl
      noConst := rfl
      noDefault := rfl
      output := rfl
      distinct := hdistinct
      object_of_set := fun hp => mem_sortTypes.mpr (hsup _ (hobject hp).1 (by decide))
      set_of_properties := hset
      object_only := fun hp t ht => (hobject (hset hp)).2 t (hsub _ (mem_sortTypes.mp ht))
      array_of_items := fun hs => mem_sortTypes.mpr (hsup _ (harray (hitems hs)).1 (by decide))
      array_only := fun hs t ht => (harray (hitems hs)).2 t (hsub _ (mem_sortTypes.mp ht))
      object_of_allowed := hallowed
      allowed_of_additional := hsome
      object_of_required := hreqObject
      required := hreqNames
      noFilesOther := hnoFiles
      notNullable := hnotNullable
      nullable := fun hin hmem => hnull hin (mem_sortTypes.mp hmem)
      bounds := hbounds }
  · intro q hq
    obtain ⟨fs, hfs, hs⟩ := hpsAll q hq
    exact hcompile fs q.2 hfs hs
  · intro t ht
    obtain ⟨fs, hget, hs⟩ := hitemsAll t ht
    exact hcompile fs t (distinct_of_get hm hget) hs
  · intro t ht
    obtain ⟨fs, hget, hs⟩ := haAll t ht
    exact hcompile fs t (distinct_of_get hm hget) hs

theorem compileSchemaAt_eq_ok {fuel : ℕ} (hm : distinct (.obj m) = true)
    (h : compileSchemaAt lib input passthrough fuel root m = .ok s) : s.Everywhere (CompiledNode lib input) := by
  induction fuel generalizing root m s with
  | zero => cases h
  | succ fuel ih =>
    rw [compileSchemaAt, except_bind_eq_ok] at h
    obtain ⟨-, -, h⟩ := h
    rw [except_bind_eq_ok] at h
    obtain ⟨description, -, h⟩ := h
    rw [except_bind_eq_ok] at h
    obtain ⟨types, -, h⟩ := h
    split at h
    · rename_i hfile
      rw [refuse_bind_eq_ok, except_bind_eq_ok] at h
      obtain ⟨hleaf, f, -, h⟩ := h
      cases h
      simp only [Bool.or_eq_false_iff, Bool.not_eq_false', decide_eq_false_iff_not, not_not] at hleaf
      obtain ⟨⟨rfl, hlen⟩, -⟩ := hleaf
      obtain ⟨t, rfl⟩ := List.length_eq_one_iff.mp hlen
      obtain rfl := List.mem_singleton.mp (List.contains_iff_mem.mp hfile)
      exact .mk (.file rfl) nofun nofun nofun
    · rename_i hfile
      exact compileNode_eq_ok hm (fun hmem => hfile (List.contains_iff_mem.mpr hmem))
        (fun fs t hfs ht => ih hfs ht) h

/-- Every node of a compiled schema is as compilation leaves it. -/
theorem compileSchema_eq_ok {m : RawMap} (h : compileSchema lib m input root passthrough = .ok s) :
    s.Everywhere (CompiledNode lib input) :=
  compileSchemaAt_eq_ok m.distinct h

end Onprest.Contract
