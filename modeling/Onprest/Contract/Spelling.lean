import Onprest.Contract.Compare

/-! Small whole numbers at their positions. Where no type is declared the way a number is written decides how it is
kept, and so how it compares with a declared one. -/

namespace Onprest.Contract
open Lib

/-! ### Small whole numbers -/

/-- A whole number of magnitude at most `2 ^ 53`. -/
def Small (q : ℚ) : Prop := q.den = 1 ∧ |q| ≤ 2 ^ 53

instance (q : ℚ) : Decidable (Small q) := inferInstanceAs (Decidable (_ ∧ _))

variable {q : ℚ} {n : Number} {r : Rules} {s : Schema}

theorem Small.exists_int (h : Small q) : ∃ z : ℤ, q = z ∧ |z| ≤ 2 ^ 53 := by
  have hnum : (q.num : ℚ) = q := Rat.coe_int_num_of_den_eq_one h.1
  refine ⟨q.num, hnum.symm, ?_⟩
  have hle := h.2
  rw [← hnum] at hle
  exact_mod_cast hle

theorem exactInteger_of_small (hn : n.value = some q) (hq : Small q) :
    ∃ i, n.exactInteger = some i ∧ (i.toInt : ℚ) = q := by
  obtain ⟨z, rfl, hz⟩ := hq.exists_int
  have hi := Number.exactInteger_of_value hn hz
  refine ⟨_, hi, ?_⟩
  exact Option.some.inj ((Number.value_exactInteger hi).symm.trans hn)

theorem ofRat_of_small {b : Bool} (hq : Small q) : ∃ x, Float64.ofRat b q = some x ∧ x.toRat = some q := by
  obtain ⟨z, rfl, hz⟩ := hq.exists_int
  have hlt : |(z : ℚ)| < 2 ^ (54 : ℤ) := by
    have : |(z : ℚ)| ≤ 2 ^ 53 := by exact_mod_cast hz
    exact lt_of_le_of_lt this (by norm_num)
  obtain ⟨x, hx⟩ := Float64.exists_ofRat (b := b) hlt (by norm_num)
  refine ⟨x, hx, ?_⟩
  rw [Float64.toRat_ofRat hx, Binary64.round_intCast hz]

theorem finiteNumber_of_small (hn : n.value = some q) (hq : Small q) :
    ∃ x, n.finiteNumber = some x ∧ x.toRat = some q := by
  cases n with
  | int64 i | int i | text t =>
    cases hn
    exact ofRat_of_small hq
  | float x =>
    have hx : x.toRat = some q := hn
    refine ⟨x, ?_, hx⟩
    rw [Number.finiteNumber, hx]
    rfl

theorem parseInt64_of_small {t : JSONNumber} (hplain : t.isPlain = true) (hq : Small t.value) :
    ∃ i, parseInt64 t.negative (digitsValue t.whole) = some i ∧ (i.toInt : ℚ) = t.value := by
  obtain ⟨i, -, hi⟩ := exactInteger_of_small (n := .text t) rfl hq
  refine ⟨i, parseInt64_eq_some.mpr ?_, hi⟩
  rw [NumberText.value, NumberText.magnitude_of_isPlain hplain] at hi
  split at hi
  · rename_i hneg
    rw [if_pos hneg]
    exact_mod_cast hi
  · rename_i hneg
    rw [if_neg hneg]
    exact_mod_cast hi

/-- Without a declared type a small number is kept the way it is written. -/
theorem normalizeFloat_untyped (ht : r.types = []) (hn : n.value = some q) (hq : Small q) :
    ∃ k, normalizeFloat r n = .ok k ∧ k.value = some q ∧ k.isPlain = n.isPlain := by
  obtain ⟨x, hx, hxq⟩ := finiteNumber_of_small hn hq
  unfold normalizeFloat
  simp only [hx, if_pos ht]
  cases n with
  | int64 i | int i => exact ⟨_, rfl, hn, rfl⟩
  | float y => exact ⟨_, rfl, hxq, rfl⟩
  | text t =>
    cases hn
    dsimp only
    by_cases hp : t.isPlain = true
    · obtain ⟨i, hi, hvalue⟩ := parseInt64_of_small hp hq
      rw [if_pos hp, hi]
      exact ⟨_, rfl, congrArg some hvalue, hp.symm⟩
    · rw [if_neg hp]
      exact ⟨_, rfl, hxq, (Bool.not_eq_true _).mp hp |>.symm⟩

/-- What an input position keeps of a small number: an integer where integers are declared, the way it is written
where no type is declared, and a float otherwise. -/
theorem normalizeNumber_of_small (hout : r.output = false) (hn : n.value = some q) (hq : Small q) :
    ∃ k, normalizeNumber r n = .ok (if .integer ∈ r.types then .integer else .number, k) ∧ k.value = some q ∧
      (.integer ∈ r.types → k.isPlain = true) ∧ (r.types = [] → k.isPlain = n.isPlain) ∧
      (.integer ∉ r.types → r.types ≠ [] → k.isPlain = false) := by
  by_cases hint : .integer ∈ r.types
  · obtain ⟨i, hi, hiq⟩ := exactInteger_of_small hn hq
    refine ⟨.int64 i, ?_, congrArg some hiq, fun _ => rfl, fun h => ?_, fun h => absurd hint h⟩
    · rw [if_pos hint]
      exact normalizeNumber_eq_ok.mpr (.inl ⟨hint, i, hi, rfl, rfl⟩)
    · rw [h] at hint
      cases hint
  · rw [if_neg hint]
    by_cases ht : r.types = []
    · obtain ⟨k, hk, hkq, hplain⟩ := normalizeFloat_untyped ht hn hq
      refine ⟨k, ?_, hkq, fun h => absurd h hint, fun _ => hplain, fun _ h => absurd ht h⟩
      exact normalizeNumber_eq_ok.mpr (.inr ⟨fun h => absurd h hint, rfl, hk⟩)
    · obtain ⟨x, hx, hxq⟩ := finiteNumber_of_small hn hq
      refine ⟨.float x, ?_, hxq, fun h => absurd h hint, fun h => absurd h ht, fun _ _ => rfl⟩
      refine normalizeNumber_eq_ok.mpr (.inr ⟨fun h => absurd h hint, rfl, ?_⟩)
      unfold normalizeFloat
      simp only [hx, if_neg ht, hout]
      rfl

/-! ### Numbers written in two ways -/

/-- A number that its position keeps as it is. -/
def Fixed (r : Rules) (n : Number) : Prop :=
  r.output = false ∧ ∃ t, normalizeNumber r n = .ok (t, n) ∧ wrongType r t = false

/-- A position that takes integers does not leave a small whole number as a float. -/
theorem Fixed.isPlain_of_small (h : Fixed r n) (hint : .integer ∈ r.types) (hn : n.value = some q) (hq : Small q) :
    n.isPlain = true := by
  obtain ⟨hout, t, hk, -⟩ := h
  obtain ⟨k, hk', -, hplain, -⟩ := normalizeNumber_of_small hout hn hq
  rw [hk] at hk'
  rw [(Prod.mk.inj (Except.ok.inj hk')).2]
  exact hplain hint

theorem Fixed.kept (h : Fixed r n) : Kept r n := by
  obtain ⟨-, t, hn, ht⟩ := h
  exact kept_of_normalizeNumber hn ht

/-- Two numbers are the same large one, written in different ways at a position without a type. -/
def ClashNumber (r : Rules) (n k : Number) : Prop :=
  r.types = [] ∧ n.value = k.value ∧ Large n ∧ n.isPlain ≠ k.isPlain

/-- A small number as its position keeps it prints like a number kept there exactly when they are the same number and
do not clash. -/
theorem alike_readNumber {k k' : Number} {t : JType} (hn : n.value = some q) (hq : Small q)
    (hk : normalizeNumber r n = .ok (t, k)) (ht : wrongType r t = false) (hk' : Fixed r k') :
    Alike (.num k) (.num k') ↔ SameData (.num n) (.num k') ∧ ¬ ClashNumber r n k' := by
  obtain ⟨k₁, hk₁, hvalue, hint, huntyped, hfloat⟩ := normalizeNumber_of_small hk'.1 hn hq
  obtain rfl := (Prod.mk.inj (Except.ok.inj (hk.symm.trans hk₁))).2
  have hdata : SameData (.num n) (.num k') ↔ SameData (.num k) (.num k') := by
    rw [SameData, SameData, Json.same_iff, Json.same_iff]
    simp only [Json.traverse, Leaf.data, hn, hvalue]
  have hlarge : Large k ↔ Large n := by rw [Large, Large, hn, hvalue]
  rw [hdata, alike_num_iff (kept_of_normalizeNumber hk ht) hk'.kept]
  refine and_congr_right fun hsame => not_congr ?_
  have hk'q : k'.value = some q := by
    rw [SameData, Json.same_iff] at hsame
    simpa [Json.traverse, Leaf.data, hvalue, eq_comm] using hsame.2
  constructor
  · rintro ⟨hl, hne⟩
    have htypes : r.types = [] := by
      by_contra htypes
      by_cases hinteger : .integer ∈ r.types
      · exact hne ((hint hinteger).trans (hk'.isPlain_of_small hinteger hk'q hq).symm)
      · rcases mixed_of_isPlain_ne (kept_of_normalizeNumber hk ht) hk'.kept hne with h | ⟨-, h | h⟩
        · exact htypes h
        · exact hinteger h
        · rw [hk'.1] at h
          cases h
    exact ⟨htypes, hn.trans hk'q.symm, hlarge.mp hl, huntyped htypes ▸ hne⟩
  · rintro ⟨htypes, -, hl, hne⟩
    exact ⟨hlarge.mpr hl, (huntyped htypes).symm ▸ hne⟩

/-- Two values hold the same large number at the same position without a type, written in different ways. -/
inductive Clash : Schema → Value → Value → Prop
  | here {r : Rules} {ps : List (String × Schema)} {i a : Option Schema} {n k : Number} (h : ClashNumber r n k) :
    Clash (.mk r ps i a) (.num n) (.num k)
  | member {r : Rules} {ps : List (String × Schema)} {i a : Option Schema}
      {fs gs : List (String × Value)} {k : String}
    {x y : Value} (hx : Fields.get k fs = some x) (hy : Fields.get k gs = some y) (h : Clash (member ps a k) x y) :
    Clash (.mk r ps i a) (.obj fs) (.obj gs)
  | item {r : Rules} {ps : List (String × Schema)} {i a : Option Schema} {xs ys : List Value} {x y : Value}
    (hxy : (x, y) ∈ xs.zip ys) (h : Clash (below i) x y) : Clash (.mk r ps i a) (.arr xs) (.arr ys)

/-! ### Small values -/

/-- JSON data whose numbers are all small whole ones. -/
def SmallData (d : Data) : Prop := ∀ q ∈ d.leaves, Small q

instance (d : Data) : Decidable (SmallData d) := inferInstanceAs (Decidable (∀ q ∈ d.leaves, Small q))

/-- No schema of this one has a default. -/
def NoDefaults (s : Schema) : Prop := s.Everywhere fun t => t.rules.default = none

/-- No schema below this one has a default. -/
def NoDefaultsBelow (s : Schema) : Prop :=
  (∀ q ∈ s.properties, NoDefaults q.2) ∧ (∀ t ∈ s.items, NoDefaults t) ∧ ∀ t ∈ s.additional, NoDefaults t

theorem NoDefaults.below (h : NoDefaults s) : NoDefaultsBelow s := by
  cases h with
  | mk node properties items additional => exact ⟨properties, items, additional⟩

theorem noDefaults_free : NoDefaults .free := .mk rfl nofun nofun nofun

theorem noDefaults_below {o : Option Schema} (h : ∀ t ∈ o, NoDefaults t) : NoDefaults (Contract.below o) := by
  cases o with
  | none => exact noDefaults_free
  | some t => exact h t rfl

theorem propertyValue_of_noDefault (h : s.rules.default = none) (defaults : Bool) (fs : List (String × Value))
    (k : String) : propertyValue defaults fs k s = Fields.get k fs := by
  rw [propertyValue, h]
  cases defaults <;> exact Option.or_none

/-! ### Members and elements -/

section Member
variable {ps : List (String × Schema)} {i a : Option Schema}

theorem noDefaults_member (h : NoDefaultsBelow (.mk r ps i a)) (k : String) : NoDefaults (member ps a k) := by
  exact everywhere_member (P := fun t => t.rules.default = none) rfl h.1 h.2.2 k

/-- The members of an object as it is read, where no property has a default. -/
theorem MembersRead.get_of_noDefaults {defaults : Bool} {fs gs : List (String × Value)}
    (h : MembersRead defaults ps a fs gs) (hps : (ps.map Prod.fst).Nodup)
    (hd : ∀ q ∈ ps, NoDefaults q.2) (k : String) :
    Fields.get k gs = (Fields.get k fs).map (read defaults (member ps a k)) := by
  by_cases hk : k ∈ ps.map Prod.fst
  · obtain ⟨q, hq, rfl⟩ := List.mem_map.mp hk
    rw [h.property q hq, propertyValue_of_noDefault (hd q hq).here, member_of_mem hps hq]
  · rw [h.other k hk, member_of_not_mem hk]

end Member

/-! ### Small values as they are read -/

/-- A node of an input schema. -/
structure InputNode (lib : Library) (s : Schema) : Prop where
  regular : Regular lib s
  input : s.rules.output = false

theorem inputNode_free (lib : Library) : InputNode lib .free := ⟨regular_free lib, rfl⟩

section
variable {lib : Library} {m : Mode}

variable {s : Schema} {v : Value} {d : Data} {fs : List (String × Value)}

/-- Reading a value with small numbers does not change its data, where no default is filled in. -/
theorem dataOf_read (hs : s.Everywhere (InputNode lib)) (hd : NoDefaultsBelow s) (hv : dataOf v = some d)
    (hsmall : SmallData d) (defaults : Bool) : dataOf (read defaults s v) = some d := by
  induction s, v using Schema.induct_member generalizing d with
  | step r ps i a v hitem hmember =>
    cases hs with
    | mk node properties items additional =>
      cases v with
      | leaf l =>
        cases l with
        | file x => cases hv
        | num n =>
          obtain ⟨q, hq, rfl⟩ := Option.map_eq_some_iff.mp hv
          have hq' : Small q := hsmall q List.mem_cons_self
          obtain ⟨k, hk, hkq, -⟩ := normalizeNumber_of_small node.input (n := n) hq hq'
          rw [read, readNumber]
          simp only [Schema.rules_mk] at hk
          rw [hk]
          exact Option.map_eq_some_iff.mpr ⟨q, hkq, rfl⟩
      | arr xs =>
        obtain ⟨ds, rfl, hall⟩ := Json.traverse_arr.mp hv
        rw [read_arr]
        refine Json.traverse_arr.mpr ⟨ds, rfl, List.forall₂_map_left_iff.mpr (Json.forall₂_congr_mem ?_ hall)⟩
        intro x hx y hy hxy
        exact hitem xs rfl x hx (everywhere_below (inputNode_free lib) items) (noDefaults_below hd.2.1).below hxy
          (Json.forall_leaves_arr.mp hsmall y hy)
      | obj fs =>
        obtain ⟨hsome, ds, rfl, hsorted, hget⟩ := Json.traverse_obj.mp hv
        obtain ⟨gs, hread, hgs⟩ := membersRead defaults ps node.regular.distinct r i a fs
        have hkeep (k : String) : (Fields.get k gs).bind dataOf = (Fields.get k fs).bind dataOf := by
          rw [hgs.get_of_noDefaults node.regular.distinct hd.1]
          cases hx : Fields.get k fs with
          | none => rfl
          | some x =>
            have hdx := hget k
            rw [hx] at hdx
            obtain ⟨y, hy⟩ := Option.isSome_iff_exists.mp (hsome _ (Fields.mem_of_get hx))
            refine (hmember fs rfl k x (Fields.mem_of_get hx)
              (everywhere_member (inputNode_free lib) properties additional k) (noDefaults_member hd k).below
                hy ?_).trans hy.symm
            exact Json.forall_leaves_obj.mp hsmall _ (Fields.mem_of_get (hdx.trans hy))
        rw [hread]
        refine Json.traverse_obj.mpr ⟨fun g hg => ?_, ds, rfl, hsorted, fun k => (hget k).trans (hkeep k).symm⟩
        have hg' := Fields.get_of_mem hgs.sorted.nodup hg
        obtain ⟨x, hx, -⟩ := Option.map_eq_some_iff.mp
          ((hgs.get_of_noDefaults node.regular.distinct hd.1 g.1).symm.trans hg')
        have hdata := hkeep g.1
        rw [hg', hx] at hdata
        exact (congrArg Option.isSome hdata).trans (hsome _ (Fields.mem_of_get hx))
      | _ => exact hv

theorem everyNumber_of_get {P : Rules → Number → Prop} {ps : List (String × Schema)} {i a : Option Schema}
    (h : EveryNumber P (.mk r ps i a) (.obj fs)) {k : String} {x : Value} (hx : Fields.get k fs = some x) :
    EveryNumber P (member ps a k) x := by
  have hall := everyNumber_obj.mp h _ (Fields.mem_of_get hx)
  rcases member_cases ps a k with hmem | ⟨hk, heq⟩
  · exact hall.1 _ hmem rfl
  · rw [heq]
    exact hall.2 hk

/-- Elements are compared one by one. -/
theorem alike_arr_iff {f : Value → Value} {C : Value → Value → Prop} {xs ys : List Value}
    (h : ∀ x ∈ xs, ∀ y ∈ ys, Alike (f x) y ↔ SameData x y ∧ ¬ C x y) :
    Alike (.arr (xs.map f)) (.arr ys) ↔ SameData (.arr xs) (.arr ys) ∧ ∀ x y, (x, y) ∈ xs.zip ys → ¬ C x y := by
  rw [Alike, SameData, Json.same_arr, Json.same_arr, List.forall₂_map_left_iff, List.forall₂_iff_zip,
    List.forall₂_iff_zip, and_assoc]
  refine and_congr_right fun _ => ?_
  have hzip {x y : Value} (hxy : (x, y) ∈ xs.zip ys) := h x (List.of_mem_zip hxy).1 y (List.of_mem_zip hxy).2
  constructor
  · intro hall
    exact ⟨fun hxy => ((hzip hxy).mp (hall hxy)).1, fun x y hxy => ((hzip hxy).mp (hall hxy)).2⟩
  · rintro ⟨hsame, hclash⟩ x y hxy
    exact (hzip hxy).mpr ⟨hsame hxy, hclash x y hxy⟩

/-- Members are compared one by one. -/
theorem alike_obj_iff {f : String → Value → Value} {C : String → Value → Value → Prop}
    {gs hs : List (String × Value)}
    (hget : ∀ k, Fields.get k gs = (Fields.get k fs).map (f k)) (hgs : ∀ x ∈ gs, Alike x.2 x.2)
    (hfs : ∀ x ∈ fs, SameData x.2 x.2) (hhs : ∀ y ∈ hs, Alike y.2 y.2 ↔ SameData y.2 y.2)
    (h : ∀ k x y, Fields.get k fs = some x → Fields.get k hs = some y →
      (Alike (f k x) y ↔ SameData x y ∧ ¬ C k x y)) :
    Alike (.obj gs) (.obj hs) ↔ SameData (.obj fs) (.obj hs) ∧
      ∀ k x y, Fields.get k fs = some x → Fields.get k hs = some y → ¬ C k x y := by
  have hmember (k : String) : Option.Rel Alike (Fields.get k gs) (Fields.get k hs) ↔
      Option.Rel SameData (Fields.get k fs) (Fields.get k hs) ∧
        ∀ x y, Fields.get k fs = some x → Fields.get k hs = some y → ¬ C k x y := by
    have hk := h k
    rw [hget]
    generalize Fields.get k fs = o at hk ⊢
    generalize Fields.get k hs = o' at hk ⊢
    cases o with
    | none =>
      cases o' with
      | none => exact iff_of_true .none ⟨.none, nofun⟩
      | some y => exact iff_of_false nofun nofun
    | some x =>
      cases o' with
      | none => exact iff_of_false nofun nofun
      | some y =>
        have hk := hk x y rfl rfl
        constructor
        · intro hrel
          cases hrel with
          | some hxy =>
            refine ⟨.some (hk.mp hxy).1, ?_⟩
            rintro _ _ ⟨rfl⟩ ⟨rfl⟩
            exact (hk.mp hxy).2
        · rintro ⟨hrel, hclash⟩
          cases hrel with
          | some hxy => exact .some (hk.mpr ⟨hxy, hclash x y rfl rfl⟩)
  rw [Alike, SameData, Json.same_obj, Json.same_obj]
  constructor
  · rintro ⟨-, hself, hrel⟩
    exact ⟨⟨hfs, fun y hy => (hhs y hy).mp (hself y hy), fun k => ((hmember k).mp (hrel k)).1⟩,
      fun k => ((hmember k).mp (hrel k)).2⟩
  · rintro ⟨⟨-, hself, hrel⟩, hclash⟩
    exact ⟨hgs, fun y hy => (hhs y hy).mpr (hself y hy), fun k => (hmember k).mpr ⟨hrel k, hclash k⟩⟩

theorem shape_read (defaults : Bool) (s : Schema) (v : Value) : Json.shape (read defaults s v) = Json.shape v := by
  cases s with
  | mk r ps i a =>
    cases v with
    | leaf l => cases l <;> rfl
    | _ => rfl

/-- A small value as it is read prints like a kept value exactly when they are the same data and do not clash. -/
theorem alike_read_iff {e : Value} {p : String} (hs : s.Everywhere (InputNode lib)) (hd : NoDefaultsBelow s)
    (ha : Accepts lib m s p v) (hv : dataOf v = some d) (hsmall : SmallData d) (he : EveryNumber Fixed s e) :
    Alike (read m.defaults s v) e ↔ SameData v e ∧ ¬ Clash s v e := by
  induction s, v using Schema.induct_member generalizing d e p with
  | step r ps i a v hitem hmember =>
    have hself : Alike (read m.defaults (.mk r ps i a) v) (read m.defaults (.mk r ps i a) v) := by
      have hregular : (Schema.mk r ps i a).Everywhere (Regular lib) := hs.imp fun t ht => ht.regular
      refine (alike_self (everyNumber_read hregular ha)).mpr ?_
      exact ⟨d, dataOf_read hs hd hv hsmall m.defaults, dataOf_read hs hd hv hsmall m.defaults⟩
    by_cases hshape : Json.shape v = Json.shape e
    · cases v <;> cases e <;> cases hshape
      · exact iff_of_true ⟨_, rfl, rfl⟩ ⟨⟨_, rfl, rfl⟩, by rintro ⟨⟩⟩
      · exact iff_of_true ⟨_, rfl, rfl⟩ ⟨⟨_, rfl, rfl⟩, by rintro ⟨⟩⟩
      · exact iff_of_true ⟨_, rfl, rfl⟩ ⟨⟨_, rfl, rfl⟩, by rintro ⟨⟩⟩
      · rename_i l l'
        cases l with
        | file x => cases hv
        | num n =>
          cases l' with
          | file y =>
            refine iff_of_false ?_ ?_
            · rintro ⟨u, -, hu⟩
              cases hu
            · rintro ⟨⟨u, -, hu⟩, -⟩
              cases hu
          | num k =>
            obtain ⟨q, hq, rfl⟩ := Option.map_eq_some_iff.mp hv
            obtain ⟨t, k', hk', ht, -⟩ := (accepts_num (file_eq_none ha (by simp) (by simp))).mp ha
            rw [read, readNumber, hk']
            refine (alike_readNumber hq (hsmall q List.mem_cons_self) hk' ht (everyNumber_num.mp he)).trans ?_
            refine and_congr_right' (not_congr ⟨.here, ?_⟩)
            rintro (h | _ | _)
            exact h
      · rename_i xs ys
        obtain ⟨ds, rfl, hall⟩ := Json.traverse_arr.mp hv
        rw [read_arr, alike_arr_iff (C := Clash (below i))]
        · refine and_congr_right' ⟨?_, fun h x y hxy hc => h (.item hxy hc)⟩
          rintro h (_ | _ | ⟨hxy, hc⟩)
          exact h _ _ hxy hc
        · intro x hx y hy
          obtain ⟨n, hax⟩ := accepts_item (file_eq_none ha (by simp) (by simp)) ha hx
          obtain ⟨dx, hdx, hxd⟩ := Json.forall₂_exists_right hall hx
          cases hs with
          | mk node properties items additional =>
            exact hitem xs rfl x hx (everywhere_below (inputNode_free lib) items)
              (noDefaults_below hd.2.1).below hax hxd
              (Json.forall_leaves_arr.mp hsmall dx hdx) (everyNumber_arr.mp he y hy)
      · rename_i fs es
        obtain ⟨hsome, ds, rfl, -, hget⟩ := Json.traverse_obj.mp hv
        cases hs with
        | mk node properties items additional =>
          obtain ⟨gs, hread, hgs⟩ := membersRead m.defaults ps node.regular.distinct r i a fs
          rw [hread] at hself ⊢
          rw [alike_obj_iff (f := fun k => read m.defaults (member ps a k)) (C := fun k => Clash (member ps a k))]
          · refine and_congr_right' ⟨?_, fun h k x y hx hy hc => h (.member hx hy hc)⟩
            rintro h (_ | ⟨hx, hy, hc⟩ | _)
            exact h _ _ _ hx hy hc
          · exact hgs.get_of_noDefaults node.regular.distinct hd.1
          · exact Json.same_self_obj.mp hself
          · exact fun x hx => Json.same_self.mpr (hsome x hx)
          · intro y hy
            rcases everyNumber_member he he hy hy with ⟨s, -, hkept, -⟩ | ⟨-, hkept, -⟩
            · exact alike_self (hkept.imp fun r n => Fixed.kept)
            · exact alike_self (hkept.imp fun r n => Fixed.kept)
          · intro k x y hx hy
            obtain ⟨dx, hdx⟩ := Option.isSome_iff_exists.mp (hsome _ (Fields.mem_of_get hx))
            have hdk := hget k
            rw [hx, Option.bind_some, hdx] at hdk
            exact hmember fs rfl k x (Fields.mem_of_get hx)
              (everywhere_member (inputNode_free lib) properties additional k) (noDefaults_member hd k).below
              (accepts_member ha hx) hdx (Json.forall_leaves_obj.mp hsmall _ (Fields.mem_of_get hdk))
              (everyNumber_of_get he hy)
    · refine iff_of_false (fun h => hshape ?_) fun h => hshape h.1.shape_eq
      rw [← shape_read m.defaults (.mk r ps i a) v]
      exact h.shape_eq

end

end Onprest.Contract
