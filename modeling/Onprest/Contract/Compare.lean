import Onprest.Contract.Complete
import Onprest.Contract.Input

/-! Values are compared with declared ones by their canonical text. Numbers are then compared by value, except that a
whole number from a million on has one text as an `int64` and another as a `float64`, and so equals only what is kept
in the same way. -/

namespace Onprest.Contract
open Lib

/-! ### Numbers and their positions -/

/-- A number with `P` stands in the value; `P` knows the rules of the position. -/
inductive HasNumber (P : Rules → Number → Prop) : Schema → Value → Prop
  | here {r : Rules} {ps : List (String × Schema)} {i a : Option Schema} {n : Number} (h : P r n) :
    HasNumber P (.mk r ps i a) (.num n)
  | property {r : Rules} {ps : List (String × Schema)} {i a : Option Schema}
      {fs : List (String × Value)} {k : String}
    {s : Schema} {x : Value} (hs : (k, s) ∈ ps) (hx : (k, x) ∈ fs) (h : HasNumber P s x) :
    HasNumber P (.mk r ps i a) (.obj fs)
  | other {r : Rules} {ps : List (String × Schema)} {i a : Option Schema} {fs : List (String × Value)} {k : String}
    {x : Value} (hk : k ∉ ps.map Prod.fst) (hx : (k, x) ∈ fs) (h : HasNumber P (below a) x) :
    HasNumber P (.mk r ps i a) (.obj fs)
  | item {r : Rules} {ps : List (String × Schema)} {i a : Option Schema} {xs : List Value} {x : Value} (hx : x ∈ xs)
    (h : HasNumber P (below i) x) : HasNumber P (.mk r ps i a) (.arr xs)

/-- Every number of the value has `P`. -/
def EveryNumber (P : Rules → Number → Prop) (s : Schema) (v : Value) : Prop := ¬ HasNumber (fun r n => ¬ P r n) s v

variable {P : Rules → Number → Prop} {s : Schema} {v : Value} {r : Rules} {n k : Number} {x : Float64} {q : ℚ}

theorem EveryNumber.imp {Q : Rules → Number → Prop} (h : EveryNumber P s v) (himp : ∀ r n, P r n → Q r n) :
    EveryNumber Q s v := by
  intro hn
  refine h ?_
  induction hn with
  | here hn => exact .here fun hp => hn (himp _ _ hp)
  | property hs hx hn ih => exact .property hs hx (ih fun h' => h (.property hs hx h'))
  | other hk hx hn ih => exact .other hk hx (ih fun h' => h (.other hk hx h'))
  | item hx hn ih => exact .item hx (ih fun h' => h (.item hx h'))

section
variable {P : Rules → Number → Prop} {r : Rules} {ps : List (String × Schema)} {i a : Option Schema}

theorem everyNumber_num : EveryNumber P (.mk r ps i a) (.num n) ↔ P r n := by
  constructor
  · intro h
    by_contra hn
    exact h (.here hn)
  · intro h hn
    cases hn with
    | here hn => exact hn h

theorem everyNumber_arr {xs : List Value} :
    EveryNumber P (.mk r ps i a) (.arr xs) ↔ ∀ x ∈ xs, EveryNumber P (below i) x := by
  constructor
  · intro h x hx hn
    exact h (.item hx hn)
  · intro h hn
    cases hn with
    | item hx hn => exact h _ hx hn

theorem everyNumber_obj {fs : List (String × Value)} :
    EveryNumber P (.mk r ps i a) (.obj fs) ↔ ∀ f ∈ fs, (∀ q ∈ ps, q.1 = f.1 → EveryNumber P q.2 f.2) ∧
      (f.1 ∉ ps.map Prod.fst → EveryNumber P (below a) f.2) := by
  constructor
  · rintro h ⟨k, x⟩ hx
    constructor
    · rintro ⟨l, s⟩ hs rfl hn
      exact h (.property hs hx hn)
    · intro hk hn
      exact h (.other hk hx hn)
  · intro h hn
    cases hn with
    | property hs hx hn => exact (h _ hx).1 _ hs rfl hn
    | other hk hx hn => exact (h _ hx).2 hk hn

theorem everyNumber_congr (r r' : Rules) (hP : ∀ n, P r n → P r' n) (h : EveryNumber P (.mk r ps i a) v) :
    EveryNumber P (.mk r' ps i a) v := by
  intro hn
  cases hn with
  | here hn => exact hn (hP _ (everyNumber_num.mp h))
  | property hs hx hn => exact h (.property hs hx hn)
  | other hk hx hn => exact h (.other hk hx hn)
  | item hx hn => exact h (.item hx hn)

end

/-! ### The kind of a number -/

/-- A number as validation keeps it at a position: an `int64` or a finite `float64`, where the types allow it. -/
def Kept (r : Rules) (n : Number) : Prop :=
  (∃ i, n = .int64 i ∧ (r.types = [] ∨ .integer ∈ r.types ∨ r.output = true)) ∨
    ∃ x q, n = .float x ∧ x.toRat = some q ∧ (r.types = [] ∨ .number ∈ r.types)

/-- A position where the same number may be kept as an `int64` or as a `float64`. -/
def Mixed (r : Rules) : Prop := r.types = [] ∨ .number ∈ r.types ∧ (.integer ∈ r.types ∨ r.output = true)

/-- A whole number from a million on. -/
def Large (n : Number) : Prop := ∃ z : ℤ, n.value = some (z : ℚ) ∧ 10 ^ 6 ≤ |z|

theorem kept_of_normalizeNumber {t : JType} (hn : normalizeNumber r n = .ok (t, k)) (ht : wrongType r t = false) :
    Kept r k := by
  rcases normalizeNumber_eq_ok.mp hn with ⟨hint, i, -, -, rfl⟩ | ⟨-, rfl, hk⟩
  · exact .inl ⟨i, rfl, .inr (.inl hint)⟩
  · rcases normalizeFloat_eq_ok hk with ⟨i, rfl, htypes | ⟨hout, -⟩⟩ | ⟨f, hf, rfl⟩
    · exact .inl ⟨i, rfl, .inl htypes⟩
    · exact .inl ⟨i, rfl, .inr (.inr hout)⟩
    · obtain ⟨q, hq⟩ := Option.isSome_iff_exists.mp (toRat_finiteNumber hf)
      refine .inr ⟨f, q, rfl, hq, ?_⟩
      by_contra hne
      rw [not_or] at hne
      simp [wrongType, hne] at ht

/-- The two values are the same JSON data. -/
abbrev SameData (v w : Value) : Prop := Json.Same Leaf.data v w

theorem canonical_float (h : x.toRat = some q) : Leaf.canonical (.num (.float x)) = some (Float64.formatG q) := by
  simp only [Leaf.canonical, canonicalNumber, canonicalFloat, h]
  rfl

theorem canonical_int64 (i : Int64) : Leaf.canonical (.num (.int64 i)) = some (formatInt i) := rfl

theorem data_int64 (i : Int64) : Leaf.data (.num (.int64 i)) = some (i.toInt : ℚ) := rfl

theorem data_float (h : x.toRat = some q) : Leaf.data (.num (.float x)) = some q := h

/-- The number is written as an integer, without fraction and exponent. -/
def Number.isPlain : Number → Bool
  | .int64 _ => true
  | .int _ => true
  | .text t => t.isPlain
  | .float _ => false

/-- Kept numbers print alike exactly when they are the same number and not a large one kept in two kinds. -/
theorem alike_num_iff (hn : Kept r n) (hk : Kept r k) :
    Alike (.num n) (.num k) ↔ SameData (.num n) (.num k) ∧ ¬ (Large n ∧ n.isPlain ≠ k.isPlain) := by
  have hmixed {i : Int64} {q : ℚ} : q = i.toInt ∧ |q| < 10 ^ 6 ↔ q = i.toInt ∧ ¬ ∃ z : ℤ, q = z ∧ 10 ^ 6 ≤ |z| := by
    refine and_congr_right fun hq => ?_
    subst hq
    constructor
    · rintro hlt ⟨z, hz, hle⟩
      rw [hz] at hlt
      have : |z| < 10 ^ 6 := by exact_mod_cast hlt
      omega
    · intro h
      by_contra hle
      exact h ⟨_, rfl, by exact_mod_cast not_lt.mp hle⟩
  rcases hn with ⟨i, rfl, -⟩ | ⟨x, p, rfl, hp, -⟩
  · rcases hk with ⟨j, rfl, -⟩ | ⟨y, q, rfl, hq, -⟩
    · rw [Alike, SameData, Json.same_leaf_of_some (canonical_int64 i) (canonical_int64 j),
        Json.same_leaf_of_some (data_int64 i) (data_int64 j)]
      constructor
      · intro h
        rw [formatInt_inj h]
        exact ⟨rfl, fun h => h.2 rfl⟩
      · rintro ⟨h, -⟩
        rw [Int64.toInt.inj (Int.cast_injective h)]
    · rw [Alike, SameData, Json.same_leaf_of_some (canonical_int64 i) (canonical_float hq),
        Json.same_leaf_of_some (data_int64 i) (data_float hq),
        formatInt_eq_formatG_iff (Float64.finite_of_toRat hq).1, hmixed, eq_comm]
      refine and_congr_right fun h => not_congr ?_
      simp [Large, Number.value, Number.isPlain, ← h]
  · rcases hk with ⟨j, rfl, -⟩ | ⟨y, q, rfl, hq, -⟩
    · rw [Alike, SameData, Json.same_leaf_of_some (canonical_float hp) (canonical_int64 j),
        Json.same_leaf_of_some (data_float hp) (data_int64 j), eq_comm,
        formatInt_eq_formatG_iff (Float64.finite_of_toRat hp).1, hmixed]
      refine and_congr_right fun h => not_congr ?_
      simp [Large, Number.value, Number.isPlain, hp]
    · rw [Alike, SameData, Json.same_leaf_of_some (canonical_float hp) (canonical_float hq),
        Json.same_leaf_of_some (data_float hp) (data_float hq)]
      constructor
      · intro h
        exact ⟨Float64.formatG_inj (Float64.finite_of_toRat hp).1 (Float64.finite_of_toRat hq).1 h, fun h => h.2 rfl⟩
      · rintro ⟨rfl, -⟩
        rfl

/-- Both kinds are kept only where they mix. -/
theorem mixed_of_isPlain_ne (hn : Kept r n) (hk : Kept r k) (h : n.isPlain ≠ k.isPlain) : Mixed r := by
  unfold Mixed
  rcases hn with ⟨i, rfl, hi⟩ | ⟨x, p, rfl, -, hx⟩
  · rcases hk with ⟨j, rfl, -⟩ | ⟨y, q, rfl, -, hy⟩
    · exact absurd rfl h
    · tauto
  · rcases hk with ⟨j, rfl, hj⟩ | ⟨y, q, rfl, -, -⟩
    · tauto
    · exact absurd rfl h

/-- What a number is compared by: its value and, for a whole number from a million on, whether it is kept as an
integer. -/
def Leaf.compared : Leaf → Option (ℚ × Bool)
  | .num n => n.value.map fun q => (q, n.isPlain && decide (q.den = 1 ∧ 10 ^ 6 ≤ |q|))
  | .file _ => none

/-- The two values are the same JSON data, with every large whole number kept in the same way. -/
abbrev SameKept (v w : Value) : Prop := Json.Same Leaf.compared v w

theorem compared_num (h : n.value = some q) :
    Leaf.compared (.num n) = some (q, n.isPlain && decide (q.den = 1 ∧ 10 ^ 6 ≤ |q|)) := by
  rw [Leaf.compared, h, Option.map_some]

theorem Kept.value (h : Kept r n) : ∃ q, n.value = some q := by
  rcases h with ⟨i, rfl, -⟩ | ⟨x, q, rfl, hq, -⟩
  · exact ⟨_, rfl⟩
  · exact ⟨q, hq⟩

theorem large_iff (h : n.value = some q) : Large n ↔ q.den = 1 ∧ 10 ^ 6 ≤ |q| := by
  rw [Large, h]
  constructor
  · rintro ⟨z, hz, hle⟩
    obtain rfl := Option.some.inj hz
    exact ⟨Rat.den_intCast z, by exact_mod_cast hle⟩
  · rintro ⟨hden, hle⟩
    have hq : ((q.num : ℤ) : ℚ) = q := Rat.coe_int_num_of_den_eq_one hden
    exact ⟨q.num, by rw [hq], by rw [← hq] at hle; exact_mod_cast hle⟩

/-- Numbers kept at one position print alike exactly when they are compared alike. -/
theorem alike_num (hn : Kept r n) (hk : Kept r k) : Alike (.num n) (.num k) ↔ SameKept (.num n) (.num k) := by
  obtain ⟨p, hp⟩ := hn.value
  obtain ⟨q, hq⟩ := hk.value
  have hdata : SameData (.num n) (.num k) ↔ p = q := Json.same_leaf_of_some (f := Leaf.data) hp hq
  rw [alike_num_iff hn hk, large_iff hp, hdata, SameKept,
    Json.same_leaf_of_some (compared_num hp) (compared_num hq), Prod.mk.injEq]
  refine and_congr_right fun heq => ?_
  subst heq
  cases hlarge : decide (p.den = 1 ∧ 10 ^ 6 ≤ |p|) with
  | false => simp [of_decide_eq_false hlarge]
  | true => simp [of_decide_eq_true hlarge]

/-- A value can be compared with itself exactly when it is JSON data. -/
theorem sameKept_self {v : Value} : SameKept v v ↔ SameData v v := by
  rw [SameKept, SameData, Json.same_self, Json.same_self, Json.isSome_traverse, Json.isSome_traverse]
  refine forall₂_congr fun l _ => ?_
  cases l with
  | num n => rw [Leaf.compared, Option.isSome_map, Leaf.data]
  | file x => rfl

theorem alike_self_num (hn : Kept r n) : Alike (.num n) (.num n) ∧ SameData (.num n) (.num n) := by
  rcases hn with ⟨i, rfl, -⟩ | ⟨x, q, rfl, hq, -⟩
  · exact ⟨⟨_, rfl, rfl⟩, ⟨_, rfl, rfl⟩⟩
  · exact ⟨(Json.same_leaf_of_some (canonical_float hq) (canonical_float hq)).mpr rfl,
      (Json.same_leaf_of_some (data_float hq) (data_float hq)).mpr rfl⟩

/-! ### Values as they are kept -/

/-- The members of an object whose numbers are kept, with the schemas of their positions. -/
theorem everyNumber_member {ps : List (String × Schema)} {i a : Option Schema} {fs gs : List (String × Value)}
    (hf : EveryNumber P (.mk r ps i a) (.obj fs)) (hg : EveryNumber P (.mk r ps i a) (.obj gs)) {k : String}
    {x y : Value} (hx : (k, x) ∈ fs) (hy : (k, y) ∈ gs) :
    (∃ s, (k, s) ∈ ps ∧ EveryNumber P s x ∧ EveryNumber P s y) ∨
      k ∉ ps.map Prod.fst ∧ EveryNumber P (below a) x ∧ EveryNumber P (below a) y := by
  have hf := everyNumber_obj.mp hf _ hx
  have hg := everyNumber_obj.mp hg _ hy
  by_cases hk : k ∈ ps.map Prod.fst
  · obtain ⟨⟨l, s⟩, hs, rfl⟩ := List.mem_map.mp hk
    exact .inl ⟨s, hs, hf.1 _ hs rfl, hg.1 _ hs rfl⟩
  · exact .inr ⟨hk, hf.2 hk, hg.2 hk⟩

/-- A kept value has a canonical text exactly when it is JSON data. -/
theorem alike_self (hv : EveryNumber Kept s v) : Alike v v ↔ SameData v v := by
  induction s, v using Schema.induct_below with
  | step r ps i a v hps hi ha =>
    cases v with
    | leaf l =>
      cases l with
      | num n =>
        obtain ⟨halike, hdata⟩ := alike_self_num (everyNumber_num.mp hv)
        exact iff_of_true halike hdata
      | file x =>
        refine iff_of_false ?_ ?_ <;>
        · rintro ⟨u, hu, -⟩
          cases hu
    | arr xs =>
      rw [Alike, SameData, Json.same_arr, Json.same_arr, List.forall₂_same, List.forall₂_same]
      exact forall₂_congr fun x hx => hi x hx (everyNumber_arr.mp hv x hx)
    | obj fs =>
      rw [Alike, SameData, Json.same_self_obj, Json.same_self_obj]
      refine forall₂_congr fun f hf => ?_
      rcases everyNumber_member hv hv hf hf with ⟨s, hs, hx, -⟩ | ⟨hk, hx, -⟩
      · exact hps (f.1, s) hs f.2 hx
      · exact ha f.2 (List.mem_map_of_mem hf) hx
    | _ => exact iff_of_true ⟨_, rfl, rfl⟩ ⟨_, rfl, rfl⟩

/-- Kept values print alike exactly when they are compared alike. -/
theorem alike_iff_sameKept {w : Value} (hv : EveryNumber Kept s v) (hw : EveryNumber Kept s w) :
    Alike v w ↔ SameKept v w := by
  induction s, v using Schema.induct_below generalizing w with
  | step r ps i a v hps hi ha =>
    refine Json.same_congr ?_ ?_ ?_
    · rintro (n | x) (k | y) rfl rfl
      · exact alike_num (everyNumber_num.mp hv) (everyNumber_num.mp hw)
      all_goals
        refine iff_of_false ?_ ?_ <;>
        · rintro ⟨u, hu, hu'⟩
          first | cases hu | cases hu'
    · rintro xs ys rfl rfl x hx y hy
      exact hi x hx (everyNumber_arr.mp hv x hx) (everyNumber_arr.mp hw y hy)
    · rintro fs gs rfl rfl
      have hself {hs : List (String × Value)} (h : EveryNumber Kept (.mk r ps i a) (.obj hs)) (x) (hx : x ∈ hs) :
          Alike x.2 x.2 ↔ SameKept x.2 x.2 := by
        rcases everyNumber_member h h hx hx with ⟨s, -, hkept, -⟩ | ⟨-, hkept, -⟩
        · exact (alike_self hkept).trans sameKept_self.symm
        · exact (alike_self hkept).trans sameKept_self.symm
      refine ⟨hself hv, hself hw, fun k x y hx hy => ?_⟩
      rcases everyNumber_member hv hw hx hy with ⟨s, hs, hkx, hky⟩ | ⟨hk, hkx, hky⟩
      · exact hps (k, s) hs x hkx hky
      · exact ha x (List.mem_map_of_mem (f := Prod.snd) hx) hkx hky

section
variable {lib : Library}

variable {m : Mode} {s : Schema} {v w : Value} {p : String} {r : Rules} {ps : List (String × Schema)}
  {i a : Option Schema} {input : Bool}

/-- The numbers of a value that was accepted are kept. -/
theorem everyNumber_read (hs : s.Everywhere (Regular lib)) (h : Accepts lib m s p v) :
    EveryNumber Kept s (read m.defaults s v) := by
  induction s, v using Schema.induct_below generalizing p with
  | step r ps i a v hps hi ha =>
    cases hs with
    | mk node properties items additional =>
      cases v with
      | leaf l =>
        cases l with
        | num n =>
          obtain ⟨t, k, hn, ht, -⟩ := (accepts_num (file_eq_none h (by simp) (by simp))).mp h
          rw [read, readNumber, hn]
          exact everyNumber_num.mpr (kept_of_normalizeNumber hn ht)
        | file x => rintro ⟨⟩
      | arr xs =>
        rw [read_arr]
        refine everyNumber_arr.mpr fun y hy => ?_
        obtain ⟨x, hx, rfl⟩ := List.mem_map.mp hy
        obtain ⟨n, hax⟩ := accepts_item (file_eq_none h (by simp) (by simp)) h hx
        exact hi x hx (everywhere_below (regular_free lib) items) hax
      | obj fs =>
        have hf := file_eq_none h (by simp) (by simp)
        obtain ⟨gs, hread, hgs⟩ := membersRead m.defaults ps node.distinct r i a fs
        rw [hread]
        refine everyNumber_obj.mpr fun g hg => ⟨fun q hq hqk => ?_, fun hk => ?_⟩
        · have hget := Fields.get_of_mem hgs.sorted.nodup hg
          rw [← hqk, hgs.property q hq] at hget
          obtain ⟨x, hx, hxg⟩ := Option.map_eq_some_iff.mp hget
          rw [← hxg]
          exact hps q hq x (properties q hq) (((accepts_obj hf).mp h).2.2.2.1 q hq x hx)
        · obtain ⟨x, hx, hxg⟩ := hgs.of_mem hg hk
          rw [hxg]
          exact ha x (List.mem_map_of_mem (f := Prod.snd) (Fields.mem_of_get hx))
            (everywhere_below (regular_free lib) additional) (accepts_other hf h hk hx)
      | _ => rintro ⟨⟩

/-! ### Declared values -/

/-- A schema without its declared values. -/
def Schema.undeclared : Schema → Schema
  | .mk r ps i a => .mk { r with enum := none, const := none, default := none } ps i a

/-- The value equals a declared one: a member of the enum, if there is one, and the constant, if there is one. -/
def EqualsDeclared (same : Value → Value → Prop) (r : Rules) (v : Value) : Prop :=
  (∀ vs ∈ r.enum, ∃ e ∈ vs, same v e) ∧ ∀ c ∈ r.const, same v c

instance (same : Value → Value → Prop) [DecidableRel same] (r : Rules) (v : Value) :
    Decidable (EqualsDeclared same r v) := inferInstanceAs (Decidable (_ ∧ _))

/-- A value as read equals a declared one exactly when it equals one by canonical text. -/
theorem validateEnumConst_iff (hdeclared : ∀ e, (∃ vs ∈ r.enum, e ∈ vs) ∨ e ∈ r.const → (Alike w e ↔ SameKept w e)) :
    validateEnumConst r w = none ↔ EqualsDeclared SameKept r w := by
  rw [validateEnumConst_eq_none, EqualsDeclared]
  refine and_congr (forall₂_congr fun vs hvs => exists_congr fun e => and_congr_right fun he => ?_)
    (forall₂_congr fun c hc => ?_)
  · exact equalJSON_iff_alike.trans (hdeclared e (.inl ⟨vs, hvs, he⟩))
  · exact equalJSON_iff_alike.trans (hdeclared c (.inr hc))

theorem Keeps.everyNumber (r r' : Rules) (htypes : r.types = r'.types) (hout : r.output = r'.output)
    (hs : (Schema.mk r ps i a).Everywhere (Regular lib)) (h : Keeps lib false (.mk r ps i a) w) :
    EveryNumber Kept (.mk r' ps i a) w := by
  obtain ⟨v, ha, rfl⟩ := h
  refine everyNumber_congr r r' (fun n hn => ?_) (everyNumber_read hs ha)
  unfold Kept at hn ⊢
  rw [← htypes, ← hout]
  exact hn

theorem Base.undeclared (h : Base input r ps i a) (enum : Option (List Value)) (const default : Option Value) :
    Schema.undeclared (.mk { r with enum, const, default } ps i a) = .mk r ps i a := by
  rw [Schema.undeclared]
  congr 1
  have henum := h.noEnum
  have hconst := h.noConst
  have hdefault := h.noDefault
  cases r
  simp_all

/-- At a node of a compiled schema. -/
theorem CompiledNode.accepts_iff (hnode : CompiledNode lib input s) (hs : s.Everywhere (Regular lib))
    (hv : Accepts lib m s.undeclared p v) :
    Accepts lib m s p v ↔
      v = .null ∧ s.rules.nullable = true ∨ EqualsDeclared SameKept s.rules (read m.defaults s v) := by
  cases hnode with
  | file h => exact iff_of_true hv (.inr ⟨nofun, nofun⟩)
  | @node r ps i a enum const default base declared =>
    rw [base.undeclared] at hv
    have hread := read_congr r { r with enum, const, default } rfl rfl m.defaults ps i a v
    have hkept : EveryNumber Kept (.mk { r with enum, const, default } ps i a)
        (read m.defaults (.mk { r with enum, const, default } ps i a) v) := by
      rw [← hread]
      have hbase : EveryNumber Kept (.mk r ps i a) _ := everyNumber_read (Regular.congr hs) hv
      exact everyNumber_congr r { r with enum, const, default } (fun n hn => hn) hbase
    rw [accepts_declared base.noFile base.noEnum base.noConst enum const default, and_iff_right hv, hread,
      validateEnumConst_iff]
    · rfl
    rintro e (⟨vs, hvs, he⟩ | hc)
    · have hmember := Keeps.everyNumber r { r with enum, const, default } rfl rfl (Regular.congr hs)
        (declared.member vs hvs e he)
      exact alike_iff_sameKept hkept hmember
    · have hconstant := Keeps.everyNumber { r with enum } { r with enum, const, default } rfl rfl (Regular.congr hs)
        (declared.constant e hc)
      exact alike_iff_sameKept hkept hconstant

end

/-- Declared values of an object with a default, of an array of untyped elements and of a number. -/
def enumRaw : RawMap where
  fields := [("properties", .obj [
    ("filled", .obj [("enum", .arr [.obj [("b", .leaf (.int 1))]]),
      ("properties", .obj [("b", .obj [("type", .str "integer"), ("default", .leaf (.int 1))])])]),
    ("items", .obj [("type", .str "array"), ("enum", .arr [.arr [.leaf (.int 1000000)]])]),
    ("number", .obj [("type", .str "number"), ("enum", .arr [.leaf (.int 1)])])])]
  distinct := by decide

/-- Declared values of an output that may be null. -/
def nullableRaw : RawMap where
  fields := [("type", .str "string"), ("nullable", .bool true), ("enum", .arr [.str "a"])]
  distinct := by decide

/-- `1e6`. -/
def millionText : JSONNumber where
  negative := false
  whole := [1]
  fraction := []
  exponent := some ⟨false, none, [6], by decide⟩
  ne := one_ne_nil
  bounded := by decide

/-- The value passes the other constraints of the schema, which accepts it as said, though it is not equal to a
declared value, or the other way round. -/
def Disagrees (t : Schema) (v : Value) (accepted : Bool) : Prop :=
  Accepts .bare { defaults := true } t.undeclared "" v ∧
    (Accepts .bare { defaults := true } t "" v ↔ accepted = true) ∧
    (EqualsDeclared SameData t.rules v ↔ accepted = false)

instance (t : Schema) (v : Value) (accepted : Bool) : Decidable (Disagrees t v accepted) :=
  inferInstanceAs (Decidable (_ ∧ _))

theorem exists_of_compile {m : RawMap} {input root : Bool} (P : Schema → Prop) [DecidablePred P]
    (h : (compileSchema .bare m input root false).toOption.any (fun s => decide (P s)) = true) :
    ∃ s, compileSchema .bare m input root false = .ok s ∧ P s := by
  cases hs : compileSchema .bare m input root false with
  | error e =>
    rw [hs] at h
    cases h
  | ok s =>
    rw [hs] at h
    exact ⟨s, rfl, of_decide_eq_true h⟩

end Onprest.Contract
