import Onprest.Lib.FloatText
import Onprest.Lib.JsonSame
import Onprest.Lib.JsonSize
import Onprest.Contract.Schema

/-! `DecodeJSON`: one JSON value within limits, without repeated keys or lone surrogates. The canonical text of a
value is decoded to a value with the same canonical text. -/

namespace Onprest.Contract
open Lib

/-- `validateJSONUnicode`; `inside` is the source's `in`. Quotes and backslashes are single bytes of UTF-8, and four
bytes that are hexadecimal digits are four characters. -/
def validateJSONUnicode (inside : Bool) : List Char → Bool
  | [] => true
  | c :: r =>
    if c = '"' then validateJSONUnicode (!inside) r
    else if !inside || c ≠ '\\' then validateJSONUnicode inside r
    else
      match r with
      | [] => false
      | e :: r =>
        if e ≠ 'u' then validateJSONUnicode inside r
        else
          match r with
          | x₁ :: x₂ :: x₃ :: x₄ :: r =>
            match hexValue x₁ x₂ x₃ x₄ with
            | none => false
            | some n =>
              if isLow n then false
              else if isHigh n then
                match r with
                | b :: u :: y₁ :: y₂ :: y₃ :: y₄ :: r =>
                  if b ≠ '\\' || u ≠ 'u' then false
                  else
                    match hexValue y₁ y₂ y₃ y₄ with
                    | none => false
                    | some low => isLow low && validateJSONUnicode inside r
                | _ => false
              else validateJSONUnicode inside r
          | _ => false

/-- The number case of `decodeJSONValue`: digits alone are an `int64`, other texts are kept as they are. The source
has no bound of 2^32 digits; no body within its limits reaches it. -/
def decodeNumber (t : NumberText) : Option Number :=
  if t.isPlain then (parseInt64 t.negative (digitsValue t.whole)).map .int64
  else if (Float64.parse t).isSome then
    if h : t.whole.length + t.fraction.length < 2 ^ 32 then some (.text ⟨t, h⟩) else none
  else none

/-- A string token. -/
def stringOf (raw : List Char) : String := String.ofList (unescape raw)

/-- The entry to a value at depth `d`, the count being `n`. -/
def enterValue (l : Limits) (d n : ℕ) : Option ℕ :=
  if (d : ℤ) > l.maxDepth.toInt || (n + 1 : ℤ) > l.maxItems.toInt then none else some (n + 1)

mutual
/-- `decodeJSONValue` on a text that is well formed; its errors are `none`. -/
def decodeJSONValue (l : Limits) (d : ℕ) : Parsed → ℕ → Option (Value × ℕ)
  | .null, n => (enterValue l d n).map (Json.null, ·)
  | .bool b, n => (enterValue l d n).map (Json.bool b, ·)
  | .str raw, n => (enterValue l d n).map (Json.str (stringOf raw), ·)
  | .num t, n => (enterValue l d n).bind fun n => (decodeNumber t).map (Value.num ·, n)
  | .arr xs, n => (enterValue l d n).bind fun n => (decodeItems l (d + 1) xs n).map fun p => (.arr p.1, p.2)
  | .obj fs, n => (enterValue l d n).bind fun n => (decodeMembers l (d + 1) [] fs n).map fun p => (.obj p.1, p.2)
def decodeItems (l : Limits) (d : ℕ) : List Parsed → ℕ → Option (List Value × ℕ)
  | [], n => some ([], n)
  | x :: xs, n => (decodeJSONValue l d x n).bind fun p => (decodeItems l d xs p.2).map fun q => (p.1 :: q.1, q.2)
/-- The members after those named in `seen`. -/
def decodeMembers (l : Limits) (d : ℕ) (seen : List String) :
    List (List Char × Parsed) → ℕ → Option (List (String × Value) × ℕ)
  | [], n => some ([], n)
  | (raw, x) :: fs, n =>
    let key := stringOf raw
    if seen.contains key then none
    else if (n + 1 : ℤ) > l.maxItems.toInt then none
    else
      (decodeJSONValue l d x (n + 1)).bind fun p =>
        (decodeMembers l d (key :: seen) fs p.2).map fun q => ((key, p.1) :: q.1, q.2)
end

/-- `DecodeJSON`; all its errors are `none`. The decoder's tokens are those of a text that parses. -/
def decodeJSON (l : Limits) (data : ByteArray) : Option Value :=
  if l.maxBytes ≤ 0 || l.maxDepth ≤ 0 || l.maxItems ≤ 0 then none
  else if (data.size : ℤ) > l.maxBytes.toInt then none
  else
    match data.utf8Decode? with
    | none => none
    | some cs =>
      if validateJSONUnicode false cs.toList then
        (parseJson cs.toList).bind fun p => (decodeJSONValue l 1 p 0).map Prod.fst
      else none

/-! ### The value of a text -/

mutual
/-- The value of a text, whatever its size. -/
def toValue : Parsed → Option Value
  | .null => some .null
  | .bool b => some (.bool b)
  | .str raw => some (.str (stringOf raw))
  | .num t => (decodeNumber t).map (Value.num ·)
  | .arr xs => (toValues xs).map .arr
  | .obj fs => (toMembers [] fs).map .obj
def toValues : List Parsed → Option (List Value)
  | [] => some []
  | x :: xs => (toValue x).bind fun v => (toValues xs).map (v :: ·)
def toMembers (seen : List String) : List (List Char × Parsed) → Option (List (String × Value))
  | [] => some []
  | (raw, x) :: fs =>
    if seen.contains (stringOf raw) then none
    else (toValue x).bind fun v => (toMembers (stringOf raw :: seen) fs).map ((stringOf raw, v) :: ·)
end

/-- Levels up to before `d` and `n` values and keys are within the limits. -/
def Within (l : Limits) (d n : ℕ) : Prop := (d : ℤ) ≤ l.maxDepth.toInt + 1 ∧ (n : ℤ) ≤ l.maxItems.toInt

variable {l : Limits} {d n n' : ℕ} {t : NumberText} {q : ℚ} {p : Parsed} {v : Value} {f : Json NumberText}

theorem Within.anti {d' : ℕ} (h : Within l d n) (hd : d' ≤ d) (hn : n' ≤ n) : Within l d' n' := by
  unfold Within at *
  omega

theorem enterValue_eq_some : enterValue l d n = some n' ↔ Within l (d + 1) (n + 1) ∧ n' = n + 1 := by
  unfold enterValue Within
  split
  · rename_i h
    simp only [Bool.or_eq_true, decide_eq_true_eq] at h
    refine iff_of_false nofun ?_
    push_cast
    omega
  · rename_i h
    simp only [Bool.or_eq_true, decide_eq_true_eq, not_or] at h
    rw [Option.some.injEq]
    push_cast
    omega

/-- The decoder takes the value of the text if its depth and the count stay within the limits. -/
def Decodes (l : Limits) (p : Parsed) : Prop :=
  ∀ d n v n', decodeJSONValue l d p n = some (v, n') ↔
    toValue p = some v ∧ Within l (d + v.depth) n' ∧ n' = n + v.items

variable {ps : List Parsed} {vs : List Value} {seen : List String} {fs : List (List Char × Parsed)}

theorem decodeItems_eq_some (ih : ∀ p ∈ ps, Decodes l p) (hn : Within l d n) :
    decodeItems l d ps n = some (vs, n') ↔
      toValues ps = some vs ∧ Within l (d + Json.depthItems vs) n' ∧ n' = n + Json.itemsList vs := by
  induction ps generalizing n vs with
  | nil =>
    simp only [decodeItems, toValues, Option.some.injEq, Prod.mk.injEq]
    constructor
    · rintro ⟨rfl, rfl⟩
      exact ⟨rfl, hn, rfl⟩
    · rintro ⟨rfl, -, hn'⟩
      exact ⟨rfl, hn'.symm⟩
  | cons p ps ihs =>
    rw [List.forall_mem_cons] at ih
    simp only [decodeItems, toValues, Option.bind_eq_some_iff, Option.map_eq_some_iff, Prod.exists, Prod.mk.injEq]
    constructor
    · rintro ⟨v, n₁, hv, ws, n₂, hws, rfl, rfl⟩
      obtain ⟨hv', hfirst, rfl⟩ := (ih.1 d n v n₁).mp hv
      obtain ⟨hws', hrest, hcount⟩ := (ihs ih.2 (hfirst.anti (Nat.le_add_right _ _) le_rfl)).mp hws
      refine ⟨⟨v, hv', ws, hws', rfl⟩, ?_, ?_⟩
      · unfold Within at *
        rw [Json.depthItems]
        omega
      · rw [Json.itemsList_cons]
        omega
    · rintro ⟨⟨v, hv, ws, hws, rfl⟩, hwithin, hcount⟩
      rw [Json.itemsList_cons] at hcount
      rw [Json.depthItems] at hwithin
      have hfirst : Within l (d + v.depth) (n + v.items) := hwithin.anti (by omega) (by omega)
      have hrest : Within l d (n + v.items) := hfirst.anti (Nat.le_add_right _ _) le_rfl
      refine ⟨v, n + v.items, (ih.1 d n v _).mpr ⟨hv, hfirst, rfl⟩, ws, n',
        (ihs ih.2 hrest).mpr ⟨hws, ?_, ?_⟩, rfl, rfl⟩
      · exact hwithin.anti (by omega) le_rfl
      · omega

theorem decodeMembers_eq_some {ps : List (List Char × Parsed)} (ih : ∀ p ∈ ps, Decodes l p.2) (hn : Within l d n)
    {fs : List (String × Value)} :
    decodeMembers l d seen ps n = some (fs, n') ↔
      toMembers seen ps = some fs ∧ Within l (d + Json.depthFields fs) n' ∧ n' = n + Json.itemsFields fs := by
  induction ps generalizing n fs seen with
  | nil =>
    simp only [decodeMembers, toMembers, Option.some.injEq, Prod.mk.injEq]
    constructor
    · rintro ⟨rfl, rfl⟩
      exact ⟨rfl, hn, rfl⟩
    · rintro ⟨rfl, -, hn'⟩
      exact ⟨rfl, hn'.symm⟩
  | cons p ps ihs =>
    obtain ⟨raw, p⟩ := p
    rw [List.forall_mem_cons] at ih
    simp only [decodeMembers, toMembers]
    by_cases hseen : seen.contains (stringOf raw) = true
    · rw [if_pos hseen, if_pos hseen]
      exact iff_of_false nofun fun h => nomatch h.1
    rw [if_neg hseen, if_neg hseen]
    simp only [Option.bind_eq_some_iff, Option.map_eq_some_iff]
    constructor
    · intro h
      split at h
      · cases h
      simp only [Option.bind_eq_some_iff, Option.map_eq_some_iff, Prod.exists, Prod.mk.injEq] at h
      obtain ⟨v, n₁, hv, gs, n₂, hgs, rfl, rfl⟩ := h
      obtain ⟨hv', hfirst, rfl⟩ := (ih.1 d (n + 1) v n₁).mp hv
      obtain ⟨hgs', hrest, hcount⟩ := (ihs ih.2 (hfirst.anti (Nat.le_add_right _ _) le_rfl)).mp hgs
      refine ⟨⟨v, hv', gs, hgs', rfl⟩, ?_, ?_⟩
      · unfold Within at *
        rw [Json.depthFields]
        omega
      · rw [Json.itemsFields_cons]
        omega
    · rintro ⟨⟨v, hv, gs, hgs, rfl⟩, hwithin, hcount⟩
      rw [Json.itemsFields_cons] at hcount
      rw [Json.depthFields] at hwithin
      have hfirst : Within l (d + v.depth) (n + 1 + v.items) := hwithin.anti (by omega) (by omega)
      have hrest : Within l d (n + 1 + v.items) := hfirst.anti (Nat.le_add_right _ _) le_rfl
      have hroom : ¬ (n + 1 : ℤ) > l.maxItems.toInt := by
        have := hfirst.2
        omega
      rw [if_neg hroom]
      simp only [Option.bind_eq_some_iff, Option.map_eq_some_iff, Prod.exists, Prod.mk.injEq]
      refine ⟨v, n + 1 + v.items, (ih.1 d (n + 1) v _).mpr ⟨hv, hfirst, rfl⟩, gs, n',
        (ihs ih.2 hrest).mpr ⟨hgs, ?_, ?_⟩, rfl, rfl⟩
      · exact hwithin.anti (by omega) le_rfl
      · omega

/-- What the decoder returns, and when. -/
theorem decodes (l : Limits) (p : Parsed) : Decodes l p := by
  have hscalar (d n : ℕ) (u v : Value) (n' : ℕ) (hdepth : u.depth = 1) (hitems : u.items = 1) :
      (enterValue l d n).map (u, ·) = some (v, n') ↔ some u = some v ∧ Within l (d + v.depth) n' ∧
        n' = n + v.items := by
    simp only [Option.map_eq_some_iff, enterValue_eq_some, Prod.mk.injEq, Option.some.injEq]
    constructor
    · rintro ⟨_, ⟨hwithin, rfl⟩, rfl, rfl⟩
      rw [hdepth, hitems]
      exact ⟨rfl, hwithin, rfl⟩
    · rintro ⟨rfl, hwithin, rfl⟩
      rw [hdepth, hitems] at *
      exact ⟨n + 1, ⟨hwithin, rfl⟩, rfl, rfl⟩
  induction p with
  | null => exact fun d n v n' => hscalar d n .null v n' rfl rfl
  | bool b => exact fun d n v n' => hscalar d n (.bool b) v n' rfl rfl
  | str raw => exact fun d n v n' => hscalar d n (.str (stringOf raw)) v n' rfl rfl
  | num t =>
    intro d n v n'
    rw [decodeJSONValue, toValue]
    cases decodeNumber t with
    | none => simp
    | some x =>
      rw [show ((enterValue l d n).bind fun n => (some x).map (Value.num ·, n)) =
        (enterValue l d n).map (Value.num x, ·) by
        cases enterValue l d n <;> rfl]
      exact hscalar d n (.num x) v n' rfl rfl
  | arr ps ih =>
    intro d n v n'
    simp only [decodeJSONValue, toValue, Option.bind_eq_some_iff, Option.map_eq_some_iff,
      enterValue_eq_some, Prod.exists, Prod.mk.injEq]
    constructor
    · rintro ⟨_, ⟨hwithin, rfl⟩, vs, n₁, hvs, rfl, rfl⟩
      obtain ⟨hvs', hall, hcount⟩ := (decodeItems_eq_some ih hwithin).mp hvs
      refine ⟨⟨vs, hvs', rfl⟩, ?_, ?_⟩
      · exact hall.anti (by rw [Json.depth]; omega) le_rfl
      · rw [Json.items_arr]
        omega
    · rintro ⟨⟨vs, hvs, rfl⟩, hwithin, hcount⟩
      rw [Json.items_arr] at hcount
      rw [Json.depth] at hwithin
      have henter : Within l (d + 1) (n + 1) := hwithin.anti (by omega) (by omega)
      refine ⟨n + 1, ⟨henter, rfl⟩, vs, n', (decodeItems_eq_some ih henter).mpr ⟨hvs, ?_, ?_⟩, rfl, rfl⟩
      · exact hwithin.anti (by omega) le_rfl
      · omega
  | obj ps ih =>
    intro d n v n'
    simp only [decodeJSONValue, toValue, Option.bind_eq_some_iff, Option.map_eq_some_iff,
      enterValue_eq_some, Prod.exists, Prod.mk.injEq]
    constructor
    · rintro ⟨_, ⟨hwithin, rfl⟩, fs, n₁, hfs, rfl, rfl⟩
      obtain ⟨hfs', hall, hcount⟩ := (decodeMembers_eq_some ih hwithin).mp hfs
      refine ⟨⟨fs, hfs', rfl⟩, ?_, ?_⟩
      · exact hall.anti (by rw [Json.depth]; omega) le_rfl
      · rw [Json.items_obj]
        omega
    · rintro ⟨⟨fs, hfs, rfl⟩, hwithin, hcount⟩
      rw [Json.items_obj] at hcount
      rw [Json.depth] at hwithin
      have henter : Within l (d + 1) (n + 1) := hwithin.anti (by omega) (by omega)
      refine ⟨n + 1, ⟨henter, rfl⟩, fs, n', (decodeMembers_eq_some ih henter).mpr ⟨hfs, ?_, ?_⟩, rfl, rfl⟩
      · exact hwithin.anti (by omega) le_rfl
      · omega

/-! ### Canonical numbers -/

theorem parseInt64_formatInt (i : Int64) :
    parseInt64 (formatInt i).negative (digitsValue (formatInt i).whole) = some i := by
  rw [parseInt64_eq_some]
  simp only [formatInt, NumberText.ofNat, digitsValue_decimal, decide_eq_true_eq]
  omega

theorem decodeNumber_formatInt (i : Int64) : decodeNumber (formatInt i) = some (.int64 i) := by
  rw [decodeNumber, if_pos (by rfl), parseInt64_formatInt]
  rfl

/-- A float printed with digits alone is printed like an integer. -/
theorem formatG_of_isPlain (hq : Binary64.Finite q) (h : (Float64.formatG q).isPlain = true) :
    ∃ i : Int64, Float64.formatG q = formatInt i := by
  by_cases h0 : q = 0
  · exact ⟨0, by rw [Float64.formatG, if_pos h0]; rfl⟩
  · have htext := NumberText.eq_ofNat_of_isPlain h (Float64.noLeadingZero_formatG hq)
    have hmag := NumberText.magnitude_of_isPlain h
    generalize digitsValue (Float64.formatG q).whole = n at htext hmag
    have hneg : (Float64.formatG q).negative = decide (q < 0) := by
      rw [Float64.formatG_of_ne h0, NumberText.negative_general]
    rw [hneg] at htext
    rw [Float64.formatG_of_ne h0] at h
    rw [Float64.formatG_of_ne h0, NumberText.magnitude_general] at hmag
    have hlt : n < 10 ^ 6 := by
      simp only [NumberText.isPlain, Bool.and_eq_true, Option.isNone_iff_eq_none] at h
      have := value_lt_of_general_plain h.2
      rw [hmag] at this
      exact_mod_cast this
    have hpos : n ≠ 0 := by
      rintro rfl
      have := Decimal.round_shortest (abs_pos.mpr h0) (Binary64.round_abs hq.1)
      rw [hmag, Nat.cast_zero, Binary64.round_zero] at this
      exact h0 (abs_eq_zero.mp this.symm)
    refine ⟨Int64.ofInt (if q < 0 then -n else n), ?_⟩
    have hint : (Int64.ofInt (if q < 0 then -n else n)).toInt = if q < 0 then -(n : ℤ) else n :=
      Int64.toInt_ofInt_of_le (by split <;> omega) (by split <;> omega)
    rw [htext, formatInt, hint]
    by_cases hq0 : q < 0
    · simp only [hq0, if_true, decide_true, Int.natAbs_neg, Int.natAbs_natCast]
      congr 1
      simpa using hpos.bot_lt
    · simp only [hq0, if_false, decide_false, Int.natAbs_natCast]
      congr 1

/-- Canonical text is decoded to a number with the same canonical text. -/
theorem decodeNumber_canonical {n : Number} (h : canonicalNumber n = .ok t) :
    ∃ m, decodeNumber t = some m ∧ canonicalNumber m = .ok t := by
  rcases canonicalNumber_cases h with ⟨i, rfl⟩ | ⟨q, hq, rfl⟩
  · exact ⟨.int64 i, decodeNumber_formatInt i, rfl⟩
  · by_cases hplain : (Float64.formatG q).isPlain = true
    · obtain ⟨i, hi⟩ := formatG_of_isPlain hq hplain
      rw [hi]
      exact ⟨.int64 i, decodeNumber_formatInt i, rfl⟩
    · obtain ⟨x, hx, hxq⟩ := Float64.parse_formatG hq
      refine ⟨.text ⟨Float64.formatG q, Float64.length_formatG hq⟩, ?_, ?_⟩
      · rw [decodeNumber, if_neg hplain, hx, if_pos (by rfl), dif_pos (Float64.length_formatG hq)]
      · simp [canonicalNumber, hplain, hx, canonicalFloat, hxq]

/-! ### Sizes of canonical forms -/

section Sizes
variable {α β : Type} {g : α → Option β}

theorem keys_of_forall₂ {R : String × Json α → String × Json β → Prop} (hR : ∀ f g, R f g → f.1 = g.1)
    {fs : List (String × Json α)} {gs : List (String × Json β)} (h : List.Forall₂ R fs gs) :
    fs.map Prod.fst = gs.map Prod.fst := by
  induction h with
  | nil => rfl
  | cons hfg h ih => rw [List.map_cons, List.map_cons, ih, hR _ _ hfg]

variable {v : Json α} {u : Json β}

/-- Putting the members of maps in order changes no sum over the tree. -/
theorem total_of_traverse (w : Weight) {leaf : α → ℕ} {leaf' : β → ℕ}
    (hleaf : ∀ a b, g a = some b → leaf' b = leaf a)
    (hd : distinct v = true) (h : Json.traverse g v = some u) : u.total w leaf' = v.total w leaf := by
  induction v generalizing u with
  | null | bool b | str s =>
    cases h
    rfl
  | leaf a =>
    obtain ⟨b, hb, rfl⟩ := Option.map_eq_some_iff.mp h
    exact hleaf a b hb
  | arr xs ih =>
    rw [distinct_arr] at hd
    obtain ⟨ys, rfl, hall⟩ := Json.traverse_arr.mp h
    rw [Json.total, Json.total, hall.length_eq]
    congr 1
    clear h
    induction hall with
    | nil => rfl
    | cons hxy hall ihs =>
      rw [List.forall_mem_cons] at ih hd
      rw [Json.totalItems, Json.totalItems, ih.1 hd.1 hxy, ihs ih.2 hd.2]
  | obj fs ih =>
    rw [distinct_obj] at hd
    obtain ⟨hnodup, hd⟩ := hd
    simp only [Json.traverse, Option.map_eq_some_iff, Json.traverseFields_eq_some] at h
    obtain ⟨gs, hall, rfl⟩ := h
    have hperm := Fields.perm_ofList (keys_of_forall₂ (fun _ _ h => h.1) hall ▸ hnodup : (gs.map Prod.fst).Nodup)
    rw [Json.total, Json.total, hperm.length_eq, hall.length_eq, Json.totalFields_eq, (hperm.map _).sum_eq,
      ← Json.totalFields_eq]
    congr 1
    clear hperm hnodup
    induction hall with
    | nil => rfl
    | cons hxy hall ihs =>
      rw [List.forall_mem_cons] at ih hd
      rw [Json.totalFields_eq, Json.totalFields_eq, List.map_cons, List.map_cons, List.sum_cons, List.sum_cons,
        ← Json.totalFields_eq, ← Json.totalFields_eq, ih.1 hd.1 hxy.2, hxy.1, ihs ih.2 hd.2]

theorem depth_of_traverse (hd : distinct v = true) (h : Json.traverse g v = some u) : u.depth = v.depth := by
  induction v generalizing u with
  | null | bool b | str s =>
    cases h
    rfl
  | leaf a =>
    obtain ⟨b, hb, rfl⟩ := Option.map_eq_some_iff.mp h
    rfl
  | arr xs ih =>
    rw [distinct_arr] at hd
    obtain ⟨ys, rfl, hall⟩ := Json.traverse_arr.mp h
    rw [Json.depth, Json.depth]
    congr 1
    clear h
    induction hall with
    | nil => rfl
    | cons hxy hall ihs =>
      rw [List.forall_mem_cons] at ih hd
      rw [Json.depthItems, Json.depthItems, ih.1 hd.1 hxy, ihs ih.2 hd.2]
  | obj fs ih =>
    rw [distinct_obj] at hd
    obtain ⟨hsome, gs, rfl, hsorted, hget⟩ := Json.traverse_obj.mp h
    rw [Json.depth, Json.depth]
    congr 1
    refine eq_of_forall_ge_iff fun n => ?_
    rw [Json.depthFields_le, Json.depthFields_le]
    constructor
    · intro hle f hf
      obtain ⟨y, hy⟩ := Option.isSome_iff_exists.mp (hsome f hf)
      have hmem : (f.1, y) ∈ gs := by
        apply Fields.mem_of_get
        rw [hget, Fields.get_of_mem hd.1 hf]
        exact hy
      rw [← ih f hf (hd.2 f hf) hy]
      exact hle _ hmem
    · intro hle y hy
      obtain ⟨x, hx, hxy⟩ := Json.mem_of_traverse_obj h hy
      rw [ih _ hx (hd.2 _ hx) hxy]
      exact hle _ hx

end Sizes

/-! ### Canonical texts -/

theorem validateJSONUnicode_quoted (inside : Bool) (r : List Char) :
    validateJSONUnicode inside ('"' :: r) = validateJSONUnicode (!inside) r := by
  rw [validateJSONUnicode.eq_def]
  rfl

theorem validateJSONUnicode_skip {inside : Bool} {c : Char} (hq : c ≠ '"')
    (hc : inside = false ∨ c ≠ '\\') (r : List Char) :
    validateJSONUnicode inside (c :: r) = validateJSONUnicode inside r := by
  rw [validateJSONUnicode.eq_def]
  dsimp only
  rw [if_neg hq, if_pos (by simpa using hc)]

theorem validateJSONUnicode_short {e : Char} (he : e ≠ 'u') (r : List Char) :
    validateJSONUnicode true ('\\' :: e :: r) = validateJSONUnicode true r := by
  rw [validateJSONUnicode.eq_def]
  dsimp only
  rw [if_neg (by decide), if_neg (by decide), if_pos he]

theorem validateJSONUnicode_hex4 (h : n < 0xd800) (r : List Char) :
    validateJSONUnicode true ('\\' :: 'u' :: (hex4 n ++ r)) = validateJSONUnicode true r := by
  have hhigh : isHigh n = false := by simp [isHigh]; omega
  have hlow : isLow n = false := by simp [isLow]; omega
  rw [validateJSONUnicode.eq_def]
  dsimp only
  rw [if_neg (by decide), if_neg (by decide), if_neg (by decide)]
  simp only [hex4, List.cons_append, List.nil_append, hexValue_hex4 (by omega : n < 65536), hlow, hhigh,
    Bool.false_eq_true, if_false]

/-- A piece of text outside of strings, or with whole strings, that is passed over. -/
def Passes (w : List Char) : Prop := ∀ r, validateJSONUnicode false (w ++ r) = validateJSONUnicode false r

theorem Passes.append {w w' : List Char} (h : Passes w) (h' : Passes w') : Passes (w ++ w') := by
  intro r
  rw [List.append_assoc, h, h']

theorem Passes.cons {c : Char} {w : List Char} (hc : c ≠ '"') (h : Passes w) : Passes (c :: w) := by
  intro r
  rw [List.cons_append, validateJSONUnicode_skip hc (.inl rfl), h]

theorem passes_of_not_mem {w : List Char} (h : '"' ∉ w) : Passes w := by
  induction w with
  | nil => exact fun r => rfl
  | cons c w ih =>
    rw [List.mem_cons, not_or] at h
    exact (ih h.2).cons (Ne.symm h.1)

/-- The inside of a string without lone surrogates. -/
def PassesInside (raw : List Char) : Prop :=
  ∀ r, validateJSONUnicode true (raw ++ '"' :: r) = validateJSONUnicode false r

theorem passesInside_escaped (html : Bool) (cs : List Char) : PassesInside (cs.flatMap (escapeChar html)) := by
  intro r
  induction cs with
  | nil => exact validateJSONUnicode_quoted true r
  | cons c cs ih =>
    rw [List.flatMap_cons, List.append_assoc]
    rcases escapeChar_cases html c with ⟨e, hc, hu, -, -⟩ | ⟨hc, hlt⟩ | ⟨hc, hq, hb, -⟩
    · rw [hc, List.cons_append, List.cons_append, List.nil_append, validateJSONUnicode_short hu, ih]
    · rw [hc, List.cons_append, List.cons_append, validateJSONUnicode_hex4 hlt, ih]
    · rw [hc, List.cons_append, List.nil_append, validateJSONUnicode_skip hq (.inr hb), ih]

theorem passes_string {raw : List Char} (h : PassesInside raw) : Passes ('"' :: (raw ++ ['"'])) := by
  intro r
  rw [List.cons_append, List.append_assoc, validateJSONUnicode_quoted]
  exact h r

theorem passes_textItems {xs : List Parsed} (ih : ∀ x ∈ xs, Passes x.text) :
    Passes ((Parsed.textItems xs).drop 1) ∧ Passes (Parsed.textItems xs) := by
  induction xs with
  | nil => exact ⟨fun r => rfl, fun r => rfl⟩
  | cons x xs ihs =>
    rw [List.forall_mem_cons] at ih
    have h : Passes (x.text ++ Parsed.textItems xs) := ih.1.append (ihs ih.2).2
    exact ⟨h, h.cons (by decide)⟩

theorem passes_textMembers (hk : ∀ f ∈ fs, PassesInside f.1) (ih : ∀ f ∈ fs, Passes f.2.text) :
    Passes ((Parsed.textMembers fs).drop 1) ∧ Passes (Parsed.textMembers fs) := by
  induction fs with
  | nil => exact ⟨fun r => rfl, fun r => rfl⟩
  | cons f fs ihs =>
    rw [List.forall_mem_cons] at ih hk
    have h := (passes_string hk.1).append ((ih.1.append (ihs hk.2 ih.2).2).cons (by decide : ':' ≠ '"'))
    have htext : Parsed.textMembers (f :: fs)
        = ',' :: ('"' :: (f.1 ++ ['"']) ++ ':' :: (f.2.text ++ Parsed.textMembers fs)) := by
      simp [Parsed.textMembers]
    rw [htext]
    exact ⟨h, h.cons (by decide)⟩

theorem passes_number (t : NumberText) : Passes t.text := by
  have hdigit : ∀ d : Fin 10, '"' ≠ digitChar d := by decide
  apply passes_of_not_mem
  intro hmem
  rcases NumberText.mem_text hmem with hmem | ⟨d, hd⟩
  · exact absurd hmem (by decide)
  · exact hdigit d hd

/-- A text whose strings have no lone surrogates has none. -/
theorem passes_text {N : NumberText → Prop} (h : p.All PassesInside N) : Passes p.text := by
  have hclose {c : Char} (hc : c ≠ '"') : Passes [c] := passes_of_not_mem (by simpa using hc.symm)
  induction p with
  | null => exact passes_of_not_mem (w := "null".toList) (by decide)
  | bool b =>
    cases b with
    | true => exact passes_of_not_mem (w := "true".toList) (by decide)
    | false => exact passes_of_not_mem (w := "false".toList) (by decide)
  | str raw =>
    cases h with
    | str h => exact passes_string h
  | num t => exact passes_number t
  | arr xs ih =>
    cases h with
    | arr h =>
      exact ((passes_textItems fun x hx => ih x hx (h x hx)).1.append (hclose (by decide))).cons (by decide)
  | obj fs ih =>
    cases h with
    | obj hk h =>
      exact ((passes_textMembers hk fun f hf => ih f hf (h f hf)).1.append (hclose (by decide))).cons (by decide)

/-! ### The decoder on a text -/

/-- A value is within the limits, as a text of `b` bytes. -/
structure Fits {α : Type} (l : Limits) (b : ℕ) (v : Json α) : Prop where
  bytes : (b : ℤ) ≤ l.maxBytes.toInt
  depth : (v.depth : ℤ) ≤ l.maxDepth.toInt
  items : (v.items : ℤ) ≤ l.maxItems.toInt

theorem Fits.congr {α β : Type} {b : ℕ} {v : Json α} {w : Json β} (h : Fits l b v) (hd : v.depth = w.depth)
    (hi : v.items = w.items) : Fits l b w := ⟨h.bytes, hd ▸ h.depth, hi ▸ h.items⟩

/-- The bytes are the text of the value, within the limits. -/
theorem decodeJSON_eq_some {data : ByteArray} :
    decodeJSON l data = some v ↔ 0 < l.maxBytes.toInt ∧ Fits l data.size v ∧
      ∃ cs p, data.utf8Decode? = some cs ∧ validateJSONUnicode false cs.toList = true ∧
        parseJson cs.toList = some p ∧ toValue p = some v := by
  have hitems := v.items_pos
  have hdepth := v.depth_pos
  have hlimits : (l.maxBytes ≤ 0 || l.maxDepth ≤ 0 || l.maxItems ≤ 0) = true ↔
      l.maxBytes.toInt ≤ 0 ∨ l.maxDepth.toInt ≤ 0 ∨ l.maxItems.toInt ≤ 0 := by
    simp only [Bool.or_eq_true, decide_eq_true_eq, Int64.le_iff_toInt_le, Int64.toInt_zero, or_assoc]
  have hvalue (p : Parsed) : (decodeJSONValue l 1 p 0).map Prod.fst = some v ↔
      toValue p = some v ∧ (v.depth : ℤ) ≤ l.maxDepth.toInt ∧ (v.items : ℤ) ≤ l.maxItems.toInt := by
    simp only [Option.map_eq_some_iff, Prod.exists, decodes l p 1 0, Within]
    constructor
    · rintro ⟨_, n, ⟨hp, hwithin, hn⟩, rfl⟩
      push_cast at hwithin
      exact ⟨hp, by omega, by omega⟩
    · rintro ⟨hp, hd, hi⟩
      refine ⟨v, v.items, ⟨hp, ?_, by omega⟩, rfl⟩
      push_cast
      omega
  unfold decodeJSON
  split
  · rename_i h
    refine iff_of_false nofun fun h' => ?_
    have hd := h'.2.1.depth
    have hi := h'.2.1.items
    rw [hlimits] at h
    omega
  · rename_i h
    rw [hlimits] at h
    split
    · rename_i hbytes
      exact iff_of_false nofun fun h' => absurd h'.2.1.bytes (not_le.mpr hbytes)
    · rename_i hbytes
      split
      · rename_i hnone
        refine iff_of_false nofun ?_
        rintro ⟨-, -, cs, p, hcs, -⟩
        rw [hnone] at hcs
        cases hcs
      · rename_i cs hcs
        constructor
        · intro h'
          split at h'
          · rename_i hunicode
            obtain ⟨p, hp, h'⟩ := Option.bind_eq_some_iff.mp h'
            obtain ⟨hv, hd, hi⟩ := (hvalue p).mp h'
            exact ⟨by omega, ⟨by omega, hd, hi⟩, cs, p, hcs, hunicode, hp, hv⟩
          · cases h'
        · rintro ⟨-, ⟨-, hd, hi⟩, cs', p, hcs', hunicode, hp, hv⟩
          rw [hcs] at hcs'
          cases hcs'
          rw [if_pos hunicode, hp]
          exact (hvalue p).mpr ⟨hv, hd, hi⟩

/-- The inside of a string that the decoder takes. -/
def Sound (raw : List Char) : Prop := Body raw ∧ PassesInside raw

theorem sound_escaped (html : Bool) (cs : List Char) : Sound (cs.flatMap (escapeChar html)) :=
  ⟨body_escaped html cs, passesInside_escaped html cs⟩

theorem utf8Length_text_pos (p : Parsed) : 0 < utf8Length p.text := by
  obtain ⟨c, cs, hc, -⟩ := p.text_head
  rw [hc, utf8Length_cons]
  have := c.utf8Size_pos
  omega

/-- A text without blanks whose strings are sound is decoded to its value. -/
theorem decodeJSON_text (hp : p.All Sound fun t => t.noLeadingZero = true) :
    decodeJSON l p.text.utf8Encode = some v ↔ toValue p = some v ∧ Fits l (utf8Length p.text) v := by
  have hparse : parseJson p.text = some p := Parsed.parseJson_text (hp.imp (fun _ h => h.1) fun _ h => h)
  have hunicode : validateJSONUnicode false p.text = true := by
    have h := passes_text (hp.imp (fun _ h => h.2) fun _ h => h) []
    rwa [List.append_nil] at h
  have hpos := utf8Length_text_pos p
  rw [decodeJSON_eq_some, size_utf8Encode, List.utf8Decode?_utf8Encode]
  constructor
  · rintro ⟨-, hfits, cs, p', hcs, -, hp', hv⟩
    cases hcs
    rw [hparse] at hp'
    cases hp'
    exact ⟨hv, hfits⟩
  · rintro ⟨hv, hfits⟩
    have := hfits.bytes
    exact ⟨by omega, hfits, p.text.toArray, p, rfl, hunicode, hparse, hv⟩

/-! ### Canonical forms -/

/-- A leaf text that is decoded to a number with that canonical text. -/
def Stable (t : NumberText) : Prop := ∃ m, decodeNumber t = some m ∧ canonicalNumber m = .ok t

/-- The tree is decoded to a value with that canonical form. -/
def DecodesBack (html : Bool) (f : Json NumberText) : Prop :=
  ∃ w, toValue (f.written html) = some w ∧ canonicalForm w = some f ∧ distinct w = true

theorem toValues_written {html : Bool} {fs : List (Json NumberText)} (ih : ∀ f ∈ fs, DecodesBack html f) :
    ∃ ws, toValues (Json.writtenItems html fs) = some ws ∧
      List.Forall₂ (fun w f => canonicalForm w = some f) ws fs ∧ ∀ w ∈ ws, distinct w = true := by
  induction fs with
  | nil => exact ⟨[], rfl, .nil, nofun⟩
  | cons f fs ihs =>
    rw [List.forall_mem_cons] at ih
    obtain ⟨w, hw, hform, hd⟩ := ih.1
    obtain ⟨ws, hws, hforms, hds⟩ := ihs ih.2
    refine ⟨w :: ws, ?_, .cons hform hforms, List.forall_mem_cons.mpr ⟨hd, hds⟩⟩
    rw [Json.writtenItems, toValues, hw, hws]
    rfl

theorem stringOf_written (html : Bool) (s : String) : stringOf (s.toList.flatMap (escapeChar html)) = s := by
  rw [stringOf, unescape_escaped, String.ofList_toList]

theorem toMembers_written {html : Bool} {fs : List (String × Json NumberText)} {seen : List String}
    (hfresh : ∀ f ∈ fs, f.1 ∉ seen) (hnodup : (fs.map Prod.fst).Nodup) (ih : ∀ f ∈ fs, DecodesBack html f.2) :
    ∃ ms, toMembers seen (Json.writtenFields html fs) = some ms ∧
      List.Forall₂ (fun m f => m.1 = f.1 ∧ canonicalForm m.2 = some f.2) ms fs ∧ ∀ m ∈ ms, distinct m.2 = true := by
  induction fs generalizing seen with
  | nil => exact ⟨[], rfl, .nil, nofun⟩
  | cons f fs ihs =>
    obtain ⟨k, f⟩ := f
    rw [List.forall_mem_cons] at ih hfresh
    rw [List.map_cons, List.nodup_cons] at hnodup
    obtain ⟨w, hw, hform, hd⟩ := ih.1
    have hrest : ∀ g ∈ fs, g.1 ∉ k :: seen := by
      intro g hg
      rw [List.mem_cons, not_or]
      refine ⟨?_, hfresh.2 g hg⟩
      rintro rfl
      exact hnodup.1 (List.mem_map.mpr ⟨g, hg, rfl⟩)
    obtain ⟨ms, hms, hforms, hds⟩ := ihs hrest hnodup.2 ih.2
    refine ⟨(k, w) :: ms, ?_, .cons ⟨rfl, hform⟩ hforms, List.forall_mem_cons.mpr ⟨hd, hds⟩⟩
    rw [Json.writtenFields, toMembers, stringOf_written, if_neg (by simpa using hfresh.1), hw, Option.bind_some, hms]
    rfl

/-- A tree in key order whose numbers are stable is decoded to a value with that canonical form. -/
theorem decodesBack (html : Bool) (hs : f.Sorted) (hf : ∀ t ∈ f.leaves, Stable t) : DecodesBack html f := by
  induction f with
  | null => exact ⟨.null, rfl, rfl, rfl⟩
  | bool b => exact ⟨.bool b, rfl, rfl, rfl⟩
  | str s => exact ⟨.str s, congrArg (fun s => some (Json.str s)) (stringOf_written html s), rfl, rfl⟩
  | leaf t =>
    obtain ⟨m, hm, hcanonical⟩ := hf t (by simp [Json.leaves])
    refine ⟨.num m, ?_, ?_, rfl⟩
    · rw [Json.written, toValue, hm]
      rfl
    · simp [canonicalForm, Json.traverse, Leaf.canonical, hcanonical, Except.toOption]
  | arr xs ih =>
    rw [Json.forall_leaves_arr] at hf
    cases hs with
    | arr hs =>
      obtain ⟨ws, hws, hforms, hds⟩ := toValues_written fun x hx => ih x hx (hs x hx) (hf x hx)
      refine ⟨.arr ws, ?_, Json.traverse_arr.mpr ⟨xs, rfl, hforms⟩, distinct_arr.mpr hds⟩
      rw [Json.written, toValue, hws]
      rfl
  | obj fs ih =>
    rw [Json.forall_leaves_obj] at hf
    cases hs with
    | obj hsorted hs =>
      obtain ⟨ms, hms, hforms, hds⟩ := @toMembers_written html _ [] (fun f _ => List.not_mem_nil) hsorted.nodup
        fun f hf' => ih f hf' (hs f hf') (hf f hf')
      refine ⟨.obj ms, ?_, ?_, distinct_obj.mpr ⟨keys_of_forall₂ (fun _ _ h => h.1) hforms ▸ hsorted.nodup, hds⟩⟩
      · rw [Json.written, toValue, hms]
        rfl
      · rw [canonicalForm, Json.traverse, Json.traverseFields_eq_some.mpr hforms, Option.map_some,
          Fields.ofList_of_sorted hsorted]

/-- The canonical text of a value is that of a value of the same size with the same canonical text. -/
theorem toValue_canonical (h : canonicalForm v = some f) :
    (f.written false).All Sound (fun t => t.noLeadingZero = true) ∧
      ∃ w, toValue (f.written false) = some w ∧ canonicalForm w = some f ∧ w.depth = f.depth ∧
      w.items = f.items := by
  have hstable : ∀ t ∈ f.leaves, Stable t := Json.forall_leaves_of_traverse (fun a t ha => by
    obtain ⟨n, -, hn⟩ := canonical_num ha
    exact decodeNumber_canonical hn) h
  obtain ⟨w, hw, hform, hd⟩ := decodesBack false (Json.sorted_of_traverse h) hstable
  exact ⟨Json.all_written false (sound_escaped false) (tidy_canonicalForm h), w, hw, hform,
    (depth_of_traverse hd hform).symm, (total_of_traverse _ (fun _ _ _ => rfl) hd hform).symm⟩

/-- The canonical text of a value is decoded exactly when it is within the limits, to a value with that text. -/
theorem decodeJSON_canonical (h : canonicalForm v = some f) :
    ∃ w, canonicalForm w = some f ∧
      ∀ l u, decodeJSON l (f.render false).utf8Encode = some u ↔ Fits l (f.bytes false) f ∧ u = w := by
  obtain ⟨hsound, w, hw, hform, hdepth, hitems⟩ := toValue_canonical h
  have hpositive : 0 < f.bytes false := f.items_pos.trans_le (f.items_le_bytes false)
  refine ⟨w, hform, fun l u => ?_⟩
  rw [← Json.text_written, decodeJSON_text hsound, Json.text_written, Json.utf8Length_render, hw, Option.some.injEq]
  constructor
  · rintro ⟨rfl, hfits⟩
    exact ⟨hfits.congr hdepth hitems, rfl⟩
  · rintro ⟨hfits, rfl⟩
    exact ⟨rfl, hfits.congr hdepth.symm hitems.symm⟩

/-! ### The canonical text as a normal form -/

/-- The number that is printed: a text with a point or an exponent stands for the `float64` nearest to it. -/
def Number.printed : Number → Option ℚ
  | .text t => if t.isPlain then some t.value else (Float64.parse t.toNumberText).bind Float64.toRat
  | n => n.value

def Leaf.printed : Leaf → Option ℚ
  | .num n => n.printed
  | .file _ => none

/-- The number a canonical text stands for. -/
def printedValue (t : NumberText) : ℚ := if t.isPlain then t.value else Binary64.round t.value

theorem printedValue_formatInt (i : Int64) : printedValue (formatInt i) = i.toInt := by
  have hmag := value_formatInt i
  rw [printedValue, if_pos (by rfl), NumberText.value, hmag]
  simp only [formatInt, NumberText.ofNat, decide_eq_true_eq]
  split
  · rename_i hneg
    have : ((i.toInt.natAbs : ℕ) : ℤ) = -i.toInt := by omega
    rw [← Int.cast_natCast, this]
    push_cast
    ring
  · rename_i hpos
    have : ((i.toInt.natAbs : ℕ) : ℤ) = i.toInt := by omega
    rw [← Int.cast_natCast, this]

theorem printedValue_formatG (hq : Binary64.Finite q) : printedValue (Float64.formatG q) = q := by
  by_cases hplain : (Float64.formatG q).isPlain = true
  · obtain ⟨i, hi⟩ := formatG_of_isPlain hq hplain
    rw [hi, printedValue_formatInt]
    exact ((formatInt_eq_formatG_iff hq.1).mp hi.symm).1.symm
  · rw [printedValue, if_neg hplain, Float64.round_value_formatG hq.1]

/-- The canonical text stands for the number it was printed for. -/
theorem printed_of_canonical {n : Number} (h : canonicalNumber n = .ok t) : n.printed = some (printedValue t) := by
  have hfloat {x : Float64} (hx : canonicalFloat x = .ok t) : x.toRat = some (printedValue t) := by
    unfold canonicalFloat at hx
    split at hx
    · cases hx
    · rename_i q hq
      cases hx
      rw [hq, printedValue_formatG (Float64.finite_of_toRat hq)]
  cases n with
  | int64 i | int i =>
    cases h
    rw [printedValue_formatInt]
    rfl
  | float x => exact hfloat h
  | text u =>
    simp only [canonicalNumber] at h
    by_cases hplain : u.isPlain = true
    · rw [if_pos hplain] at h
      cases hi : parseInt64 u.negative (digitsValue u.whole) with
      | none =>
        rw [hi] at h
        simp [hplain] at h
      | some i =>
        rw [hi] at h
        cases h
        rw [printedValue_formatInt, Number.printed, if_pos hplain, NumberText.value,
          NumberText.magnitude_of_isPlain hplain, parseInt64_eq_some.mp hi]
        split <;> simp
    · rw [if_neg hplain] at h
      simp only [hplain, Bool.false_eq_true, if_false] at h
      split at h
      · cases h
      · rename_i x hx
        rw [Number.printed, if_neg hplain, hx, Option.bind_some]
        exact hfloat h

/-- Values with one canonical text are the same up to how numbers are printed. -/
theorem same_printed {a b : Value} (ha : canonicalForm a = some f) (hb : canonicalForm b = some f) :
    Json.Same Leaf.printed a b := by
  have hsame : Json.Same Leaf.canonical a b := ⟨f, ha, hb⟩
  refine hsame.imp fun x y h => ?_
  obtain ⟨u, hx, hy⟩ := h
  obtain ⟨t, ht, rfl⟩ := Option.map_eq_some_iff.mp hx
  obtain ⟨t', ht', htt⟩ := Option.map_eq_some_iff.mp hy
  obtain rfl := Json.leaf.inj htt
  obtain ⟨n, rfl, hn⟩ := canonical_num ht
  obtain ⟨m, rfl, hm⟩ := canonical_num ht'
  exact (Json.same_leaf_of_some (printed_of_canonical hn) (printed_of_canonical hm)).mpr rfl

theorem canonicalJSON_eq_some {text : List Char} :
    canonicalJSON v = some text ↔ ∃ f, canonicalForm v = some f ∧ f.render false = text := Option.map_eq_some_iff

/-- Canonical text is decoded, within limits that are no smaller than its length, to a value with the same text, and
equal texts are the texts of equal values, a text number with a point or an exponent standing for its `float64`. -/
theorem canonicalJSON_normal_form :
    (∀ (v : Value) (text : List Char) (l : Limits), canonicalJSON v = some text →
      (text.utf8Encode.size : ℤ) ≤ l.maxBytes.toInt → (text.utf8Encode.size : ℤ) ≤ l.maxDepth.toInt →
      (text.utf8Encode.size : ℤ) ≤ l.maxItems.toInt →
      ∃ w, decodeJSON l text.utf8Encode = some w ∧ canonicalJSON w = some text) ∧
    ∀ (a b : Value) (text : List Char), canonicalJSON a = some text → canonicalJSON b = some text →
      Json.Same Leaf.printed a b := by
  constructor
  · intro v text l h hbytes hdepth hitems
    obtain ⟨f, hf, rfl⟩ := canonicalJSON_eq_some.mp h
    obtain ⟨w, hw, hdecode⟩ := decodeJSON_canonical hf
    rw [size_utf8Encode, Json.utf8Length_render] at hbytes hdepth hitems
    have hle := f.items_le_bytes false
    have hle' := f.depth_le_items
    have hfits : Fits l (f.bytes false) f := ⟨hbytes, by omega, by omega⟩
    exact ⟨w, (hdecode l w).mpr ⟨hfits, rfl⟩, canonicalJSON_eq_some.mpr ⟨f, hw, rfl⟩⟩
  · intro a b text ha hb
    obtain ⟨f, hf, hrender⟩ := canonicalJSON_eq_some.mp ha
    obtain ⟨f', hf', hrender'⟩ := canonicalJSON_eq_some.mp hb
    obtain rfl := Json.render_inj (tidy_canonicalForm hf) (tidy_canonicalForm hf') (hrender.trans hrender'.symm)
    exact same_printed hf hf'

def mixedValue : Value :=
  .obj [("b", Value.num (.float (.finite 1500000 (by decide +kernel)))),
    ("a", .arr [.null, .str "é\n", Value.num (.int64 (-7))])]

def mixedText : List Char := "\x7b\"a\":[null,\"é\\n\",-7],\"b\":1.5e+06\x7d".toList

def mixedLimits : Limits := { maxBytes := 100, maxDepth := 100, maxItems := 100 }

theorem canonicalJSON_normal_form_mixed :
    canonicalJSON mixedValue = some mixedText ∧
      ∃ w, decodeJSON mixedLimits mixedText.utf8Encode = some w ∧ canonicalJSON w = some mixedText :=
  ⟨by decide +kernel, canonicalJSON_normal_form.1 mixedValue mixedText mixedLimits (by decide +kernel)
    (by decide +kernel) (by decide +kernel) (by decide +kernel)⟩

/-- The text `0.5`. -/
def half : JSONNumber := ⟨⟨false, [0], [5], none, zero_ne_nil⟩, by decide⟩

/-- The text `0.50000000000000000001`. -/
def overHalf : JSONNumber := ⟨⟨false, [0], [5] ++ List.replicate 18 0 ++ [1], none, zero_ne_nil⟩, by decide⟩

/-- Texts that denote different numbers are printed alike when one `float64` is nearest to both. -/
theorem canonicalJSON_overHalf :
    ∃ (a b : Value) (text : List Char), canonicalJSON a = some text ∧ canonicalJSON b = some text ∧
      ¬ Json.Same Leaf.data a b :=
  ⟨Value.num (.text half), Value.num (.text overHalf), "0.5".toList, by decide +kernel, by decide +kernel,
    by decide +kernel⟩

/-! ### Keys and limits -/

theorem distinct_toValues (ih : ∀ p ∈ ps, ∀ v, toValue p = some v → distinct v = true) (h : toValues ps = some vs) :
    ∀ v ∈ vs, distinct v = true := by
  induction ps generalizing vs with
  | nil =>
    cases h
    simp
  | cons p ps ihs =>
    rw [List.forall_mem_cons] at ih
    simp only [toValues, Option.bind_eq_some_iff, Option.map_eq_some_iff] at h
    obtain ⟨v, hv, vs, hvs, rfl⟩ := h
    exact List.forall_mem_cons.mpr ⟨ih.1 v hv, ihs ih.2 hvs⟩

theorem distinct_toMembers (ih : ∀ f ∈ fs, ∀ v, toValue f.2 = some v → distinct v = true)
    {ms : List (String × Value)} (h : toMembers seen fs = some ms) :
    (∀ m ∈ ms, m.1 ∉ seen) ∧ (ms.map Prod.fst).Nodup ∧ ∀ m ∈ ms, distinct m.2 = true := by
  induction fs generalizing seen ms with
  | nil =>
    cases h
    simp
  | cons f fs ihs =>
    rw [List.forall_mem_cons] at ih
    simp only [toMembers, Option.ite_none_left_eq_some, Option.bind_eq_some_iff, Option.map_eq_some_iff] at h
    obtain ⟨hnew, v, hv, ms, hms, rfl⟩ := h
    obtain ⟨hseen, hnodup, hall⟩ := ihs ih.2 hms
    simp only [List.mem_cons, not_or] at hseen
    refine ⟨List.forall_mem_cons.mpr ⟨by simpa using hnew, fun m hm => (hseen m hm).2⟩, ?_,
      List.forall_mem_cons.mpr ⟨ih.1 v hv, hall⟩⟩
    rw [List.map_cons, List.nodup_cons, List.mem_map]
    exact ⟨fun ⟨m, hm, heq⟩ => (hseen m hm).1 heq, hnodup⟩

theorem distinct_toValue (p : Parsed) : ∀ v, toValue p = some v → distinct v = true := by
  induction p with
  | null | bool b | str raw => rintro _ ⟨⟩; rfl
  | num t =>
    intro v h
    obtain ⟨n, -, rfl⟩ := Option.map_eq_some_iff.mp h
    rfl
  | arr ps ih =>
    intro v h
    obtain ⟨vs, hvs, rfl⟩ := Option.map_eq_some_iff.mp h
    exact distinct_arr.mpr (distinct_toValues ih hvs)
  | obj fs ih =>
    intro v h
    obtain ⟨ms, hms, rfl⟩ := Option.map_eq_some_iff.mp h
    exact distinct_obj.mpr (distinct_toMembers ih hms).2

/-- The value that some bytes are the text of, whatever its size. -/
def denoted (data : ByteArray) : Option Value :=
  data.utf8Decode?.bind fun cs =>
    if validateJSONUnicode false cs.toList then (parseJson cs.toList).bind toValue else none

/-- Bytes denote at most one value, with no key twice, and the limits decide only whether it is returned: exactly
where its size, its depth and its items are within them. -/
theorem decodeJSON_limits_exact (data : ByteArray) :
    (∀ v ∈ denoted data, distinct v = true) ∧
    ∀ (l : Limits) (v : Value), decodeJSON l data = some v ↔
      denoted data = some v ∧ 0 < l.maxBytes.toInt ∧ Fits l data.size v := by
  have hdenoted (v : Value) : denoted data = some v ↔ ∃ cs p, data.utf8Decode? = some cs ∧
      validateJSONUnicode false cs.toList = true ∧ parseJson cs.toList = some p ∧ toValue p = some v := by
    simp only [denoted, Option.bind_eq_some_iff, Option.ite_none_right_eq_some, exists_and_left]
  constructor
  · intro v hv
    obtain ⟨cs, p, -, -, -, hv⟩ := (hdenoted v).mp hv
    exact distinct_toValue p v hv
  · intro l v
    rw [decodeJSON_eq_some, hdenoted]
    tauto

end Onprest.Contract
