import Onprest.Contract.Input

/-! Positions of a value and the nodes of the schema that read them; and where a whole number within `int64` keeps
its value in the object that validation returns. -/

namespace Onprest.Contract
open Lib

/-! ### Positions -/

inductive Step
  | key (k : String)
  | index (n : ℕ)
deriving DecidableEq

/-- The value at a position. -/
def valueAt : List Step → Value → Option Value
  | [], v => some v
  | .key k :: p, .obj fs => (Fields.get k fs).bind (valueAt p)
  | .index n :: p, .arr xs => xs[n]?.bind (valueAt p)
  | _ :: _, _ => none

/-- The node that reads the value at a position. -/
def nodeAt : List Step → Schema → Schema
  | [], s => s
  | .key k :: p, s => nodeAt p (member s.properties s.additional k)
  | .index _ :: p, s => nodeAt p (below s.items)

/-- The steps to a value lead through an object or an array. -/
theorem valueAt_cons_eq_some {c : Step} {p : List Step} {v x : Value} (h : valueAt (c :: p) v = some x) :
    (∃ k fs y, c = .key k ∧ v = .obj fs ∧ Fields.get k fs = some y ∧ valueAt p y = some x) ∨
      ∃ n xs y, c = .index n ∧ v = .arr xs ∧ xs[n]? = some y ∧ valueAt p y = some x := by
  cases c with
  | key k =>
    cases v with
    | obj fs =>
      obtain ⟨y, hy, hx⟩ := Option.bind_eq_some_iff.mp h
      exact .inl ⟨k, fs, y, rfl, rfl, hy, hx⟩
    | _ => cases h
  | index n =>
    cases v with
    | arr xs =>
      obtain ⟨y, hy, hx⟩ := Option.bind_eq_some_iff.mp h
      exact .inr ⟨n, xs, y, rfl, rfl, hy, hx⟩
    | _ => cases h

variable {s : Schema} {n : Number}

theorem everywhere_nodeAt {P : Schema → Prop} (hfree : P .free) (hs : s.Everywhere P) (p : List Step) :
    (nodeAt p s).Everywhere P := by
  induction p generalizing s with
  | nil => exact hs
  | cons c p ih =>
    cases hs with
    | mk node properties items additional =>
      cases c with
      | key k => exact ih (everywhere_member hfree properties additional k)
      | index n => exact ih (everywhere_below hfree items)

section
variable {lib : Library} {m : Mode}

variable {s : Schema} {v x : Value} {p : List Step}

theorem accepts_nodeAt {pointer : String} (h : Accepts lib m s pointer v) (hx : valueAt p v = some x) :
    ∃ q, Accepts lib m (nodeAt p s) q x := by
  induction p generalizing s pointer v with
  | nil =>
    cases hx
    exact ⟨pointer, h⟩
  | cons c p ih =>
    obtain ⟨r, ps, i, a⟩ := s
    rcases valueAt_cons_eq_some hx with ⟨k, fs, y, rfl, rfl, hy, hx⟩ | ⟨n, xs, y, rfl, rfl, hy, hx⟩
    · exact ih (accepts_member h hy) hx
    · obtain ⟨q, hq⟩ := accepts_item (file_eq_none h nofun nofun) h (List.mem_of_getElem? hy)
      exact ih hq hx

/-- The value at a position, read by the node of the position. -/
theorem valueAt_read (hs : s.Everywhere (Regular lib)) (defaults : Bool) (hx : valueAt p v = some x) :
    valueAt p (read defaults s v) = some (read defaults (nodeAt p s) x) := by
  induction p generalizing s v with
  | nil =>
    cases hx
    rfl
  | cons c p ih =>
    cases hs with
    | @mk r ps i a node properties items additional =>
      rcases valueAt_cons_eq_some hx with ⟨k, fs, y, rfl, rfl, hy, hx⟩ | ⟨n, xs, y, rfl, rfl, hy, hx⟩
      · obtain ⟨gs, hread, hgs⟩ := membersRead defaults ps node.distinct r i a fs
        have hget : Fields.get k gs = some (read defaults (member ps a k) y) := by
          rcases member_cases ps a k with hmem | ⟨hk, heq⟩
          · rw [hgs.property _ hmem, propertyValue, hy]
            rfl
          · rw [hgs.other k hk, hy, heq]
            rfl
        rw [hread, valueAt, hget]
        exact ih (everywhere_member (regular_free lib) properties additional k) hx
      · rw [read_arr, valueAt, List.getElem?_map, hy]
        exact ih (everywhere_below (regular_free lib) items) hx

end

/-! ### The nodes of an input schema -/

/-- What only depends on the rules of a node, the limits of its file apart, on the names of its properties and on
whether it has elements and other members is not changed by the limits of a policy. -/
theorem everywhere_resolve {P : Rules → List String → Bool → Option Schema → Prop}
    (hfile : ∀ {r names items a} file, file.isSome = r.file.isSome → P r names items a →
      P { r with file } names items a)
    {max : Int64} {s' : Schema}
    (hs : s.Everywhere fun t => P t.rules (t.properties.map Prod.fst) t.items.isSome t.additional)
    (h : resolveFileLimits max s = .ok s') :
    s'.Everywhere fun t => P t.rules (t.properties.map Prod.fst) t.items.isSome t.additional := by
  induction s generalizing s' with
  | mk r ps i a hps hi ha =>
    obtain ⟨file, ps', i', rfl, hlimit, hps', hi'⟩ := resolveFileLimits_eq_ok h
    obtain ⟨hnames, hall⟩ := resolveProperties_eq_ok hps'
    cases hs with
    | mk node properties items additional =>
      have hitems : i'.isSome = i.isSome ∧ ∀ t' ∈ i', ∃ t ∈ i, resolveFileLimits max t = .ok t' := by
        cases i with
        | none =>
          cases hi'
          exact ⟨rfl, nofun⟩
        | some u =>
          rw [resolveItems, except_bind_eq_ok] at hi'
          obtain ⟨u', hu, hi'⟩ := hi'
          cases hi'
          refine ⟨rfl, ?_⟩
          rintro _ ⟨rfl⟩
          exact ⟨u, rfl, hu⟩
      refine .mk ?_ ?_ ?_ additional
      · simp only [Schema.properties_mk, hnames, Schema.items_mk, hitems.1]
        exact hfile file (isSome_resolveFile hlimit) node
      · intro q' hq'
        obtain ⟨t, ht, hq⟩ := hall q' hq'
        exact hps _ ht (properties _ ht) hq
      · intro t' ht'
        obtain ⟨t, ht, hq⟩ := hitems.2 t' ht'
        exact hi t ht (items t ht) hq

theorem InputSchema.input {lib : Library} (h : InputSchema lib s) :
    s.Everywhere fun t => t.rules.output = false := by
  obtain ⟨m, t, ht, hst⟩ := h
  have compiled : t.Everywhere fun t => t.rules.output = false := by
    refine (compileSchema_eq_ok ht).imp fun t node => ?_
    cases node with
    | file => rfl
    | node base declared => exact base.output
  rcases hst with rfl | ⟨max, hmax⟩
  · exact compiled
  · exact everywhere_resolve (P := fun r _ _ _ => r.output = false) (fun _ _ h => h) compiled hmax

/-! ### Whole numbers -/

/-- Where a number with a value of `int64` is kept exactly: at positions for integers; at positions without a type
unless it is a text with a fraction or an exponent; and everywhere if it is a `float64` as well. -/
def Exact (r : Rules) (n : Number) (i : Int64) : Prop :=
  .integer ∈ r.types ∨ r.types = [] ∧ (∀ t, n = .text t → t.isPlain = true) ∨ Binary64.round i.toInt = i.toInt

theorem finiteNumber_of_value {q : ℚ} {f : Float64} (h : n.value = some q) (hf : n.finiteNumber = some f) :
    f.toRat = some (Binary64.round q) := by
  cases n with
  | int64 j | int j | text t =>
    cases h
    exact Float64.toRat_ofRat hf
  | float x =>
    rw [Number.finiteNumber] at hf
    split at hf
    · cases hf
      have hx : f.toRat = some q := h
      rw [hx, (Float64.finite_of_toRat hx).1]
    · cases hf

theorem value_normalizeNumber {r : Rules} {k : Number} {t : JType} {i : Int64} (hr : r.output = false)
    (h : normalizeNumber r n = .ok (t, k)) (hn : n.value = some (i.toInt : ℚ)) :
    k.value = some (i.toInt : ℚ) ↔ Exact r n i := by
  have float {f : Float64} (hf : n.finiteNumber = some f) :
      (Number.float f).value = some (i.toInt : ℚ) ↔ Binary64.round i.toInt = i.toInt := by
    rw [Number.value, finiteNumber_of_value hn hf, Option.some.injEq]
  rcases normalizeNumber_eq_ok.mp h with ⟨hint, j, hj, rfl, rfl⟩ | ⟨hnot, rfl, hk⟩
  · have hj := Number.value_exactInteger hj
    exact iff_of_true (hj.symm.trans hn) (.inl hint)
  · unfold normalizeFloat at hk
    cases hf : n.finiteNumber with
    | none =>
      rw [hf] at hk
      cases hk
    | some f =>
      rw [hf] at hk
      dsimp only at hk
      split at hk
      · rename_i types
        have exact_of_kept (hk : k = .int64 i) (kept : ∀ t, n = .text t → t.isPlain = true) :
            k.value = some (i.toInt : ℚ) ↔ Exact r n i :=
          iff_of_true (by rw [hk]; rfl) (.inr (.inl ⟨types, kept⟩))
        cases n with
        | int64 j | int j =>
          have : j = i := Int64.toInt_inj.mp (by exact_mod_cast Option.some.inj hn)
          cases hk
          exact exact_of_kept (by rw [this]) (by simp)
        | text t =>
          dsimp only at hk
          split at hk
          · rename_i hp
            split at hk
            · cases hk
            · rename_i j hj
              cases hk
              have : j = i := by
                rw [parseInt64_eq_some] at hj
                have hvalue := Option.some.inj hn
                rw [NumberText.value, NumberText.magnitude_of_isPlain hp] at hvalue
                refine Int64.toInt_inj.mp ?_
                rw [hj]
                split at hvalue <;> simp_all <;> exact_mod_cast hvalue
              refine exact_of_kept (by rw [this]) ?_
              rintro _ ⟨⟩
              exact hp
          · rename_i hp
            cases hk
            rw [float hf, Exact, types]
            simp [hp]
        | float x =>
          cases hk
          have hx : x.toRat = some (i.toInt : ℚ) := hn
          have fixed := (Float64.finite_of_toRat hx).1
          rw [float hf]
          exact iff_of_true fixed (.inr (.inr fixed))
      · rename_i types
        rw [hr] at hk
        cases hk
        rw [float hf, Exact]
        refine ⟨fun h => .inr (.inr h), ?_⟩
        rintro (hint | ⟨h, -⟩ | h)
        · -- only a float is a whole number that is not taken for an integer
          have hexact := (hnot hint).1
          cases n with
          | int64 j => cases hexact
          | int j => cases hexact
          | text t =>
            have := (jsonNumberInt64_eq_some t (i := i)).mpr (Option.some.inj hn)
            rw [Number.exactInteger, this] at hexact
            cases hexact
          | float x =>
            have hx : x.toRat = some (i.toInt : ℚ) := hn
            exact (Float64.finite_of_toRat hx).1
        · exact absurd h types
        · exact h

/-- A whole number within `int64` in an accepted object is a number at the same position of the object returned, and
has the same value there exactly where it is kept. -/
theorem integers_kept_iff {lib : Library} {s : Schema} {l : Limits} {x : List (String × Value)} {v : Value}
    {ls : List FileLeaf} (hs : InputSchema lib s) (h : validateInput lib s l x = .ok (v, ls))
    {p : List Step} {n : Number}
    {i : Int64} (hp : valueAt p (.obj x) = some (.num n)) (hn : n.value = some (i.toInt : ℚ)) :
    ∃ k, valueAt p v = some (.num k) ∧ (k.value = some (i.toInt : ℚ) ↔ Exact (nodeAt p s).rules n i) := by
  obtain ⟨-, accepted, rfl, -⟩ := validateInput_eq_ok.mp h
  have hread := valueAt_read hs.regular true hp
  obtain ⟨q, node⟩ := accepts_nodeAt accepted hp
  have input : (nodeAt p s).rules.output = false :=
    (everywhere_nodeAt (P := fun t => t.rules.output = false) rfl hs.input p).here
  cases hnode : nodeAt p s with
  | mk r ps items a =>
    rw [hnode] at hread node input
    obtain ⟨t, k, hk, -⟩ := (accepts_num (file_eq_none node nofun nofun)).mp node
    refine ⟨k, ?_, value_normalizeNumber input hk hn⟩
    rw [hread, read, readNumber, hk]

/-- `9.007199254740993e15`, one more than `2 ^ 53`. -/
def scientificWide : JSONNumber where
  negative := false
  whole := [9]
  fraction := [0, 0, 7, 1, 9, 9, 2, 5, 4, 7, 4, 0, 9, 9, 3]
  exponent := some ⟨false, none, [1, 5], by decide⟩
  ne := by decide
  bounded := by decide

theorem validateInput_wide : validateInput .bare unionSchema smallLimits [("a", Value.num (.text scientificWide))] =
    .ok (.obj [("a", Value.num (.int64 9007199254740993))], []) := by
  have noLeaves (v : Value) := (leaves_of_hasFiles (m := smallLimits.mode) (s := unionSchema) rfl "" v).symm
  refine validateInput_eq_ok.mpr ⟨?_, ?_, ?_, noLeaves _, rfl, ?_⟩ <;> decide +kernel

theorem integers_kept_iff_wide :
    ∃ k, valueAt [.key "a"] (.obj [("a", Value.num (.int64 9007199254740993))]) = some (Value.num k) ∧
      (k.value = some (((9007199254740993 : Int64).toInt : ℤ) : ℚ) ↔
        Exact (nodeAt [.key "a"] unionSchema).rules (.text scientificWide) 9007199254740993) :=
  integers_kept_iff unionSchema_compiled validateInput_wide rfl (by decide +kernel)

/-- A property that takes numbers. -/
def numberRaw : RawMap where
  fields := [("properties", .obj [("a", .obj [("type", .str "number")])])]
  distinct := by decide

def numberSchema : Schema :=
  .mk { types := [.object], propertiesSet := true } [("a", .mk { types := [.number] } [] none none)] none none

theorem finite_wide : Binary64.Finite 9007199254740992 := by decide +kernel

/-- At a position for numbers `2 ^ 53 + 1` becomes the `float64` next to it. -/
theorem integer_rounded :
    InputSchema .bare numberSchema ∧
      validateInput .bare numberSchema smallLimits [("a", Value.num (.int64 9007199254740993))] =
        .ok (.obj [("a", Value.num (.float (.finite 9007199254740992 finite_wide)))], []) ∧
      (Number.float (.finite 9007199254740992 finite_wide)).value ≠ (Number.int64 9007199254740993).value := by
  refine ⟨⟨numberRaw, numberSchema, rfl, .inl rfl⟩, ?_, by decide +kernel⟩
  have noLeaves (v : Value) := (leaves_of_hasFiles (m := smallLimits.mode) (s := numberSchema) rfl "" v).symm
  refine validateInput_eq_ok.mpr ⟨?_, ?_, ?_, noLeaves _, rfl, ?_⟩ <;> decide +kernel

end Onprest.Contract
