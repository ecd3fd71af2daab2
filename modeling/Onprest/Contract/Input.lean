import Onprest.Contract.Settled

/-! The input of a request validated twice. -/

namespace Onprest.Contract
open Lib

section
variable {lib : Library} {s : Schema} {l : Limits}

/-- The mode in which the input of a request is validated. -/
def Limits.mode (l : Limits) : Mode := { defaults := true, fileLimit := l.maxFileBytes }

theorem validateInput_eq_ok {x : List (String × Value)} {v : Value} {ls : List FileLeaf} :
    validateInput lib s l x = .ok (v, ls) ↔
      checkJSONLimits l (.obj x) = .ok () ∧ Accepts lib l.mode s "" (.obj x) ∧ v = read true s (.obj x) ∧
        ls = leaves l.mode s "" (.obj x) ∧ fileLimitsReason l ls = none ∧ checkJSONLimits l v = .ok () := by
  unfold validateInput
  cases hc : checkJSONLimits l (.obj x) with
  | error e => simp
  | ok u =>
    have hmode : ({ defaults := true, fileLimit := l.maxFileBytes } : Mode) = l.mode := rfl
    rw [hmode]
    cases hv : validate lib l.mode s "" (.obj x) with
    | failed e =>
      have : ¬ Accepts lib l.mode s "" (.obj x) := by
        rintro ⟨w, ms, h⟩
        rw [hv] at h
        cases h
      simp [this]
    | ok w ms =>
      obtain ⟨ha, rfl, rfl⟩ := validate_eq_ok.mp hv
      have hdefaults : l.mode.defaults = true := rfl
      dsimp only
      cases hf : fileLimitsReason l (leaves l.mode s "" (.obj x)) with
      | some e =>
        simp only [reduceCtorEq, false_iff, not_and]
        rintro - - - rfl hnone
        rw [hf] at hnone
        cases hnone
      | none =>
        dsimp only
        cases hc' : checkJSONLimits l (read l.mode.defaults s (.obj x)) with
        | error e =>
          simp only [reduceCtorEq, false_iff, not_and]
          rintro - - rfl - - hok
          rw [← hdefaults, hc'] at hok
          cases hok
        | ok u' =>
          simp only [Except.ok.injEq, Prod.mk.injEq, true_and, ha]
          constructor
          · rintro ⟨rfl, rfl⟩
            exact ⟨rfl, rfl, hf, hc'⟩
          · rintro ⟨rfl, rfl, -, -⟩
            exact ⟨rfl, rfl⟩

theorem read_obj_exists (defaults : Bool) (s : Schema) (x : List (String × Value)) :
    ∃ y, read defaults s (.obj x) = .obj y := by
  cases s
  rw [read_obj]
  exact ⟨_, rfl⟩

/-- Validating the returned object again returns it and the same leaves exactly when no number slipped. -/
theorem validateInput_again {x : List (String × Value)} {v : Value} {ls : List FileLeaf} (hs : InputSchema lib s)
    (h : validateInput lib s l x = .ok (v, ls)) :
    ∃ y, v = .obj y ∧ (validateInput lib s l y = .ok (v, ls) ↔ ¬ HasSlip s (.obj x)) := by
  obtain ⟨-, ha, rfl, rfl, hfiles, hlimits⟩ := validateInput_eq_ok.mp h
  obtain ⟨y, hy⟩ := read_obj_exists true s x
  refine ⟨y, hy, ?_⟩
  rw [validateInput_eq_ok, ← hy]
  constructor
  · rintro ⟨-, -, hread, -⟩ hslip
    exact read_read_ne hs.regular hslip ha hread.symm
  · intro hslip
    have hre := reread hs.regular hslip ha
    exact ⟨hlimits, hre.accepts, hre.read_read.symm, hre.leaves_read.symm, hfiles, hlimits⟩

end

/-- A property that takes integers and other numbers. -/
def unionRaw : RawMap where
  fields := [("properties", .obj [("a", .obj [("type", .arr [.str "integer", .str "number"])])])]
  distinct := by decide

def unionSchema : Schema :=
  .mk { types := [.object], propertiesSet := true } [("a",
    .mk { types := [.integer, .number] } [] none none)] none none

theorem unionSchema_compiled : InputSchema .bare unionSchema := ⟨unionRaw, unionSchema, rfl, .inl rfl⟩

/-- `1.00000000000000000001`. -/
def almostOne : JSONNumber where
  negative := false
  whole := [1]
  fraction := List.replicate 19 0 ++ [1]
  exponent := none
  ne := one_ne_nil
  bounded := by decide

def smallLimits : Limits := { maxBytes := 1000, maxDepth := 10, maxItems := 100 }

theorem finite_one : Binary64.Finite 1 := by decide +kernel

/-- The first validation makes a float of the text and the second an integer of the float. -/
theorem validateInput_almostOne :
    validateInput .bare unionSchema smallLimits [("a", Value.num (.text almostOne))] =
        .ok (.obj [("a", Value.num (.float (.finite 1 finite_one)))], []) ∧
      validateInput .bare unionSchema smallLimits [("a", Value.num (.float (.finite 1 finite_one)))] =
        .ok (.obj [("a", Value.num (.int64 1))], []) := by
  have hleaves (v : Value) := (leaves_of_hasFiles (m := smallLimits.mode) (s := unionSchema) rfl "" v).symm
  constructor
  · refine validateInput_eq_ok.mpr ⟨?_, ?_, ?_, hleaves _, rfl, ?_⟩ <;> decide +kernel
  · refine validateInput_eq_ok.mpr ⟨?_, ?_, ?_, hleaves _, rfl, ?_⟩ <;> decide +kernel

theorem validateInput_again_almostOne :
    InputSchema .bare unionSchema ∧
      ∃ y, .obj [("a", Value.num (.float (.finite 1 finite_one)))] = Json.obj y ∧
        (validateInput .bare unionSchema smallLimits y =
            .ok (.obj [("a", Value.num (.float (.finite 1 finite_one)))], []) ↔
          ¬ HasSlip unionSchema (.obj [("a", Value.num (.text almostOne))])) :=
  ⟨unionSchema_compiled, validateInput_again unionSchema_compiled validateInput_almostOne.1⟩

/-- A number changes its representation on the second pass. -/
theorem validateInput_not_idempotent :
    ∃ y ls, InputSchema .bare unionSchema ∧
      validateInput .bare unionSchema smallLimits [("a", Value.num (.text almostOne))] = .ok (.obj y, ls) ∧
      validateInput .bare unionSchema smallLimits y ≠ .ok (.obj y, ls) := by
  refine ⟨_, _, unionSchema_compiled, validateInput_almostOne.1, ?_⟩
  rw [validateInput_almostOne.2]
  intro h
  simp at h

end Onprest.Contract
