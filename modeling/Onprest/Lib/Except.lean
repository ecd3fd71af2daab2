import Mathlib.Init

/-! When a computation that may fail returns. -/

namespace Onprest.Lib
variable {ε α β : Type}

variable {x : Except ε α} {b : β}

theorem except_bind_eq_ok {f : α → Except ε β} : x >>= f = .ok b ↔ ∃ a, x = .ok a ∧ f a = .ok b := by
  cases x <;> simp [bind, Except.bind]

theorem except_map_eq_ok {f : α → β} : x.map f = .ok b ↔ ∃ a, x = .ok a ∧ f a = b := by
  cases x <;> simp [Except.map]

theorem except_mapError_eq_ok {f : ε → β} {a : α} : x.mapError f = .ok a ↔ x = .ok a := by
  cases x with
  | ok b =>
    constructor
    all_goals
      intro h
      cases h
      rfl
  | error e => exact iff_of_false (by rintro ⟨⟩) (by rintro ⟨⟩)

end Onprest.Lib
