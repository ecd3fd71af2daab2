import Mathlib.Data.List.Sort
import Mathlib.Order.Defs.LinearOrder

/-! Ranking: sorting by a key with ties broken by a second key, and what any sorting algorithm returns for it. -/

namespace Onprest.Lib

/-- A comparison that a sorting algorithm may be given: a strict order whose ties are transitive. -/
structure StrictWeak {α : Type*} (less : α → α → Bool) : Prop where
  irrefl : ∀ a, less a a = false
  trans : ∀ a b c, less a b = true → less b c = true → less a c = true
  ties : ∀ a b c, less a b = false → less b c = false → less a c = false

/-- A sorting algorithm, which need not be stable. -/
structure Sorting (α : Type*) where
  sort : (α → α → Bool) → List α → List α
  perm : ∀ less l, (sort less l).Perm l
  sorted : ∀ less l, StrictWeak less → (sort less l).Pairwise fun a b => less b a = false

theorem StrictWeak.total {α : Type*} {less : α → α → Bool} (h : StrictWeak less) (a b : α) :
    less b a = false ∨ less a b = false := by
  cases hba : less b a with
  | false => exact .inl rfl
  | true =>
    cases hab : less a b with
    | false => exact .inr rfl
    | true => exact .inl ((h.trans b a b hba hab).symm.trans (h.irrefl b))

/-- Insertion sort. -/
def Sorting.insertion (α : Type*) : Sorting α where
  sort less l := l.insertionSort fun a b => less b a = false
  perm less l := List.perm_insertionSort _ l
  sorted less l h := by
    have htotal : Std.Total fun a b : α => less b a = false := ⟨h.total⟩
    have htrans : IsTrans α fun a b => less b a = false := ⟨fun a b c hab hbc => h.ties c b a hbc hab⟩
    exact List.pairwise_insertionSort _ l

section Ranking
variable {α κ π : Type*} [LinearOrder κ] [LinearOrder π]

/-- Compare by `key`, ascending or descending, and by `tie` where the keys are equal. -/
def rankLess (key : α → κ) (tie : α → π) (desc : Bool) (a b : α) : Bool :=
  match compare (key a) (key b) with
  | .eq => decide (tie a < tie b)
  | .lt => !desc
  | .gt => desc

variable {key : α → κ} {tie : α → π} {desc : Bool} {a b : α}

theorem rankLess_iff :
    rankLess key tie desc a b = true ↔
      (if desc then key b < key a else key a < key b) ∨ key a = key b ∧ tie a < tie b := by
  rw [rankLess]
  cases hcompare : compare (key a) (key b) with
  | eq =>
    rw [compare_eq_iff_eq] at hcompare
    simp [hcompare]
  | lt =>
    rw [compare_lt_iff_lt] at hcompare
    simp [hcompare, hcompare.ne, hcompare.not_gt]
  | gt =>
    rw [compare_gt_iff_gt] at hcompare
    simp [hcompare, hcompare.ne', hcompare.not_gt]

theorem rankLess_eq_false_iff :
    rankLess key tie desc a b = false ↔
      (if desc then key a < key b else key b < key a) ∨ key a = key b ∧ tie b ≤ tie a := by
  rw [← Bool.not_eq_true, rankLess_iff]
  rcases lt_trichotomy (key a) (key b) with h | h | h
  · cases desc <;> simp [h, h.ne, h.not_gt]
  · simp [h]
  · cases desc <;> simp [h, h.ne', h.not_gt]

theorem strictWeak_rankLess (key : α → κ) (tie : α → π) (desc : Bool) : StrictWeak (rankLess key tie desc) where
  irrefl a := by
    rw [rankLess_eq_false_iff]
    exact .inr ⟨rfl, le_rfl⟩
  trans a b c hab hbc := by
    rw [rankLess_iff] at hab hbc ⊢
    rcases hab with hab | ⟨hab, htie⟩ <;> rcases hbc with hbc | ⟨hbc, htie'⟩
    · left
      cases desc
      · exact lt_trans hab hbc
      · exact lt_trans hbc hab
    · exact .inl (hbc ▸ hab)
    · exact .inl (hab ▸ hbc)
    · exact .inr ⟨hab.trans hbc, htie.trans htie'⟩
  ties a b c hab hbc := by
    rw [rankLess_eq_false_iff] at hab hbc ⊢
    rcases hab with hab | ⟨hab, htie⟩ <;> rcases hbc with hbc | ⟨hbc, htie'⟩
    · left
      cases desc
      · exact lt_trans hbc hab
      · exact lt_trans hab hbc
    · exact .inl (hbc ▸ hab)
    · exact .inl (hab ▸ hbc)
    · exact .inr ⟨hab.trans hbc, htie'.trans htie⟩

/-- Only elements with the same tie key are not ranked. -/
theorem tie_eq_of_not_less (hab : rankLess key tie desc a b = false) (hba : rankLess key tie desc b a = false) :
    tie a = tie b := by
  rw [rankLess_eq_false_iff] at hab hba
  rcases hab with hab | ⟨hab, htie⟩ <;> rcases hba with hba | ⟨hba, htie'⟩
  · cases desc <;> exact absurd hab hba.not_gt
  · cases desc <;> simp [hba] at hab
  · cases desc <;> simp [hab] at hba
  · exact le_antisymm htie' htie

end Ranking

section Sorted
variable {α : Type*} {less : α → α → Bool}

variable {l : List α}

/-- Where no two elements tie, a sorted list is strictly sorted. -/
theorem pairwise_less_of_sorted {π : Type*} {tie : α → π}
    (hties : ∀ a b, less a b = false → less b a = false → tie a = tie b) (hnodup : (l.map tie).Nodup)
    (hsorted : l.Pairwise fun a b => less b a = false) : l.Pairwise fun a b => less a b = true := by
  have hne : l.Pairwise fun a b => tie a ≠ tie b := List.pairwise_map.mp hnodup
  refine (hsorted.and hne).imp ?_
  rintro a b ⟨hba, htie⟩
  by_contra hab
  exact htie (hties a b (by simpa using hab) hba)

/-- Two strictly sorted lists with the same elements are equal. -/
theorem eq_of_pairwise_less (h : StrictWeak less) {m : List α} (hl : l.Pairwise fun a b => less a b = true)
    (hm : m.Pairwise fun a b => less a b = true) (hmem : ∀ a, a ∈ l ↔ a ∈ m) : l = m := by
  have hne : ∀ {k : List α}, k.Pairwise (fun a b => less a b = true) → k.Nodup := by
    intro k hk
    refine hk.imp ?_
    rintro a b hab rfl
    rw [h.irrefl] at hab
    cases hab
  apply List.Perm.eq_of_pairwise ?_ hl hm ((List.perm_ext_iff_of_nodup (hne hl) (hne hm)).mpr hmem)
  intro a b _ _ hab hba
  have haa := h.trans a b a hab hba
  rw [h.irrefl] at haa
  cases haa

end Sorted
end Onprest.Lib
