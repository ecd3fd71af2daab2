import Mathlib.Data.List.AList
import Mathlib.Algebra.BigOperators.Group.List.Basic
import Mathlib.Algebra.Order.Ring.Int
import Mathlib.Algebra.Order.BigOperators.Group.List

/-! Finite tables with a constant value type over `AList`: lookups after an update, the number of
entries, filtering and the sum of a measure over all entries. -/

namespace Onprest.Lib

/-- A finite map from keys to values without duplicate keys. -/
abbrev Table (κ ν : Type*) := AList fun _ : κ => ν

namespace Table
section Measures
variable {κ ν : Type*}

/-- The number of entries. -/
def size (t : Table κ ν) : ℕ := t.entries.length

/-- The sum of `f` over all entries. -/
def total (f : ν → ℤ) (t : Table κ ν) : ℤ := (t.entries.map fun e => f e.2).sum

/-- The entries whose value satisfies `p`. -/
def filter (p : ν → Bool) (t : Table κ ν) : Table κ ν :=
  ⟨t.entries.filter fun e => p e.2, t.nodupKeys.sublist List.filter_sublist⟩

/-- Some value satisfies `p`. -/
def any (p : ν → Bool) (t : Table κ ν) : Bool := t.entries.any fun e => p e.2

/-- Apply `g` to every value. -/
def map (g : ν → ν) (t : Table κ ν) : Table κ ν :=
  ⟨t.entries.map fun e => ⟨e.1, g e.2⟩, by
    have h : (t.entries.map fun e => (⟨e.1, g e.2⟩ : Sigma fun _ : κ => ν)).keys = t.keys := by
      simp [List.keys, AList.keys, Function.comp_def]
    rw [List.NodupKeys, h]
    exact t.keys_nodup⟩

theorem size_filter_le (p : ν → Bool) (t : Table κ ν) : size (t.filter p) ≤ size t :=
  List.length_filter_le _ _

@[simp] theorem size_map (g : ν → ν) (t : Table κ ν) : size (t.map g) = size t :=
  List.length_map _

theorem total_map {f : ν → ℤ} {g : ν → ν} (h : ∀ v, f (g v) = f v) (t : Table κ ν) :
    total f (t.map g) = total f t := by
  simp only [total, map, List.map_map, Function.comp_def, h]

end Measures

variable {κ ν : Type*} [DecidableEq κ]

variable {t : Table κ ν} {k k' : κ} {v : ν} {p : ν → Bool}

theorem lookup_insert_eq : (t.insert k v).lookup k' = if k' = k then some v else t.lookup k' := by
  by_cases h : k' = k
  · subst h
    simp
  · simp [h]

theorem lookup_erase_eq : (t.erase k).lookup k' = if k' = k then none else t.lookup k' := by
  by_cases h : k' = k
  · subst h
    simp
  · rw [AList.lookup_erase_ne h, if_neg h]

theorem mem_of_lookup (h : t.lookup k = some v) : k ∈ t :=
  AList.lookup_isSome.mp (by rw [h]; rfl)

theorem mem_entries : ⟨k, v⟩ ∈ t.entries ↔ t.lookup k = some v :=
  AList.mem_lookup_iff.symm

theorem perm_cons_erase (h : t.lookup k = some v) : t.entries.Perm (⟨k, v⟩ :: (t.erase k).entries) := by
  obtain ⟨w, l₁, l₂, -, hl, he⟩ := List.exists_of_kerase (AList.mem_keys.mp (mem_of_lookup h))
  have hw : t.lookup k = some w := by
    rw [← mem_entries, hl]
    simp
  obtain rfl : w = v := by simpa [h] using hw.symm
  change t.entries.Perm (_ :: List.kerase k t.entries)
  rw [he, hl]
  exact List.perm_middle

theorem size_erase (h : t.lookup k = some v) : size (t.erase k) + 1 = size t := by
  rw [size, size, (perm_cons_erase h).length_eq, List.length_cons]

theorem size_erase_le (t : Table κ ν) (k : κ) : size (t.erase k) ≤ size t :=
  (List.kerase_sublist k t.entries).length_le

theorem size_insert_le (t : Table κ ν) (k : κ) (v : ν) : size (t.insert k v) ≤ size t + 1 := by
  rw [size, AList.entries_insert, List.length_cons]
  exact Nat.succ_le_succ (List.kerase_sublist k t.entries).length_le

theorem size_insert {w : ν} (h : t.lookup k = some v) : size (t.insert k w) = size t := by
  rw [← size_erase h, size, AList.entries_insert, List.length_cons]
  rfl

theorem total_erase (f : ν → ℤ) (h : t.lookup k = some v) : total f (t.erase k) = total f t - f v := by
  have hsum := ((perm_cons_erase h).map fun e => f e.2).sum_eq
  rw [List.map_cons, List.sum_cons] at hsum
  exact (sub_eq_of_eq_add' hsum).symm

theorem total_insert (w : ν) (f : ν → ℤ) (h : t.lookup k = some v) :
    total f (t.insert k w) = total f t + (f w - f v) := by
  have herase := total_erase f h
  rw [total, AList.entries_insert, List.map_cons, List.sum_cons]
  change f w + total f (t.erase k) = _
  omega

theorem total_insert_new (w : ν) (f : ν → ℤ) (h : t.lookup k = none) : total f (t.insert k w) = total f t + f w := by
  rw [total, AList.entries_insert_of_notMem (AList.lookup_eq_none.mp h), List.map_cons, List.sum_cons]
  exact add_comm _ _

theorem total_bounds {f : ν → ℤ} {c : ℤ} (h : ∀ k v, t.lookup k = some v → 0 ≤ f v ∧ f v ≤ c) :
    0 ≤ total f t ∧ total f t ≤ t.size * c := by
  have hmem : ∀ x ∈ t.entries.map fun e => f e.2, 0 ≤ x ∧ x ≤ c := by
    intro x hx
    obtain ⟨e, he, rfl⟩ := List.mem_map.mp hx
    exact h e.1 e.2 (mem_entries.mp he)
  constructor
  · exact List.sum_nonneg fun x hx => (hmem x hx).1
  · have hsum := List.sum_le_card_nsmul _ c fun x hx => (hmem x hx).2
    simpa [total, size] using hsum

theorem any_of_lookup (h : t.lookup k = some v) (hp : p v = true) : any p t = true :=
  List.any_eq_true.mpr ⟨⟨k, v⟩, mem_entries.mpr h, hp⟩

theorem lookup_filter : (t.filter p).lookup k = (t.lookup k).filter p := by
  cases h : t.lookup k with
  | none =>
    rw [Option.filter_none, AList.lookup_eq_none, AList.mem_keys]
    intro hk
    have hsub : (t.filter p).keys.Sublist t.keys := List.filter_sublist.map _
    exact AList.lookup_eq_none.mp h (AList.mem_keys.mpr (hsub.subset hk))
  | some v =>
    by_cases hp : p v = true
    · rw [Option.filter_some, if_pos hp, ← mem_entries]
      exact List.mem_filter.mpr ⟨mem_entries.mpr h, hp⟩
    · rw [Option.filter_some, if_neg hp]
      cases hk : (t.filter p).lookup k with
      | none => rfl
      | some w =>
        obtain ⟨hw, hpw⟩ := List.mem_filter.mp (mem_entries.mpr hk)
        obtain rfl : v = w := by simpa [h] using mem_entries.mp hw
        exact absurd hpw hp

theorem lookup_map {g : ν → ν} : (t.map g).lookup k = (t.lookup k).map g := by
  cases h : t.lookup k with
  | none =>
    have hkeys : (t.map g).keys = t.keys := by simp [map, List.keys, AList.keys, Function.comp_def]
    rw [Option.map_none, AList.lookup_eq_none, AList.mem_keys, hkeys, ← AList.mem_keys]
    exact AList.lookup_eq_none.mp h
  | some v =>
    rw [Option.map_some, ← mem_entries]
    exact List.mem_map.mpr ⟨⟨k, v⟩, mem_entries.mpr h, rfl⟩

end Table
end Onprest.Lib
