import Mathlib.Order.Lattice
import Mathlib.Data.List.Nodup

/-! Finite maps as association lists in strictly increasing key order: writing a key keeps the order, so two
maps with the same lookups are the same list. -/

namespace Onprest.Lib

/-- The members of a finite map, in the order in which they were written down. -/
abbrev Fields (κ α : Type*) := List (κ × α)

namespace Fields
variable {κ α β : Type*}

section Lookup
variable [DecidableEq κ]

/-- The value of the first member named `k`. -/
def get (k : κ) : Fields κ α → Option α
  | [] => none
  | (k', a) :: fs => if k = k' then some a else get k fs

@[simp] theorem get_nil (k : κ) : get k ([] : Fields κ α) = none := rfl

@[simp] theorem get_cons_self (k : κ) (a : α) (fs : Fields κ α) : get k ((k, a) :: fs) = some a := by
  simp [get]

theorem get_cons_ne {k k' : κ} (h : k ≠ k') (a : α) (fs : Fields κ α) : get k ((k', a) :: fs) = get k fs := by
  simp [get, h]

theorem mem_of_get {k : κ} {a : α} {fs : Fields κ α} (h : get k fs = some a) : (k, a) ∈ fs := by
  induction fs with
  | nil => cases h
  | cons f fs ih =>
    obtain ⟨k', a'⟩ := f
    by_cases hk : k = k'
    · subst hk
      rw [get_cons_self] at h
      cases h
      exact List.mem_cons_self
    · rw [get_cons_ne hk] at h
      exact List.mem_cons_of_mem _ (ih h)

variable {k : κ} {fs : Fields κ α}

theorem get_isSome : (get k fs).isSome ↔ ∃ a, (k, a) ∈ fs := by
  constructor
  · intro h
    obtain ⟨a, ha⟩ := Option.isSome_iff_exists.mp h
    exact ⟨a, mem_of_get ha⟩
  · rintro ⟨a, ha⟩
    induction fs with
    | nil => cases ha
    | cons f fs ih =>
      obtain ⟨k', a'⟩ := f
      by_cases hk : k = k'
      · simp [get, hk]
      · rw [get_cons_ne hk]
        refine ih ?_
        rcases List.mem_cons.mp ha with h | h
        · exact absurd (Prod.mk.inj h).1 hk
        · exact h

theorem get_eq_none : get k fs = none ↔ k ∉ fs.map Prod.fst := by
  rw [← Option.not_isSome_iff_eq_none, get_isSome]
  simp

theorem get_append (k : κ) (fs gs : Fields κ α) : get k (fs ++ gs) = (get k fs).or (get k gs) := by
  induction fs with
  | nil => simp
  | cons f fs ih =>
    obtain ⟨k', a⟩ := f
    by_cases hk : k = k'
    · subst hk
      simp
    · simp [get_cons_ne hk, ih]

theorem get_map (g : α → β) (k : κ) (fs : Fields κ α) :
    get k (fs.map fun f => (f.1, g f.2)) = (get k fs).map g := by
  induction fs with
  | nil => rfl
  | cons f fs ih =>
    obtain ⟨k', a⟩ := f
    by_cases hk : k = k'
    · subst hk
      simp
    · simp only [List.map_cons, get_cons_ne hk]
      exact ih

/-- The fields that `g` keeps, under distinct keys. -/
theorem get_filterMap (g : κ → α → Option β) (hn : (fs.map Prod.fst).Nodup) (k : κ) :
    get k (fs.filterMap fun f => (g f.1 f.2).map (f.1, ·)) = (get k fs).bind (g k) := by
  induction fs with
  | nil => rfl
  | cons f fs ih =>
    obtain ⟨k', a⟩ := f
    obtain ⟨hk', hn⟩ := List.nodup_cons.mp hn
    have ih := ih hn
    rw [List.filterMap_cons]
    by_cases hk : k = k'
    · subst hk
      rw [get_cons_self, Option.bind_some]
      cases hg : g k a with
      | none =>
        rw [get_eq_none.mpr hk'] at ih
        exact ih
      | some x => exact get_cons_self _ _ _
    · rw [get_cons_ne hk]
      cases hg : g k' a with
      | none => exact ih
      | some x => exact (get_cons_ne hk _ _).trans ih

/-- Without repeated names every member is found under its name. -/
theorem get_of_mem (hn : (fs.map Prod.fst).Nodup) {a : α} (h : (k, a) ∈ fs) : get k fs = some a := by
  induction fs with
  | nil => cases h
  | cons f fs ih =>
    obtain ⟨k', a'⟩ := f
    rw [List.map_cons, List.nodup_cons] at hn
    rcases List.mem_cons.mp h with he | hm
    · obtain ⟨rfl, rfl⟩ := Prod.mk.inj he
      exact get_cons_self _ _ _
    · have hk : k ≠ k' := by
        rintro rfl
        exact hn.1 (List.mem_map.mpr ⟨(k, a), hm, rfl⟩)
      rw [get_cons_ne hk]
      exact ih hn.2 hm

end Lookup

section Sorted
variable [LinearOrder κ]

/-- Write member `k`, keeping the key order. -/
def set (k : κ) (a : α) : Fields κ α → Fields κ α
  | [] => [(k, a)]
  | (k', a') :: fs =>
    if k < k' then (k, a) :: (k', a') :: fs
    else if k = k' then (k, a) :: fs
    else (k', a') :: set k a fs

/-- The map with the members of the list; of two members with one name the first counts. -/
def ofList (fs : Fields κ α) : Fields κ α := fs.foldr (fun f m => set f.1 f.2 m) []

/-- Names strictly increase along the list. -/
def Sorted (fs : Fields κ α) : Prop := fs.Pairwise fun f g => f.1 < g.1

theorem get_set (k k' : κ) (a : α) (fs : Fields κ α) :
    get k' (set k a fs) = if k' = k then some a else get k' fs := by
  induction fs with
  | nil => simp [set, get]
  | cons f fs ih =>
    obtain ⟨k₀, a₀⟩ := f
    by_cases hlt : k < k₀
    · simp [set, get, hlt]
    · by_cases heq : k = k₀
      · subst heq
        by_cases hk : k' = k <;> simp [set, get, hk]
      · simp only [set, hlt, heq, if_false, get, ih]
        by_cases hk : k' = k₀
        · have : k' ≠ k := fun h => heq (h ▸ hk)
          simp [hk, Ne.symm heq]
        · simp [hk]

variable {k : κ} {a : α} {fs : Fields κ α} {f : κ × α}

theorem mem_set (h : f ∈ set k a fs) : f = (k, a) ∨ f ∈ fs := by
  induction fs with
  | nil => exact .inl (by simpa [set] using h)
  | cons g fs ih =>
    obtain ⟨k₀, a₀⟩ := g
    simp only [set] at h
    split at h
    · rcases List.mem_cons.mp h with h | h
      · exact .inl h
      · exact .inr h
    · split at h
      · rcases List.mem_cons.mp h with h | h
        · exact .inl h
        · exact .inr (List.mem_cons_of_mem _ h)
      · rcases List.mem_cons.mp h with h | h
        · exact .inr (h ▸ List.mem_cons_self)
        · rcases ih h with h | h
          · exact .inl h
          · exact .inr (List.mem_cons_of_mem _ h)

theorem sorted_set (h : Sorted fs) : Sorted (set k a fs) := by
  induction fs with
  | nil => simp [set, Sorted]
  | cons g fs ih =>
    obtain ⟨k₀, a₀⟩ := g
    obtain ⟨hhead, htail⟩ := List.pairwise_cons.mp h
    simp only [set]
    split
    case isTrue hlt =>
      refine List.pairwise_cons.mpr ⟨fun f hf => ?_, h⟩
      rcases List.mem_cons.mp hf with rfl | hf
      · exact hlt
      · exact lt_trans hlt (hhead f hf)
    case isFalse hlt =>
      split
      case isTrue heq => exact List.pairwise_cons.mpr ⟨heq ▸ hhead, htail⟩
      case isFalse heq =>
        refine List.pairwise_cons.mpr ⟨fun f hf => ?_, ih htail⟩
        rcases mem_set hf with rfl | hf
        · exact lt_of_le_of_ne (not_lt.mp hlt) (Ne.symm heq)
        · exact hhead f hf

theorem sorted_ofList (fs : Fields κ α) : Sorted (ofList fs) := by
  induction fs with
  | nil => exact List.Pairwise.nil
  | cons f fs ih => exact sorted_set ih

theorem Sorted.nodup (h : Sorted fs) : (fs.map Prod.fst).Nodup :=
  List.pairwise_map.mpr (h.imp fun hlt => ne_of_lt hlt)

/-- A sorted map is determined by its lookups. -/
theorem Sorted.ext {gs : Fields κ α} (hf : Sorted fs) (hg : Sorted gs) (h : ∀ k, get k fs = get k gs) : fs = gs := by
  induction fs generalizing gs with
  | nil =>
    cases gs with
    | nil => rfl
    | cons g gs =>
      have := h g.1
      simp [get] at this
  | cons f fs ih =>
    obtain ⟨k, a⟩ := f
    cases gs with
    | nil =>
      have := h k
      simp at this
    | cons g gs =>
      obtain ⟨k', a'⟩ := g
      obtain ⟨hfh, hft⟩ := List.pairwise_cons.mp hf
      obtain ⟨hgh, hgt⟩ := List.pairwise_cons.mp hg
      have habs : ∀ {x : κ} {a : α} {l : Fields κ α}, (∀ f ∈ l, x < f.1) → get x l ≠ some a :=
        fun hl hx => lt_irrefl _ (hl _ (mem_of_get hx))
      -- the smaller of two different heads is missing from the other list
      have hk : k = k' := by
        rcases lt_trichotomy k k' with hlt | heq | hlt
        · have hx := h k
          rw [get_cons_self, get_cons_ne (ne_of_lt hlt)] at hx
          exact absurd hx.symm (habs fun f hf => lt_trans hlt (hgh f hf))
        · exact heq
        · have hx := h k'
          rw [get_cons_self, get_cons_ne (ne_of_lt hlt)] at hx
          exact absurd hx (habs fun f hf => lt_trans hlt (hfh f hf))
      subst hk
      have ha : a = a' := by
        have hx := h k
        simpa using hx
      subst ha
      congr 1
      refine ih hft hgt fun x => ?_
      by_cases hx : x = k
      · subst hx
        rw [Option.eq_none_iff_forall_not_mem.mpr fun a ha => habs hfh ha,
          Option.eq_none_iff_forall_not_mem.mpr fun a ha => habs hgh ha]
      · have := h x
        rwa [get_cons_ne hx, get_cons_ne hx] at this

/-- The members are found again after they are written. -/
@[simp] theorem get_ofList (fs : Fields κ α) (k : κ) : get k (ofList fs) = get k fs := by
  induction fs with
  | nil => rfl
  | cons f fs ih =>
    obtain ⟨k', a⟩ := f
    change get k (set k' a (ofList fs)) = _
    rw [get_set, ih]
    rfl

theorem ofList_of_sorted (h : Sorted fs) : ofList fs = fs :=
  (sorted_ofList fs).ext h fun k => get_ofList fs k

theorem mem_of_mem_ofList (h : f ∈ ofList fs) : f ∈ fs := by
  induction fs with
  | nil => cases h
  | cons g fs ih =>
    rcases mem_set h with rfl | h
    · exact List.mem_cons_self
    · exact List.mem_cons_of_mem _ (ih h)

/-- Without repeated names the members are only put in order. -/
theorem perm_ofList (h : (fs.map Prod.fst).Nodup) : (ofList fs).Perm fs := by
  have hnodup : (ofList fs).Nodup := List.Nodup.of_map _ (sorted_ofList fs).nodup
  refine (List.perm_ext_iff_of_nodup hnodup (List.Nodup.of_map _ h)).mpr fun f => ⟨mem_of_mem_ofList, fun hf => ?_⟩
  apply mem_of_get
  rw [get_ofList]
  exact get_of_mem h hf

end Sorted
end Fields
end Onprest.Lib
