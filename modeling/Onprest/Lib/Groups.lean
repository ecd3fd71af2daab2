import Mathlib.Algebra.BigOperators.Group.List.Basic
import Mathlib.Algebra.Order.Ring.Int
import Mathlib.Logic.Function.Basic
import Mathlib.Data.List.Nodup

/-! Items that belong to groups. Every item has a size and a tag that names its group, if it has one; a
group lists its items, counts their sizes and keeps a limit. -/

namespace Onprest.Lib
open Function

variable {M : Type} {l : List ℕ} {id : ℕ} {f g : ℕ → M}

/-- The sum over a list without duplicates after one value has changed. -/
theorem sum_map_of_changed [AddCommMonoid M] (hl : l.Nodup) (hid : id ∈ l) {k : M} (hne : ∀ i, i ≠ id → g i = f i)
    (hk : g id = f id + k) : (l.map g).sum = (l.map f).sum + k := by
  induction l with
  | nil => cases hid
  | cons a l ih =>
    obtain ⟨ha, hl⟩ := List.nodup_cons.mp hl
    rw [List.map_cons, List.map_cons, List.sum_cons, List.sum_cons]
    obtain rfl | hid := List.mem_cons.mp hid
    · have hsame : l.map g = l.map f := List.map_congr_left fun i hi => hne i (ne_of_mem_of_not_mem hi ha)
      rw [hsame, hk]
      exact add_right_comm _ _ _
    · rw [ih hl hid, hne a (ne_of_mem_of_not_mem hid ha).symm, add_assoc]

theorem map_of_unchanged (hid : id ∉ l) (hne : ∀ i, i ≠ id → g i = f i) : l.map g = l.map f :=
  List.map_congr_left fun i hi => hne i (ne_of_mem_of_not_mem hi hid)

/-- The size of an item, 0 for an unused handle. -/
def sizeAt {α : Type} (size : α → ℕ) (itemAt : ℕ → Option α) (id : ℕ) : ℕ := (itemAt id).elim 0 size

/-- Every item with a tag is in its group and the other way round, and a group has the
sizes of its items as bytes and keeps its limit. -/
structure Grouped {α β : Type} (size : α → ℕ) (groupAt : ℕ → Option β) (ids : β → List ℕ) (bytes : β → ℕ)
    (limit : β → ℤ) (itemAt : ℕ → Option α) (tag : α → Option ℕ) : Prop where
  members : ∀ r q, groupAt r = some q → ∀ id ∈ ids q, ∃ st, itemAt id = some st ∧ tag st = some r
  nodup : ∀ r q, groupAt r = some q → (ids q).Nodup
  tagged : ∀ id st r, itemAt id = some st → tag st = some r → ∃ q, groupAt r = some q ∧ id ∈ ids q
  total : ∀ r q, groupAt r = some q → bytes q = ((ids q).map (sizeAt size itemAt)).sum
  within : ∀ r q, groupAt r = some q → (bytes q : ℤ) ≤ limit q

namespace Grouped
variable {α β : Type} {size : α → ℕ} {groupAt : ℕ → Option β} {ids : β → List ℕ} {bytes : β → ℕ}
  {limit : β → ℤ} {itemAt : ℕ → Option α} {tag : α → Option ℕ} {id r k : ℕ} {st st' : α} {q q' : β}

theorem sizeAt_update_ne (hne : k ≠ id) : sizeAt size (update itemAt id (some st)) k = sizeAt size itemAt k := by
  simp [sizeAt, hne]

/-- An item changes, but not its size and its tag. -/
theorem item (h : Grouped size groupAt ids bytes limit itemAt tag) (hst : itemAt id = some st)
    (htag : tag st' = tag st)
    (hsize : size st' = size st) : Grouped size groupAt ids bytes limit (update itemAt id (some st')) tag where
  members := by
    intro r q hq i hi
    obtain ⟨x, hx, ht⟩ := h.members r q hq i hi
    by_cases hne : i = id
    · subst hne
      obtain rfl : st = x := Option.some.inj (hst.symm.trans hx)
      exact ⟨st', by simp, htag.trans ht⟩
    · exact ⟨x, by simpa [hne] using hx, ht⟩
  nodup := h.nodup
  tagged := by
    intro i x r hx ht
    by_cases hne : i = id
    · subst hne
      obtain rfl : st' = x := by simpa using hx
      exact h.tagged i st r hst (htag ▸ ht)
    · exact h.tagged i x r (by simpa [hne] using hx) ht
  total := by
    intro r q hq
    have hsame : sizeAt size (update itemAt id (some st')) = sizeAt size itemAt := by
      funext i
      by_cases hne : i = id
      · subst hne
        simp [sizeAt, hst, hsize]
      · exact sizeAt_update_ne hne
    rw [hsame]
    exact h.total r q hq
  within := h.within

/-- A group changes, but not its items, bytes and limit. -/
theorem group (h : Grouped size groupAt ids bytes limit itemAt tag) (hq : groupAt r = some q) (hids : ids q' = ids q)
    (hbytes : bytes q' = bytes q) (hlimit : limit q' = limit q) :
    Grouped size (update groupAt r (some q')) ids bytes limit itemAt tag := by
  have hback : ∀ i x, update groupAt r (some q') i = some x →
      ∃ y, groupAt i = some y ∧ ids x = ids y ∧ bytes x = bytes y ∧ limit x = limit y := by
    intro i x hx
    by_cases hi : i = r
    · subst hi
      obtain rfl : q' = x := by simpa using hx
      exact ⟨q, hq, hids, hbytes, hlimit⟩
    · exact ⟨x, by simpa [hi] using hx, rfl, rfl, rfl⟩
  constructor
  · intro i x hx id hid
    obtain ⟨y, hy, hids, -⟩ := hback i x hx
    exact h.members i y hy id (hids ▸ hid)
  · intro i x hx
    obtain ⟨y, hy, hids, -⟩ := hback i x hx
    exact hids ▸ h.nodup i y hy
  · intro id st i hst ht
    obtain ⟨y, hy, hid⟩ := h.tagged id st i hst ht
    by_cases hi : i = r
    · subst hi
      obtain rfl : q = y := Option.some.inj (hq.symm.trans hy)
      exact ⟨q', by simp, hids ▸ hid⟩
    · exact ⟨y, by simpa [hi] using hy, hid⟩
  · intro i x hx
    obtain ⟨y, hy, hids, hbytes, -⟩ := hback i x hx
    rw [hids, hbytes]
    exact h.total i y hy
  · intro i x hx
    obtain ⟨y, hy, -, hbytes, hlimit⟩ := hback i x hx
    rw [hbytes, hlimit]
    exact h.within i y hy

/-- A new item outside every group. -/
theorem newItem (h : Grouped size groupAt ids bytes limit itemAt tag) (hst : itemAt id = none)
    (htag : tag st = none) :
    Grouped size groupAt ids bytes limit (update itemAt id (some st)) tag := by
  have hold : ∀ i q, groupAt i = some q → id ∉ ids q := by
    intro i q hq hid
    obtain ⟨x, hx, -⟩ := h.members i q hq id hid
    simp [hst] at hx
  refine ⟨?_, h.nodup, ?_, ?_, h.within⟩
  · intro i q hq j hj
    obtain ⟨x, hx, ht⟩ := h.members i q hq j hj
    have hne : j ≠ id := ne_of_mem_of_not_mem hj (hold i q hq)
    exact ⟨x, by simpa [hne] using hx, ht⟩
  · intro j x i hx ht
    by_cases hj : j = id
    · subst hj
      obtain rfl : st = x := by simpa using hx
      simp [htag] at ht
    · exact h.tagged j x i (by simpa [hj] using hx) ht
  · intro i q hq
    rw [map_of_unchanged (hold i q hq) fun j hj => sizeAt_update_ne hj]
    exact h.total i q hq

/-- A new item of no size in a group. -/
theorem newMember (h : Grouped size groupAt ids bytes limit itemAt tag) (hst : itemAt id = none)
    (htag : tag st = some r) (hsize : size st = 0) (hq : groupAt r = some q) (hids : ids q' = ids q ++ [id])
    (hbytes : bytes q' = bytes q) (hlimit : limit q' = limit q) :
    Grouped size (update groupAt r (some q')) ids bytes limit (update itemAt id (some st)) tag := by
  have hold : ∀ i x, groupAt i = some x → id ∉ ids x := by
    intro i x hx hid
    obtain ⟨y, hy, -⟩ := h.members i x hx id hid
    simp [hst] at hy
  have hkept : ∀ i x, groupAt i = some x → ∀ j ∈ ids x,
      ∃ y, update itemAt id (some st) j = some y ∧ tag y = some i := by
    intro i x hx j hj
    obtain ⟨y, hy, ht⟩ := h.members i x hx j hj
    have hne : j ≠ id := ne_of_mem_of_not_mem hj (hold i x hx)
    exact ⟨y, by simpa [hne] using hy, ht⟩
  have hsizes : ∀ i x, groupAt i = some x →
      (ids x).map (sizeAt size (update itemAt id (some st))) = (ids x).map (sizeAt size itemAt) :=
    fun i x hx => map_of_unchanged (hold i x hx) fun j hj => sizeAt_update_ne hj
  constructor
  · intro i x hx j hj
    by_cases hi : i = r
    · subst hi
      obtain rfl : q' = x := by simpa using hx
      rw [hids] at hj
      obtain hj | hj := List.mem_append.mp hj
      · exact hkept i q hq j hj
      · exact ⟨st, by simp [List.mem_singleton.mp hj], htag⟩
    · exact hkept i x (by simpa [hi] using hx) j hj
  · intro i x hx
    by_cases hi : i = r
    · subst hi
      obtain rfl : q' = x := by simpa using hx
      rw [hids, List.nodup_append]
      refine ⟨h.nodup i q hq, by simp, ?_⟩
      intro a ha b hb
      obtain rfl := List.mem_singleton.mp hb
      exact ne_of_mem_of_not_mem ha (hold i q hq)
    · exact h.nodup i x (by simpa [hi] using hx)
  · intro j y i hy ht
    by_cases hj : j = id
    · subst hj
      obtain rfl : st = y := by simpa using hy
      obtain rfl : r = i := Option.some.inj (htag.symm.trans ht)
      exact ⟨q', by simp, by simp [hids]⟩
    · obtain ⟨x, hx, hmem⟩ := h.tagged j y i (by simpa [hj] using hy) ht
      by_cases hi : i = r
      · subst hi
        obtain rfl : q = x := Option.some.inj (hq.symm.trans hx)
        exact ⟨q', by simp, by simp [hids, hmem]⟩
      · exact ⟨x, by simpa [hi] using hx, hmem⟩
  · intro i x hx
    by_cases hi : i = r
    · subst hi
      obtain rfl : q' = x := by simpa using hx
      rw [hbytes, hids, List.map_append, List.sum_append, hsizes i q hq, h.total i q hq]
      simp [sizeAt, hsize]
    · have hx : groupAt i = some x := by simpa [hi] using hx
      rw [hsizes i x hx]
      exact h.total i x hx
  · intro i x hx
    by_cases hi : i = r
    · subst hi
      obtain rfl : q' = x := by simpa using hx
      rw [hbytes, hlimit]
      exact h.within i q hq
    · exact h.within i x (by simpa [hi] using hx)

/-- A new, empty group. -/
theorem newGroup (h : Grouped size groupAt ids bytes limit itemAt tag) (hr : groupAt r = none) (hids : ids q = [])
    (hbytes : bytes q = 0) (hlimit : 0 ≤ limit q) :
    Grouped size (update groupAt r (some q)) ids bytes limit itemAt tag := by
  constructor
  · intro i x hx j hj
    by_cases hi : i = r
    · subst hi
      obtain rfl : q = x := by simpa using hx
      simp [hids] at hj
    · exact h.members i x (by simpa [hi] using hx) j hj
  · intro i x hx
    by_cases hi : i = r
    · subst hi
      obtain rfl : q = x := by simpa using hx
      simp [hids]
    · exact h.nodup i x (by simpa [hi] using hx)
  · intro j y i hy ht
    obtain ⟨x, hx, hmem⟩ := h.tagged j y i hy ht
    have hi : i ≠ r := by
      rintro rfl
      simp [hr] at hx
    exact ⟨x, by simpa [hi] using hx, hmem⟩
  · intro i x hx
    by_cases hi : i = r
    · subst hi
      obtain rfl : q = x := by simpa using hx
      simp [hids, hbytes]
    · exact h.total i x (by simpa [hi] using hx)
  · intro i x hx
    by_cases hi : i = r
    · subst hi
      obtain rfl : q = x := by simpa using hx
      simpa [hbytes] using hlimit
    · exact h.within i x (by simpa [hi] using hx)

/-- `k` bytes are added to an item and counted for its group, which has room for them. -/
theorem count {add : β → β} (h : Grouped size groupAt ids bytes limit itemAt tag) (hst : itemAt id = some st)
    (htag : tag st' = tag st) (hsize : size st' = size st + k) (hids : ∀ q, ids (add q) = ids q)
    (hbytes : ∀ q, bytes (add q) = bytes q + k) (hlimit : ∀ q, limit (add q) = limit q)
    (hroom : ∀ r q, tag st = some r → groupAt r = some q → (bytes q + k : ℤ) ≤ limit q) :
    Grouped size (fun i => (groupAt i).map fun q => if tag st = some i then add q else q) ids bytes limit
      (update itemAt id (some st')) tag := by
  have hback : ∀ i x, (groupAt i).map (fun q => if tag st = some i then add q else q) = some x →
      ∃ y, groupAt i = some y ∧ ids x = ids y ∧ limit x = limit y ∧
        bytes x = bytes y + if tag st = some i then k else 0 := by
    intro i x hx
    obtain ⟨y, hy, rfl⟩ := Option.map_eq_some_iff.mp hx
    refine ⟨y, hy, ?_⟩
    split <;> simp [hids, hbytes, hlimit]
  have hmember : ∀ i y, groupAt i = some y → (id ∈ ids y ↔ tag st = some i) := by
    intro i y hy
    constructor
    · intro hid
      obtain ⟨z, hz, ht⟩ := h.members i y hy id hid
      obtain rfl : st = z := Option.some.inj (hst.symm.trans hz)
      exact ht
    · intro ht
      obtain ⟨z, hz, hid⟩ := h.tagged id st i hst ht
      obtain rfl : y = z := Option.some.inj (hy.symm.trans hz)
      exact hid
  constructor
  · intro i x hx j hj
    obtain ⟨y, hy, hids, -⟩ := hback i x hx
    obtain ⟨z, hz, ht⟩ := h.members i y hy j (hids ▸ hj)
    by_cases hj : j = id
    · subst hj
      obtain rfl : st = z := Option.some.inj (hst.symm.trans hz)
      exact ⟨st', by simp, htag.trans ht⟩
    · exact ⟨z, by simpa [hj] using hz, ht⟩
  · intro i x hx
    obtain ⟨y, hy, hids, -⟩ := hback i x hx
    exact hids ▸ h.nodup i y hy
  · intro j y i hy ht
    have hold : ∃ z, itemAt j = some z ∧ tag z = some i := by
      by_cases hj : j = id
      · subst hj
        obtain rfl : st' = y := by simpa using hy
        exact ⟨st, hst, htag ▸ ht⟩
      · exact ⟨y, by simpa [hj] using hy, ht⟩
    obtain ⟨z, hz, ht⟩ := hold
    obtain ⟨x, hx, hmem⟩ := h.tagged j z i hz ht
    refine ⟨_, by rw [hx]; rfl, ?_⟩
    split
    · rwa [hids]
    · exact hmem
  · intro i x hx
    obtain ⟨y, hy, hidsx, -, hbytesx⟩ := hback i x hx
    have hne : ∀ j, j ≠ id → sizeAt size (update itemAt id (some st')) j = sizeAt size itemAt j :=
      fun j hj => sizeAt_update_ne hj
    rw [hidsx, hbytesx, h.total i y hy]
    split
    · rename_i ht
      refine (sum_map_of_changed (h.nodup i y hy) ((hmember i y hy).mpr ht) hne ?_).symm
      simp [sizeAt, hst, hsize]
    · rename_i ht
      rw [map_of_unchanged (fun hid => ht ((hmember i y hy).mp hid)) hne, add_zero]
  · intro i x hx
    obtain ⟨y, hy, -, hlimitx, hbytesx⟩ := hback i x hx
    rw [hlimitx, hbytesx]
    split
    · rename_i ht
      exact_mod_cast hroom i y ht hy
    · simpa using h.within i y hy

end Grouped
end Onprest.Lib
