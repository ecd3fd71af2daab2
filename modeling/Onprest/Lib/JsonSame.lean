import Mathlib.Data.Option.Basic
import Onprest.Lib.Json

/-! Two JSON trees that translate to the same one. -/

namespace Onprest.Lib.Json
variable {α β γ : Type} {f : α → Option β}

/-- The two trees translate, and to the same tree. -/
def Same (f : α → Option β) (v w : Json α) : Prop := ∃ u, traverse f v = some u ∧ traverse f w = some u

namespace Same

variable {v w : Json α}

theorem symm (h : Same f v w) : Same f w v := by
  obtain ⟨u, hv, hw⟩ := h
  exact ⟨u, hw, hv⟩

theorem trans {u : Json α} (h : Same f u v) (h' : Same f v w) : Same f u w := by
  obtain ⟨x, hu, hv⟩ := h
  obtain ⟨y, hv', hw⟩ := h'
  obtain rfl := Option.some.inj (hv.symm.trans hv')
  exact ⟨x, hu, hw⟩

theorem left (h : Same f v w) : Same f v v := h.trans h.symm

end Same

variable {v w : Json α} {xs : List (Json α)} {fs : List (String × Json α)} {δ : Type} {o : Option γ}
  {R S : γ → δ → Prop} {o' : Option δ}

theorem same_self : Same f v v ↔ (traverse f v).isSome := by
  rw [Option.isSome_iff_exists]
  exact exists_congr fun u => and_self_iff

theorem same_iff : Same f v w ↔ (traverse f v).isSome ∧ traverse f v = traverse f w := by
  constructor
  · rintro ⟨u, hv, hw⟩
    rw [hv, hw]
    exact ⟨rfl, rfl⟩
  · rintro ⟨hv, hw⟩
    obtain ⟨u, hu⟩ := Option.isSome_iff_exists.mp hv
    exact ⟨u, hu, hw ▸ hu⟩

instance [DecidableEq β] (v w : Json α) : Decidable (Same f v w) := decidable_of_iff _ same_iff.symm

theorem same_leaf_of_some {a b : α} {c d : β} (ha : f a = some c) (hb : f b = some d) :
    Same f (.leaf a) (.leaf b) ↔ c = d := by
  simp only [Same, traverse, ha, hb, Option.map_some, Option.some.injEq]
  constructor
  · rintro ⟨_, rfl, h⟩
    exact (Json.leaf.inj h).symm
  · rintro rfl
    exact ⟨_, rfl, rfl⟩

theorem same_arr {ys : List (Json α)} : Same f (.arr xs) (.arr ys) ↔ List.Forall₂ (Same f) xs ys := by
  constructor
  · rintro ⟨u, hx, hy⟩
    obtain ⟨zs, rfl, hxs⟩ := traverse_arr.mp hx
    obtain ⟨zs', hzs, hys⟩ := traverse_arr.mp hy
    obtain rfl := Json.arr.inj hzs
    clear hx hy hzs
    induction hxs generalizing ys with
    | nil =>
      cases hys
      exact .nil
    | cons hx hxs ih =>
      cases hys with
      | cons hy hys => exact .cons ⟨_, hx, hy⟩ (ih hys)
  · intro h
    induction h with
    | nil => exact ⟨.arr [], rfl, rfl⟩
    | cons hxy h ih =>
      obtain ⟨z, hx, hy⟩ := hxy
      obtain ⟨u, hu, hu'⟩ := ih
      obtain ⟨zs, rfl, hxs⟩ := traverse_arr.mp hu
      obtain ⟨zs', hzs, hys⟩ := traverse_arr.mp hu'
      obtain rfl := Json.arr.inj hzs
      exact ⟨.arr (z :: zs), traverse_arr.mpr ⟨_, rfl, .cons hx hxs⟩, traverse_arr.mpr ⟨_, rfl, .cons hy hys⟩⟩

/-- Objects are the same when they have the same members under the same keys. -/
theorem same_obj {gs : List (String × Json α)} :
    Same f (.obj fs) (.obj gs) ↔ (∀ x ∈ fs, Same f x.2 x.2) ∧ (∀ x ∈ gs, Same f x.2 x.2) ∧
      ∀ k, Option.Rel (Same f) (Fields.get k fs) (Fields.get k gs) := by
  simp only [same_self]
  constructor
  · rintro ⟨u, hf, hg⟩
    obtain ⟨hfs, us, rfl, -, hget⟩ := traverse_obj.mp hf
    obtain ⟨hgs, us', hus, -, hget'⟩ := traverse_obj.mp hg
    obtain rfl := Json.obj.inj hus
    refine ⟨hfs, hgs, fun k => ?_⟩
    have heq := (hget k).symm.trans (hget' k)
    cases hx : Fields.get k fs with
    | none =>
      cases hy : Fields.get k gs with
      | none => exact .none
      | some y =>
        rw [hx, hy, Option.bind_none, Option.bind_some] at heq
        have := hgs _ (Fields.mem_of_get hy)
        rw [← heq] at this
        cases this
    | some x =>
      obtain ⟨z, hz⟩ := Option.isSome_iff_exists.mp (hfs _ (Fields.mem_of_get hx))
      cases hy : Fields.get k gs with
      | none =>
        rw [hx, hy, Option.bind_none, Option.bind_some] at heq
        rw [heq] at hz
        cases hz
      | some y =>
        rw [hx, hy, Option.bind_some, Option.bind_some] at heq
        exact .some ⟨z, hz, heq ▸ hz⟩
  · rintro ⟨hfs, hgs, hrel⟩
    obtain ⟨us, hus⟩ := exists_traverse_obj hfs
    refine ⟨us, hus, ?_⟩
    obtain ⟨-, us', rfl, hsorted, hget⟩ := traverse_obj.mp hus
    refine traverse_obj.mpr ⟨hgs, us', rfl, hsorted, fun k => ?_⟩
    rw [hget]
    have hk := hrel k
    generalize Fields.get k fs = x at hk ⊢
    generalize Fields.get k gs = y at hk ⊢
    cases hk with
    | none => rfl
    | some h =>
      obtain ⟨z, hx, hy⟩ := h
      exact hx.trans hy.symm

theorem same_self_obj : Same f (.obj fs) (.obj fs) ↔ ∀ x ∈ fs, Same f x.2 x.2 := by
  rw [same_obj]
  constructor
  · intro h
    exact h.1
  · intro h
    refine ⟨h, h, fun k => ?_⟩
    cases hx : Fields.get k fs with
    | none => exact .none
    | some x => exact .some (h _ (Fields.mem_of_get hx))

/-- A tree translates if its leaves do. -/
theorem isSome_traverse : (traverse f v).isSome ↔ ∀ a ∈ v.leaves, (f a).isSome := by
  rw [← same_self]
  induction v with
  | null | bool b | str s => simpa [leaves] using ⟨_, rfl, rfl⟩
  | leaf a => simp [same_self, traverse, leaves]
  | arr xs ih =>
    rw [same_arr, List.forall₂_same, forall_leaves_arr]
    exact forall₂_congr ih
  | obj fs ih =>
    rw [same_self_obj, forall_leaves_obj]
    exact forall₂_congr ih

theorem rel_some_left (h : Option.Rel R o o') {c : γ} (hc : o = some c) : ∃ d, o' = some d ∧ R c d := by
  cases h with
  | none => cases hc
  | some hr =>
    cases hc
    exact ⟨_, rfl, hr⟩

theorem Same.arr_left (h : Same f (.arr xs) w) : ∃ ys, w = .arr ys ∧ List.Forall₂ (Same f) xs ys := by
  obtain ⟨u, hx, hw⟩ := id h
  obtain ⟨zs, rfl, -⟩ := traverse_arr.mp hx
  obtain ⟨ys, rfl, -⟩ := traverse_eq_arr hw
  exact ⟨ys, rfl, same_arr.mp h⟩

theorem Same.obj_left (h : Same f (.obj fs) w) :
    ∃ gs, w = .obj gs ∧ ∀ k, Option.Rel (Same f) (Fields.get k fs) (Fields.get k gs) := by
  obtain ⟨u, hf, hw⟩ := id h
  obtain ⟨-, us, rfl, -⟩ := traverse_obj.mp hf
  obtain ⟨gs, rfl⟩ := traverse_eq_obj hw
  exact ⟨gs, rfl, (same_obj.mp h).2.2⟩

/-- The constructor of a tree and, for an atom, the atom. -/
def shape : Json α → Json Unit
  | .null => .null
  | .bool b => .bool b
  | .str s => .str s
  | .leaf _ => .leaf ()
  | .arr _ => .arr []
  | .obj _ => .obj []

theorem shape_of_traverse {u : Json β} (h : traverse f v = some u) : shape v = shape u := by
  cases v with
  | null | bool b | str s => exact (congrArg shape (Option.some.inj h))
  | leaf a =>
    obtain ⟨c, -, rfl⟩ := Option.map_eq_some_iff.mp h
    rfl
  | arr xs =>
    obtain ⟨ys, rfl, -⟩ := traverse_arr.mp h
    rfl
  | obj fs =>
    obtain ⟨-, gs, rfl, -⟩ := traverse_obj.mp h
    rfl

theorem Same.shape_eq (h : Same f v w) : shape v = shape w := by
  obtain ⟨u, hv, hw⟩ := h
  rw [shape_of_traverse hv, shape_of_traverse hw]

theorem forall₂_congr_mem {xs : List γ} {ys : List δ} (h : ∀ x ∈ xs, ∀ y ∈ ys, R x y → S x y)
    (hR : List.Forall₂ R xs ys) : List.Forall₂ S xs ys := by
  induction hR with
  | nil => exact .nil
  | cons hr hR ih =>
    refine .cons (h _ List.mem_cons_self _ List.mem_cons_self hr) (ih fun x hx y hy => ?_)
    exact h x (List.mem_cons_of_mem _ hx) y (List.mem_cons_of_mem _ hy)

theorem rel_map_left {ε : Type} {g : ε → γ} {o : Option ε} :
    Option.Rel R (o.map g) o' ↔ Option.Rel (fun x => R (g x)) o o' := by
  cases o <;> cases o' <;> simp

theorem rel_congr_mem (h : ∀ x ∈ o, ∀ y ∈ o', R x y → S x y) (hR : Option.Rel R o o') : Option.Rel S o o' := by
  cases hR with
  | none => exact .none
  | some hr => exact .some (h _ rfl _ rfl hr)

/-- Two ways to compare trees agree if they agree on leaves, on elements and on members. -/
theorem same_congr {g : α → Option γ} (hleaf : ∀ a b, v = .leaf a → w = .leaf b → (Same f v w ↔ Same g v w))
    (harr : ∀ xs ys, v = .arr xs → w = .arr ys → ∀ x ∈ xs, ∀ y ∈ ys, Same f x y ↔ Same g x y)
    (hobj : ∀ fs gs, v = .obj fs → w = .obj gs → (∀ x ∈ fs, Same f x.2 x.2 ↔ Same g x.2 x.2) ∧
      (∀ y ∈ gs, Same f y.2 y.2 ↔ Same g y.2 y.2) ∧ ∀ k x y, (k, x) ∈ fs → (k, y) ∈ gs → (Same f x y ↔ Same g x y)) :
    Same f v w ↔ Same g v w := by
  by_cases hshape : shape v = shape w
  · cases v <;> cases w <;> cases hshape
    · exact iff_of_true ⟨_, rfl, rfl⟩ ⟨_, rfl, rfl⟩
    · exact iff_of_true ⟨_, rfl, rfl⟩ ⟨_, rfl, rfl⟩
    · exact iff_of_true ⟨_, rfl, rfl⟩ ⟨_, rfl, rfl⟩
    · exact hleaf _ _ rfl rfl
    · have harr := harr _ _ rfl rfl
      rw [same_arr, same_arr]
      exact ⟨forall₂_congr_mem fun x hx y hy => (harr x hx y hy).mp,
        forall₂_congr_mem fun x hx y hy => (harr x hx y hy).mpr⟩
    · obtain ⟨hfs, hgs, hmember⟩ := hobj _ _ rfl rfl
      rw [same_obj, same_obj]
      refine and_congr (forall₂_congr hfs) (and_congr (forall₂_congr hgs) (forall_congr' fun k => ?_))
      have hmember (x) (hx : x ∈ Fields.get k _) (y) (hy : y ∈ Fields.get k _) : Same f x y ↔ Same g x y :=
        hmember k x y (Fields.mem_of_get hx) (Fields.mem_of_get hy)
      exact ⟨rel_congr_mem fun x hx y hy => (hmember x hx y hy).mp,
        rel_congr_mem fun x hx y hy => (hmember x hx y hy).mpr⟩
  · exact iff_of_false (fun h => hshape h.shape_eq) fun h => hshape h.shape_eq

section Finer
variable {g : α → Option γ} (hleaf : ∀ a b, Same f (.leaf a) (.leaf b) → Same g (.leaf a) (.leaf b))
include hleaf

variable {v : Json α}

theorem Same.imp_self (h : Same f v v) : Same g v v := by
  induction v with
  | null | bool b | str s => exact ⟨_, rfl, rfl⟩
  | leaf a => exact hleaf a a h
  | arr xs ih =>
    rw [same_arr, List.forall₂_same] at h ⊢
    exact fun x hx => ih x hx (h x hx)
  | obj fs ih =>
    rw [same_self_obj] at h ⊢
    exact fun x hx => ih x hx (h x hx)

/-- A comparison that is finer on leaves is finer on trees. -/
theorem Same.imp (h : Same f v w) : Same g v w := by
  induction v generalizing w with
  | null | bool b | str s =>
    have := h.shape_eq
    cases w <;> cases this
    exact ⟨_, rfl, rfl⟩
  | leaf a =>
    have hshape := h.shape_eq
    cases w <;> cases hshape
    exact hleaf _ _ h
  | arr xs ih =>
    obtain ⟨ys, rfl, hxy⟩ := h.arr_left
    exact same_arr.mpr (forall₂_congr_mem (fun x hx y _ => ih x hx) hxy)
  | obj fs ih =>
    obtain ⟨gs, rfl, -⟩ := h.obj_left
    rw [same_obj] at h ⊢
    obtain ⟨hfs, hgs, hrel⟩ := h
    refine ⟨fun x hx => (hfs x hx).imp_self hleaf, fun x hx => (hgs x hx).imp_self hleaf, fun k => ?_⟩
    exact rel_congr_mem (fun x hx y _ => ih (k, x) (Fields.mem_of_get hx)) (hrel k)

end Finer

end Onprest.Lib.Json
