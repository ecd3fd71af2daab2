import Mathlib.Data.String.Basic
import Mathlib.Data.List.Forall2
import Onprest.Lib.Fields

/-! JSON trees over a type of leaves, compared as data: the members of an object are a finite map. -/

namespace Onprest.Lib

inductive Json (α : Type)
  | null
  | bool (b : Bool)
  | str (s : String)
  | leaf (a : α)
  | arr (xs : List (Json α))
  | obj (fs : List (String × Json α))

namespace Json
variable {α β : Type}

/-- Induction over a tree: a property of all elements, or of all members, carries over. -/
@[elab_as_elim, induction_eliminator]
theorem induct {motive : Json α → Prop} (null : motive .null) (bool : ∀ b, motive (.bool b))
    (str : ∀ s, motive (.str s)) (leaf : ∀ a, motive (.leaf a))
    (arr : ∀ xs, (∀ x ∈ xs, motive x) → motive (.arr xs))
    (obj : ∀ fs, (∀ f ∈ fs, motive f.2) → motive (.obj fs)) (v : Json α) : motive v := by
  refine @Json.rec α motive (fun xs => ∀ x ∈ xs, motive x) (fun fs => ∀ f ∈ fs, motive f.2) (fun f => motive f.2)
    null bool str leaf arr obj ?_ ?_ ?_ ?_ ?_ v
  · intro x hx
    cases hx
  · intro x xs hx hxs y hy
    rcases List.mem_cons.mp hy with rfl | hy
    · exact hx
    · exact hxs y hy
  · intro f hf
    cases hf
  · intro f fs hf hfs g hg
    rcases List.mem_cons.mp hg with rfl | hg
    · exact hf
    · exact hfs g hg
  · intro k v hv
    exact hv

/-- The elements of an array or the values of an object. -/
def parts : Json α → List (Json α)
  | .arr xs => xs
  | .obj fs => fs.map Prod.snd
  | _ => []

mutual
/-- The leaves of a tree, from left to right. -/
def leaves : Json α → List α
  | .leaf a => [a]
  | .arr xs => leavesList xs
  | .obj fs => leavesFields fs
  | _ => []
def leavesList : List (Json α) → List α
  | [] => []
  | x :: xs => leaves x ++ leavesList xs
def leavesFields : List (String × Json α) → List α
  | [] => []
  | (_, x) :: fs => leaves x ++ leavesFields fs
end

variable {p : α → Prop} {xs : List (Json α)} {fs : List (String × Json α)} {f : α → Option β} {ys : List (Json β)}
  {gs : List (String × Json β)} {w : Json β} {v : Json α}

theorem forall_leaves_arr : (∀ a ∈ leaves (.arr xs), p a) ↔ ∀ x ∈ xs, ∀ a ∈ leaves x, p a := by
  rw [leaves]
  induction xs with
  | nil => simp [leavesList]
  | cons x xs ih => rw [leavesList, List.forall_mem_append, ih, List.forall_mem_cons]

theorem forall_leaves_obj : (∀ a ∈ leaves (.obj fs), p a) ↔ ∀ f ∈ fs, ∀ a ∈ leaves f.2, p a := by
  rw [leaves]
  induction fs with
  | nil => simp [leavesFields]
  | cons f fs ih => rw [leavesFields, List.forall_mem_append, ih, List.forall_mem_cons]

/-! ### Equality -/

section Equality
variable [DecidableEq α]

mutual
def beq : Json α → Json α → Bool
  | .null, .null => true
  | .bool a, .bool b => a == b
  | .str a, .str b => a == b
  | .leaf a, .leaf b => decide (a = b)
  | .arr xs, .arr ys => beqList xs ys
  | .obj fs, .obj gs => beqFields fs gs
  | _, _ => false
def beqList : List (Json α) → List (Json α) → Bool
  | [], [] => true
  | x :: xs, y :: ys => beq x y && beqList xs ys
  | _, _ => false
def beqFields : List (String × Json α) → List (String × Json α) → Bool
  | [], [] => true
  | (k, x) :: fs, (l, y) :: gs => k == l && beq x y && beqFields fs gs
  | _, _ => false
end

private theorem beqList_iff {xs : List (Json α)} (ih : ∀ x ∈ xs, ∀ y, beq x y = true ↔ x = y) (ys : List (Json α)) :
    beqList xs ys = true ↔ xs = ys := by
  induction xs generalizing ys with
  | nil => cases ys <;> simp [beqList]
  | cons x xs hxs =>
    cases ys with
    | nil => simp [beqList]
    | cons y ys =>
      rw [beqList, Bool.and_eq_true, ih x List.mem_cons_self y, hxs fun z hz => ih z (List.mem_cons_of_mem _ hz)]
      simp

private theorem beqFields_iff {fs : List (String × Json α)} (ih : ∀ f ∈ fs, ∀ y, beq f.2 y = true ↔ f.2 = y)
    (gs : List (String × Json α)) : beqFields fs gs = true ↔ fs = gs := by
  induction fs generalizing gs with
  | nil => cases gs <;> simp [beqFields]
  | cons f fs hfs =>
    obtain ⟨k, x⟩ := f
    cases gs with
    | nil => simp [beqFields]
    | cons g gs =>
      obtain ⟨l, y⟩ := g
      rw [beqFields, Bool.and_eq_true, Bool.and_eq_true, ih (k, x) List.mem_cons_self y,
        hfs fun z hz => ih z (List.mem_cons_of_mem _ hz)]
      simp

theorem beq_iff (v w : Json α) : beq v w = true ↔ v = w := by
  induction v generalizing w with
  | null | bool b | str s | leaf a => cases w <;> simp [beq]
  | arr xs ih =>
    cases w with
    | arr ys =>
      rw [beq, beqList_iff ih]
      simp
    | _ => simp [beq]
  | obj fs ih =>
    cases w with
    | obj gs =>
      rw [beq, beqFields_iff ih]
      simp
    | _ => simp [beq]

instance : DecidableEq (Json α) := fun v w => decidable_of_iff _ (beq_iff v w)

end Equality

/-! ### Key order -/

/-- Every object of the tree is in key order. -/
inductive Sorted : Json α → Prop
  | null : Sorted .null
  | bool (b : Bool) : Sorted (.bool b)
  | str (s : String) : Sorted (.str s)
  | leaf (a : α) : Sorted (.leaf a)
  | arr {xs : List (Json α)} (h : ∀ x ∈ xs, Sorted x) : Sorted (.arr xs)
  | obj {fs : List (String × Json α)} (hs : Fields.Sorted fs) (h : ∀ f ∈ fs, Sorted f.2) : Sorted (.obj fs)

/-! ### Translating the leaves -/

mutual
/-- Translate every leaf, if each can be, and put the members of objects in key order. -/
def traverse (f : α → Option β) : Json α → Option (Json β)
  | .null => some .null
  | .bool b => some (.bool b)
  | .str s => some (.str s)
  | .leaf a => (f a).map .leaf
  | .arr xs => (traverseList f xs).map .arr
  | .obj fs => (traverseFields f fs).map fun gs => .obj (Fields.ofList gs)
def traverseList (f : α → Option β) : List (Json α) → Option (List (Json β))
  | [] => some []
  | x :: xs => (traverse f x).bind fun y => (traverseList f xs).map (y :: ·)
def traverseFields (f : α → Option β) : List (String × Json α) → Option (List (String × Json β))
  | [] => some []
  | (k, x) :: fs => (traverse f x).bind fun y => (traverseFields f fs).map ((k, y) :: ·)
end

theorem traverseList_eq_some : traverseList f xs = some ys ↔
    List.Forall₂ (fun x y => traverse f x = some y) xs ys := by
  induction xs generalizing ys with
  | nil => cases ys <;> simp [traverseList]
  | cons x xs ih =>
    cases ys with
    | nil => simp [traverseList, Option.bind_eq_some_iff]
    | cons y ys =>
      simp only [traverseList, Option.bind_eq_some_iff, Option.map_eq_some_iff, List.cons.injEq,
        List.forall₂_cons, ← ih]
      constructor
      · rintro ⟨_, hy, _, hys, rfl, rfl⟩
        exact ⟨hy, hys⟩
      · rintro ⟨hy, hys⟩
        exact ⟨y, hy, ys, hys, rfl, rfl⟩

theorem traverseFields_eq_some :
    traverseFields f fs = some gs ↔ List.Forall₂ (fun a b => a.1 = b.1 ∧ traverse f a.2 = some b.2) fs gs := by
  induction fs generalizing gs with
  | nil => cases gs <;> simp [traverseFields]
  | cons a fs ih =>
    obtain ⟨k, x⟩ := a
    cases gs with
    | nil => simp [traverseFields, Option.bind_eq_some_iff]
    | cons b gs =>
      obtain ⟨l, y⟩ := b
      simp only [traverseFields, Option.bind_eq_some_iff, Option.map_eq_some_iff, List.cons.injEq, Prod.mk.injEq,
        List.forall₂_cons, ← ih]
      constructor
      · rintro ⟨_, hy, _, hys, ⟨rfl, rfl⟩, rfl⟩
        exact ⟨⟨rfl, hy⟩, hys⟩
      · rintro ⟨⟨rfl, hy⟩, hys⟩
        exact ⟨y, hy, gs, hys, ⟨rfl, rfl⟩, rfl⟩

theorem forall₂_exists_right {γ δ : Type*} {R : γ → δ → Prop} {as : List γ} {bs : List δ} (h : List.Forall₂ R as bs)
    {a : γ} (ha : a ∈ as) : ∃ b ∈ bs, R a b := by
  induction h with
  | nil => cases ha
  | cons hr h ih =>
    rcases List.mem_cons.mp ha with rfl | ha
    · exact ⟨_, List.mem_cons_self, hr⟩
    · obtain ⟨b, hb, hab⟩ := ih ha
      exact ⟨b, List.mem_cons_of_mem _ hb, hab⟩

theorem traverse_arr :
    traverse f (.arr xs) = some w ↔ ∃ ys, w = .arr ys ∧ List.Forall₂ (fun x y => traverse f x = some y) xs ys := by
  simp only [traverse, Option.map_eq_some_iff, traverseList_eq_some]
  constructor
  · rintro ⟨ys, h, rfl⟩
    exact ⟨ys, rfl, h⟩
  · rintro ⟨ys, rfl, h⟩
    exact ⟨ys, h, rfl⟩

private theorem get_traverseFields (h : List.Forall₂ (fun a b => a.1 = b.1 ∧ traverse f a.2 = some b.2) fs gs)
    (k : String) : Fields.get k gs = (Fields.get k fs).bind (traverse f) := by
  induction h with
  | nil => rfl
  | @cons a b fs gs hab h ih =>
    obtain ⟨l, x⟩ := a
    obtain ⟨l', y⟩ := b
    obtain ⟨rfl, hxy⟩ := hab
    by_cases hk : k = l
    · subst hk
      rw [Fields.get_cons_self, Fields.get_cons_self]
      exact hxy.symm
    · rw [Fields.get_cons_ne hk, Fields.get_cons_ne hk, ih]

private theorem exists_traverseFields (h : ∀ x ∈ fs, (traverse f x.2).isSome) :
    ∃ gs : List (String × Json β), List.Forall₂ (fun a b => a.1 = b.1 ∧ traverse f a.2 = some b.2) fs gs := by
  induction fs with
  | nil => exact ⟨[], .nil⟩
  | cons a fs ih =>
    rw [List.forall_mem_cons] at h
    obtain ⟨y, hy⟩ := Option.isSome_iff_exists.mp h.1
    obtain ⟨gs, hgs⟩ := ih h.2
    exact ⟨(a.1, y) :: gs, .cons ⟨rfl, hy⟩ hgs⟩

/-- An object is translated member by member. -/
theorem traverse_obj :
    traverse f (.obj fs) = some w ↔ (∀ x ∈ fs, (traverse f x.2).isSome) ∧
      ∃ gs, w = .obj gs ∧ Fields.Sorted gs ∧ ∀ k, Fields.get k gs = (Fields.get k fs).bind (traverse f) := by
  simp only [traverse, Option.map_eq_some_iff, traverseFields_eq_some]
  constructor
  · rintro ⟨gs, h, rfl⟩
    refine ⟨fun x hx => ?_, _, rfl, Fields.sorted_ofList gs, fun k => ?_⟩
    · obtain ⟨y, -, -, hy⟩ := forall₂_exists_right h hx
      rw [hy]
      rfl
    · rw [Fields.get_ofList, get_traverseFields h]
  · rintro ⟨hall, gs, rfl, hsorted, hget⟩
    obtain ⟨hs, h⟩ := exists_traverseFields hall
    refine ⟨hs, h, congrArg Json.obj ((Fields.sorted_ofList hs).ext hsorted fun k => ?_)⟩
    rw [Fields.get_ofList, get_traverseFields h, hget]

theorem exists_traverse_obj (h : ∀ x ∈ fs, (traverse f x.2).isSome) : ∃ w, traverse f (.obj fs) = some w := by
  obtain ⟨gs, hgs⟩ := exists_traverseFields h
  refine ⟨_, traverse_obj.mpr ⟨h, _, rfl, Fields.sorted_ofList gs, fun k => ?_⟩⟩
  rw [Fields.get_ofList, get_traverseFields hgs]

/-- A translated member, by its key. -/
theorem get_of_traverse_obj (h : traverse f (.obj fs) = some (.obj gs)) (k : String) :
    Fields.get k gs = (Fields.get k fs).bind (traverse f) := by
  obtain ⟨-, hs, hgs, -, hget⟩ := traverse_obj.mp h
  rw [Json.obj.inj hgs]
  exact hget k

/-- A member of a translated object comes from a member of the object. -/
theorem mem_of_traverse_obj (h : traverse f (.obj fs) = some (.obj gs)) {g : String × Json β} (hg : g ∈ gs) :
    ∃ x, (g.1, x) ∈ fs ∧ traverse f x = some g.2 := by
  obtain ⟨-, gs', hgs, hsorted, -⟩ := traverse_obj.mp h
  obtain rfl := Json.obj.inj hgs
  have hget := get_of_traverse_obj h g.1
  rw [Fields.get_of_mem hsorted.nodup hg, eq_comm, Option.bind_eq_some_iff] at hget
  obtain ⟨x, hx, hxy⟩ := hget
  exact ⟨x, Fields.mem_of_get hx, hxy⟩

/-- A translated tree is in key order. -/
theorem sorted_of_traverse (h : traverse f v = some w) : w.Sorted := by
  induction v generalizing w with
  | null =>
    cases h
    exact .null
  | bool b =>
    cases h
    exact .bool b
  | str s =>
    cases h
    exact .str s
  | leaf a =>
    obtain ⟨b, -, rfl⟩ := Option.map_eq_some_iff.mp h
    exact .leaf b
  | arr xs ih =>
    obtain ⟨ys, rfl, hall⟩ := traverse_arr.mp h
    refine .arr fun y hy => ?_
    obtain ⟨x, hx, hxy⟩ := forall₂_exists_right hall.flip hy
    exact ih x hx hxy
  | obj fs ih =>
    obtain ⟨-, gs, rfl, hsorted, -⟩ := traverse_obj.mp h
    refine .obj hsorted fun g hg => ?_
    obtain ⟨x, hx, hxg⟩ := mem_of_traverse_obj h hg
    exact ih _ hx hxg

/-- What holds of every translated leaf holds of the leaves of a translated tree. -/
theorem forall_leaves_of_traverse {p : β → Prop} (hp : ∀ a b, f a = some b → p b) (h : traverse f v = some w) :
    ∀ b ∈ w.leaves, p b := by
  induction v generalizing w with
  | null | bool b | str s =>
    cases h
    exact nofun
  | leaf a =>
    obtain ⟨b, hb, rfl⟩ := Option.map_eq_some_iff.mp h
    simpa [leaves] using hp a b hb
  | arr xs ih =>
    obtain ⟨ys, rfl, hall⟩ := traverse_arr.mp h
    refine forall_leaves_arr.mpr fun y hy => ?_
    obtain ⟨x, hx, hxy⟩ := forall₂_exists_right hall.flip hy
    exact ih x hx hxy
  | obj fs ih =>
    obtain ⟨-, gs, rfl, -⟩ := traverse_obj.mp h
    refine forall_leaves_obj.mpr fun g hg => ?_
    obtain ⟨x, hx, hxg⟩ := mem_of_traverse_obj h hg
    exact ih _ hx hxg

theorem traverse_eq_arr (h : traverse f v = some (.arr ys)) :
    ∃ xs, v = .arr xs ∧ List.Forall₂ (fun x y => traverse f x = some y) xs ys := by
  cases v with
  | arr xs =>
    obtain ⟨zs, hzs, hall⟩ := traverse_arr.mp h
    obtain rfl := Json.arr.inj hzs
    exact ⟨xs, rfl, hall⟩
  | leaf a | obj fs => simp [traverse] at h
  | _ => cases h

theorem traverse_eq_obj (h : traverse f v = some (.obj gs)) : ∃ fs, v = .obj fs := by
  cases v with
  | obj fs => exact ⟨fs, rfl⟩
  | leaf a | arr xs => simp [traverse] at h
  | _ => cases h

end Json
end Onprest.Lib
