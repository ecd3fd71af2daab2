import Mathlib.Algebra.Order.BigOperators.Group.List
import Onprest.Lib.JsonText

/-! Measures of JSON trees: how deep they nest, how many values and keys they hold, and how many bytes their text
has. -/

namespace Onprest.Lib

/-- The bytes of a text in UTF-8. -/
def utf8Length (cs : List Char) : ℕ := (cs.map Char.utf8Size).sum

@[simp] theorem utf8Length_nil : utf8Length [] = 0 := rfl

@[simp] theorem utf8Length_cons (c : Char) (cs : List Char) : utf8Length (c :: cs) = c.utf8Size + utf8Length cs := by
  simp [utf8Length]

@[simp] theorem utf8Length_append (cs ds : List Char) : utf8Length (cs ++ ds) = utf8Length cs + utf8Length ds := by
  simp [utf8Length]

theorem size_utf8Encode (cs : List Char) : cs.utf8Encode.size = utf8Length cs := by
  rw [List.utf8Encode, List.size_toByteArray, List.length_flatMap, utf8Length]
  simp only [String.length_utf8EncodeChar]

/-- A text without multibyte characters. -/
theorem utf8Length_eq_length {cs : List Char} (h : ∀ c ∈ cs, c.utf8Size = 1) : utf8Length cs = cs.length := by
  induction cs with
  | nil => rfl
  | cons c cs ih =>
    rw [List.forall_mem_cons] at h
    rw [utf8Length_cons, h.1, ih h.2, List.length_cons, Nat.add_comm]

theorem NumberText.utf8Length_text (t : NumberText) : utf8Length t.text = t.text.length := by
  have hdigit : ∀ d : Fin 10, (digitChar d).utf8Size = 1 := by decide
  have hother : ∀ c ∈ "-+.eE".toList, c.utf8Size = 1 := by simp [Char.utf8Size]
  apply utf8Length_eq_length
  intro c hc
  rcases mem_text hc with h | ⟨d, rfl⟩
  · exact hother c h
  · exact hdigit d

/-! ### Sums over a tree -/

/-- What each part of a tree counts for. -/
structure Weight where
  null : ℕ
  bool : Bool → ℕ
  str : String → ℕ
  key : String → ℕ
  /-- An array or an object with that many parts. -/
  brackets : ℕ → ℕ

namespace Json
variable {α β : Type}

section Total
variable (w : Weight) (leaf : α → ℕ)

mutual
/-- The weight of a tree. -/
def total : Json α → ℕ
  | .null => w.null
  | .bool b => w.bool b
  | .str s => w.str s
  | .leaf a => leaf a
  | .arr xs => w.brackets xs.length + totalItems xs
  | .obj fs => w.brackets fs.length + totalFields fs
def totalItems : List (Json α) → ℕ
  | [] => 0
  | x :: xs => total x + totalItems xs
def totalFields : List (String × Json α) → ℕ
  | [] => 0
  | (k, x) :: fs => w.key k + total x + totalFields fs
end

theorem totalItems_eq (xs : List (Json α)) : totalItems w leaf xs = (xs.map (total w leaf)).sum := by
  induction xs with
  | nil => rfl
  | cons x xs ih => rw [totalItems, ih, List.map_cons, List.sum_cons]

theorem totalFields_eq (fs : List (String × Json α)) :
    totalFields w leaf fs = (fs.map fun f => w.key f.1 + total w leaf f.2).sum := by
  induction fs with
  | nil => rfl
  | cons f fs ih => rw [totalFields, ih, List.map_cons, List.sum_cons]

end Total

/-- The values and keys of a tree. -/
def countWeight : Weight where
  null := 1
  bool _ := 1
  str _ := 1
  key _ := 1
  brackets _ := 1

/-- The number of values and keys. -/
def items (v : Json α) : ℕ := total countWeight (fun _ => 1) v

def itemsList (xs : List (Json α)) : ℕ := totalItems countWeight (fun _ => 1) xs

def itemsFields (fs : List (String × Json α)) : ℕ := totalFields countWeight (fun _ => 1) fs

@[simp] theorem items_arr (xs : List (Json α)) : items (.arr xs) = 1 + itemsList xs := by
  rw [items, total]
  rfl

@[simp] theorem items_obj (fs : List (String × Json α)) : items (.obj fs) = 1 + itemsFields fs := by
  rw [items, total]
  rfl

@[simp] theorem itemsList_nil : itemsList ([] : List (Json α)) = 0 := rfl

@[simp] theorem itemsFields_nil : itemsFields ([] : List (String × Json α)) = 0 := rfl

@[simp] theorem itemsList_cons (x : Json α) (xs : List (Json α)) : itemsList (x :: xs) = items x + itemsList xs := by
  rw [itemsList, totalItems]
  rfl

@[simp] theorem itemsFields_cons (k : String) (x : Json α) (fs : List (String × Json α)) :
    itemsFields ((k, x) :: fs) = 1 + items x + itemsFields fs := by
  rw [itemsFields, totalFields]
  rfl

theorem items_pos (v : Json α) : 0 < items v := by
  unfold items
  cases v <;> simp [total, countWeight]

mutual
/-- The levels of nesting. -/
def depth : Json α → ℕ
  | .arr xs => depthItems xs + 1
  | .obj fs => depthFields fs + 1
  | _ => 1
def depthItems : List (Json α) → ℕ
  | [] => 0
  | x :: xs => max (depth x) (depthItems xs)
def depthFields : List (String × Json α) → ℕ
  | [] => 0
  | (_, x) :: fs => max (depth x) (depthFields fs)
end

theorem depth_pos (v : Json α) : 0 < depth v := by
  cases v <;> simp [depth]

variable {n : ℕ} {html : Bool}

theorem depthItems_le {xs : List (Json α)} : depthItems xs ≤ n ↔ ∀ x ∈ xs, depth x ≤ n := by
  induction xs with
  | nil => simp [depthItems]
  | cons x xs ih => rw [depthItems, max_le_iff, ih, List.forall_mem_cons]

theorem depthFields_le {fs : List (String × Json α)} : depthFields fs ≤ n ↔ ∀ f ∈ fs, depth f.2 ≤ n := by
  induction fs with
  | nil => simp [depthFields]
  | cons f fs ih => rw [depthFields, max_le_iff, ih, List.forall_mem_cons]

theorem depth_le_items (v : Json α) : depth v ≤ items v := by
  unfold items
  induction v with
  | arr xs ih =>
    rw [depth, total, totalItems_eq, Nat.add_comm]
    refine Nat.add_le_add_left (depthItems_le.mpr fun x hx => ?_) 1
    exact (ih x hx).trans (List.single_le_sum (by simp) _ (List.mem_map_of_mem hx))
  | obj fs ih =>
    rw [depth, total, totalFields_eq, Nat.add_comm]
    refine Nat.add_le_add_left (depthFields_le.mpr fun f hf => (ih f hf).trans ?_) 1
    exact (Nat.le_add_left _ _).trans (List.single_le_sum (by simp) _ (List.mem_map_of_mem hf))
  | _ => exact le_rfl

/-! ### Texts -/

/-- The bytes of the parts of a text. -/
def byteWeight (html : Bool) : Weight where
  null := 4
  bool b := if b then 4 else 5
  str s := utf8Length (quote html s)
  key k := utf8Length (quote html k) + 1
  brackets n := 2 + (n - 1)

/-- The bytes of the text of a tree. -/
def bytes (html : Bool) (v : Json NumberText) : ℕ := total (byteWeight html) (·.text.length) v

private theorem utf8Length_renderItems {xs : List (Json NumberText)}
    (ih : ∀ x ∈ xs, utf8Length (render html x) = bytes html x) :
    utf8Length (renderItems html xs) = xs.length + totalItems (byteWeight html) (·.text.length) xs := by
  induction xs with
  | nil => rfl
  | cons x xs ihs =>
    rw [List.forall_mem_cons] at ih
    rw [renderItems, utf8Length_cons, utf8Length_append, ih.1, ihs ih.2, totalItems, bytes, List.length_cons]
    change 1 + _ = _
    omega

private theorem utf8Length_renderFields {fs : List (String × Json NumberText)}
    (ih : ∀ f ∈ fs, utf8Length (render html f.2) = bytes html f.2) :
    utf8Length (renderFields html fs) = fs.length + totalFields (byteWeight html) (·.text.length) fs := by
  induction fs with
  | nil => rfl
  | cons f fs ihs =>
    obtain ⟨k, x⟩ := f
    rw [List.forall_mem_cons] at ih
    have hx : utf8Length (render html x) = total (byteWeight html) (·.text.length) x := ih.1
    rw [renderFields, utf8Length_cons, utf8Length_append, utf8Length_cons, utf8Length_append, hx, ihs ih.2,
      totalFields, List.length_cons]
    change 1 + (_ + (1 + _)) = _ + 1 + (utf8Length (quote html k) + 1 + _ + _)
    omega

/-- The measure is the length of the text. -/
theorem utf8Length_render (html : Bool) (v : Json NumberText) : utf8Length (render html v) = bytes html v := by
  induction v with
  | null => rfl
  | bool b => cases b <;> rfl
  | str s => rfl
  | leaf t => exact t.utf8Length_text
  | arr xs ih =>
    have hitems := utf8Length_renderItems ih
    cases xs with
    | nil => rfl
    | cons x xs =>
      rw [renderItems, utf8Length_cons, List.length_cons] at hitems
      simp only [render, renderItems, List.drop_succ_cons, List.drop_zero, utf8Length_cons, utf8Length_append,
        utf8Length_nil, bytes, total]
      change 1 + (_ + (1 + 0)) = 2 + (xs.length + 1 - 1) + _
      change 1 + _ = _ at hitems
      rw [utf8Length_append] at hitems
      omega
  | obj fs ih =>
    have hfields := utf8Length_renderFields ih
    cases fs with
    | nil => rfl
    | cons f fs =>
      obtain ⟨k, x⟩ := f
      rw [renderFields, utf8Length_cons, List.length_cons] at hfields
      simp only [render, renderFields, List.drop_succ_cons, List.drop_zero, utf8Length_cons, utf8Length_append,
        utf8Length_nil, bytes, total]
      change 1 + (_ + (1 + 0)) = 2 + (fs.length + 1 - 1) + _
      change 1 + _ = _ at hfields
      rw [utf8Length_append, utf8Length_cons, utf8Length_append] at hfields
      omega

theorem two_le_quote (html : Bool) (s : String) : 2 ≤ utf8Length (quote html s) := by
  have hone : '"'.utf8Size = 1 := rfl
  simp only [quote, utf8Length_cons, utf8Length_append, utf8Length_nil, List.cons_append, hone]
  omega

/-- A text has a byte for every value and key. -/
theorem items_le_bytes (html : Bool) (v : Json NumberText) : items v ≤ bytes html v := by
  unfold items bytes
  induction v with
  | null => simp [total, countWeight, byteWeight]
  | bool b => cases b <;> simp [total, countWeight, byteWeight]
  | str s => exact le_trans (Nat.le_succ 1) (two_le_quote html s)
  | leaf t =>
    obtain ⟨c, cs, hc, -⟩ := t.text_head
    simp [total, hc]
  | arr xs ih =>
    rw [total, total, totalItems_eq, totalItems_eq]
    have := List.sum_le_sum ih
    simp only [countWeight, byteWeight] at this ⊢
    omega
  | obj fs ih =>
    rw [total, total, totalFields_eq, totalFields_eq]
    have : (fs.map fun f => 1 + total countWeight (fun _ => 1) f.2).sum
        ≤ (fs.map fun f => utf8Length (quote html f.1) + 1 + total (byteWeight html) (·.text.length) f.2).sum := by
      refine List.sum_le_sum fun f hf => ?_
      have := ih f hf
      omega
    simp only [countWeight, byteWeight] at this ⊢
    omega

end Json
end Onprest.Lib
