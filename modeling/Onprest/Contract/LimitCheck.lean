import Onprest.Lib.Except
import Onprest.Contract.Decode

/-! `checkJSONLimits` counts what `CanonicalJSON` prints and what `DecodeJSON` counts: it succeeds on a value exactly
when the canonical text of the value is decoded under the same limits. -/

namespace Onprest.Contract
open Lib

mutual
/-- `canonicalInput`: a file becomes its metadata, without its ID and its pointer. -/
def canonicalInput : Value → Value
  | .leaf (.file f) =>
    .obj [("name", .str f.name), ("mime_type", .str f.mimeType), ("size_bytes", Value.num (.int64 f.sizeBytes)),
      ("sha256", .str f.sha256)]
  | .obj fs => .obj (canonicalInputFields fs)
  | .arr xs => .arr (canonicalInputItems xs)
  | v => v
def canonicalInputItems : List Value → List Value
  | [] => []
  | x :: xs => canonicalInput x :: canonicalInputItems xs
def canonicalInputFields : List (String × Value) → List (String × Value)
  | [] => []
  | (k, x) :: fs => (k, canonicalInput x) :: canonicalInputFields fs
end

def Leaf.isFile : Leaf → Bool
  | .num _ => false
  | .file _ => true

/-- The value holds no file. -/
def FileFree (v : Value) : Prop := ∀ a ∈ v.leaves, a.isFile = false

instance (v : Value) : Decidable (FileFree v) := inferInstanceAs (Decidable (∀ a ∈ v.leaves, a.isFile = false))

theorem bind_eq_ok {α β : Type} {x : Except String α} {f : α → Except String β} {b : β} :
    x.bind f = .ok b ↔ ∃ a, x = .ok a ∧ f a = .ok b := except_bind_eq_ok

/-! ### Strings -/

theorem utf8Length_hex4 (n : ℕ) : utf8Length (hex4 n) = 4 := by
  have hdigit : ∀ d : Fin 16, (hexChar d).utf8Size = 1 := by decide
  have hsize (m : ℕ) : (hexChar (m % 16)).utf8Size = 1 := hdigit ⟨m % 16, Nat.mod_lt _ (by norm_num)⟩
  simp [hex4, hsize]

/-- What `jsonStringBytes` adds for a character is the length of its escape. -/
theorem escape_bytes (n : ℕ) (c : Char) :
    (if ['\\', '"', '\x08', '\x0c', '\n', '\r', '\t'].contains c then n + 2
      else if c.toNat = 0x2028 || c.toNat = 0x2029 then n + 6
      else if c.toNat < 0x20 then n + 6
      else n + c.utf8Size) = n + utf8Length (escapeChar false c) := by
  unfold escapeChar
  cases h : shortEscapes.lookup c with
  | some e =>
    have hshort : ∀ p ∈ shortEscapes, ['\\', '"', '\x08', '\x0c', '\n', '\r', '\t'].contains p.1 = true ∧
        p.2.utf8Size = 1 := by decide
    obtain ⟨hmem, hsize⟩ := hshort _ (mem_of_lookup h)
    have hslash : '\\'.utf8Size = 1 := rfl
    dsimp only at hmem hsize
    rw [if_pos hmem]
    simp [hsize, hslash]
  | none =>
    have hmem : ['\\', '"', '\x08', '\x0c', '\n', '\r', '\t'].contains c = false := by
      by_contra hc
      simp only [Bool.not_eq_false, List.contains_iff_mem, List.mem_cons, List.not_mem_nil, or_false] at hc
      rcases hc with rfl | rfl | rfl | rfl | rfl | rfl | rfl <;> cases h
    have hlong : longEscape false c = true ↔ c.toNat < 0x20 ∨ c.toNat = 0x2028 ∨ c.toNat = 0x2029 := by
      simp only [longEscape, Bool.false_and, Bool.or_false, Bool.or_eq_true, decide_eq_true_eq, beq_iff_eq, or_assoc,
        ← Char.toNat_inj]
      rfl
    rw [hmem]
    simp only [Bool.false_eq_true, if_false, hlong, Bool.or_eq_true, decide_eq_true_eq]
    by_cases hc : c.toNat < 0x20 ∨ c.toNat = 0x2028 ∨ c.toNat = 0x2029
    · rw [if_pos hc, utf8Length_cons, utf8Length_cons, utf8Length_hex4]
      change _ = n + (1 + (1 + 4))
      split_ifs <;> omega
    · rw [if_neg hc, utf8Length_cons, utf8Length_nil]
      split_ifs <;> omega

/-- The hand-written length of a string is that of the encoder. -/
theorem jsonStringBytes_eq (s : String) : jsonStringBytes s = utf8Length (quote false s) := by
  have hfold (cs : List Char) (n : ℕ) : cs.foldl (fun n c =>
      if ['\\', '"', '\x08', '\x0c', '\n', '\r', '\t'].contains c then n + 2
      else if c.toNat = 0x2028 || c.toNat = 0x2029 then n + 6
      else if c.toNat < 0x20 then n + 6
      else n + c.utf8Size) n = n + utf8Length (cs.flatMap (escapeChar false)) := by
    induction cs generalizing n with
    | nil => rfl
    | cons c cs ih => rw [List.foldl_cons, escape_bytes, ih, List.flatMap_cons, utf8Length_append, Nat.add_assoc]
  have hquote : '"'.utf8Size = 1 := rfl
  rw [jsonStringBytes, hfold, quote, List.cons_append, utf8Length_cons, utf8Length_append, utf8Length_cons,
    utf8Length_nil, hquote]
  omega

/-! ### What is counted -/

/-- The bytes of a leaf that has a text. -/
def leafSize (a : Leaf) : ℕ := (leafBytes a).toOption.getD 0

/-- The leaf has a text. -/
def Printable (a : Leaf) : Prop := leafBytes a = .ok (leafSize a)

variable {f : Json NumberText} {b n d d' n' b' k : ℕ} {a : Leaf} {l : Limits} {u : Usage} {v : Value}

theorem leafBytes_eq_ok : leafBytes a = .ok n ↔ Printable a ∧ n = leafSize a := by
  unfold Printable leafSize
  cases leafBytes a with
  | error e => simp [Except.toOption]
  | ok m => simp [Except.toOption, eq_comm]

/-- The bytes of the text of a value. -/
def valueBytes (v : Value) : ℕ := v.total (Json.byteWeight false) leafSize

/-- Levels up to before `d`, `n` values and keys and `b` bytes are within the limits. -/
structure Room (l : Limits) (d n b : ℕ) : Prop where
  within : Within l d n
  bytes : (b : ℤ) ≤ l.maxBytes.toInt

theorem Room.anti (h : Room l d n b) (hd : d' ≤ d) (hn : n' ≤ n) (hb : b' ≤ b) :
    Room l d' n' b' := ⟨h.within.anti hd hn, by have := h.bytes; omega⟩

/-- Both of two depths are within the limits. -/
theorem Room.max (h : Room l d n b) (h' : Room l d' n' b') : Room l (Max.max d d') n' b' :=
  ⟨⟨by have := h.within.1; have := h'.within.1; omega, h'.within.2⟩, h'.bytes⟩

theorem addBytes_ok : Usage.addBytes l k ⟨n, b⟩ = .ok u ↔ ((b + k : ℕ) : ℤ) ≤ l.maxBytes.toInt ∧ u = ⟨n, b + k⟩ := by
  unfold Usage.addBytes
  push_cast
  split
  · rename_i h
    exact iff_of_false nofun fun h' => absurd h'.1 (not_le.mpr h)
  · rename_i h
    rw [Except.ok.injEq, eq_comm]
    exact ⟨fun h' => ⟨not_lt.mp h, h'⟩, fun h' => h'.2⟩

theorem visit_ok : Usage.visit l d ⟨n, b⟩ = .ok u ↔ Within l (d + 1) (n + 1) ∧ u = ⟨n + 1, b⟩ := by
  unfold Usage.visit Within
  push_cast
  split
  · rename_i h
    simp only [Bool.or_eq_true, decide_eq_true_eq] at h
    refine iff_of_false nofun fun h' => ?_
    omega
  · rename_i h
    simp only [Bool.or_eq_true, decide_eq_true_eq, not_or] at h
    rw [Except.ok.injEq, eq_comm]
    exact ⟨fun h' => ⟨by omega, h'⟩, fun h' => h'.2⟩

/-- The bytes of a key and its colon. -/
def keyBytes (k : String) : ℕ := utf8Length (quote false k) + 1

theorem addKey_ok {k : String} (hd : (d : ℤ) ≤ l.maxDepth.toInt + 1) :
    Usage.addKey l k ⟨n, b⟩ = .ok u ↔ Room l d (n + 1) (b + keyBytes k) ∧ u = ⟨n + 1, b + keyBytes k⟩ := by
  simp only [Usage.addKey, bind_eq_ok, addBytes_ok, jsonStringBytes_eq]
  constructor
  · rintro ⟨_, ⟨hbytes, rfl⟩, h⟩
    split at h
    · cases h
    · rename_i hcount
      cases h
      exact ⟨⟨⟨hd, by push_cast; exact not_lt.mp hcount⟩, hbytes⟩, rfl⟩
  · rintro ⟨⟨⟨-, hcount⟩, hbytes⟩, rfl⟩
    push_cast at hcount
    exact ⟨_, ⟨hbytes, rfl⟩, if_neg (not_lt.mpr hcount)⟩

theorem visit_addBytes_ok :
    (Usage.visit l d ⟨n, b⟩).bind (Usage.addBytes l k) = .ok u ↔ Room l (d + 1) (n + 1) (b + k) ∧
      u = ⟨n + 1, b + k⟩ := by
  simp only [bind_eq_ok, visit_ok]
  constructor
  · rintro ⟨_, ⟨hwithin, rfl⟩, h⟩
    obtain ⟨hbytes, rfl⟩ := addBytes_ok.mp h
    exact ⟨⟨hwithin, hbytes⟩, rfl⟩
  · rintro ⟨⟨hwithin, hbytes⟩, rfl⟩
    exact ⟨_, ⟨hwithin, rfl⟩, addBytes_ok.mpr ⟨hbytes, rfl⟩⟩

/-- The visit succeeds if every leaf has a text and the counts stay within the limits. -/
def Checks (l : Limits) (v : Value) : Prop :=
  ∀ d n b u, checkValue l d v ⟨n, b⟩ = .ok u ↔
    (∀ a ∈ v.leaves, Printable a) ∧ Room l (d + v.depth) (n + v.items) (b + valueBytes v) ∧
      u = ⟨n + v.items, b + valueBytes v⟩

def itemsBytes (xs : List Value) : ℕ := Json.totalItems (Json.byteWeight false) leafSize xs

def fieldsBytes (fs : List (String × Value)) : ℕ := Json.totalFields (Json.byteWeight false) leafSize fs

theorem checkItems_ok {xs : List Value} (ih : ∀ x ∈ xs, Checks l x) (hroom : Room l d n b) :
    checkItems l d xs ⟨n, b⟩ = .ok u ↔ (∀ x ∈ xs, ∀ a ∈ x.leaves, Printable a) ∧
      Room l (d + Json.depthItems xs) (n + Json.itemsList xs) (b + itemsBytes xs) ∧
      u = ⟨n + Json.itemsList xs, b + itemsBytes xs⟩ := by
  induction xs generalizing n b with
  | nil =>
    rw [checkItems, Except.ok.injEq, eq_comm]
    exact ⟨fun hu => ⟨nofun, hroom, hu⟩, fun h => h.2.2⟩
  | cons x xs ihs =>
    rw [List.forall_mem_cons] at ih
    have hcount : n + Json.itemsList (x :: xs) = n + x.items + Json.itemsList xs := by
      rw [Json.itemsList_cons, Nat.add_assoc]
    have hbytes : b + itemsBytes (x :: xs) = b + valueBytes x + itemsBytes xs := by
      rw [itemsBytes, Json.totalItems, Nat.add_assoc]
      rfl
    have hdepth : d + Json.depthItems (x :: xs) = Max.max (d + x.depth) (d + Json.depthItems xs) := by
      rw [Json.depthItems]
      omega
    rw [checkItems, bind_eq_ok, List.forall_mem_cons, hcount, hbytes, hdepth]
    constructor
    · rintro ⟨u₁, hx, hxs⟩
      obtain ⟨hprint, hfirst, rfl⟩ := (ih.1 d n b u₁).mp hx
      obtain ⟨hprints, hrest, rfl⟩ := (ihs ih.2 (hfirst.anti (Nat.le_add_right _ _) le_rfl le_rfl)).mp hxs
      exact ⟨⟨hprint, hprints⟩, hfirst.max hrest, rfl⟩
    · rintro ⟨⟨hprint, hprints⟩, hall, rfl⟩
      have hfirst : Room l (d + x.depth) (n + x.items) (b + valueBytes x) :=
        hall.anti (by omega) (by omega) (by omega)
      refine ⟨_, (ih.1 d n b _).mpr ⟨hprint, hfirst, rfl⟩, ?_⟩
      exact (ihs ih.2 (hfirst.anti (Nat.le_add_right _ _) le_rfl le_rfl)).mpr ⟨hprints,
        hall.anti (by omega) le_rfl le_rfl, rfl⟩

theorem checkFields_ok {fs : List (String × Value)} (ih : ∀ f ∈ fs, Checks l f.2) (hroom : Room l d n b) :
    checkFields l d fs ⟨n, b⟩ = .ok u ↔ (∀ f ∈ fs, ∀ a ∈ f.2.leaves, Printable a) ∧
      Room l (d + Json.depthFields fs) (n + Json.itemsFields fs) (b + fieldsBytes fs) ∧
      u = ⟨n + Json.itemsFields fs, b + fieldsBytes fs⟩ := by
  induction fs generalizing n b with
  | nil =>
    rw [checkFields, Except.ok.injEq, eq_comm]
    exact ⟨fun hu => ⟨nofun, hroom, hu⟩, fun h => h.2.2⟩
  | cons f fs ihs =>
    obtain ⟨k, x⟩ := f
    rw [List.forall_mem_cons] at ih
    have hcount : n + Json.itemsFields ((k, x) :: fs) = n + 1 + x.items + Json.itemsFields fs := by
      rw [Json.itemsFields_cons]
      omega
    have hbytes : b + fieldsBytes ((k, x) :: fs) = b + keyBytes k + valueBytes x + fieldsBytes fs := by
      rw [fieldsBytes, Json.totalFields]
      change b + (keyBytes k + valueBytes x + fieldsBytes fs) = _
      omega
    have hdepth : d + Json.depthFields ((k, x) :: fs) = Max.max (d + x.depth) (d + Json.depthFields fs) := by
      rw [Json.depthFields]
      omega
    rw [checkFields, bind_eq_ok, List.forall_mem_cons, hcount, hbytes, hdepth]
    constructor
    · rintro ⟨u₁, hx, hfs⟩
      obtain ⟨u₀, hkey, hx⟩ := bind_eq_ok.mp hx
      obtain ⟨-, rfl⟩ := (addKey_ok hroom.within.1).mp hkey
      obtain ⟨hprint, hfirst, rfl⟩ := (ih.1 d _ _ u₁).mp hx
      obtain ⟨hprints, hrest, rfl⟩ := (ihs ih.2 (hfirst.anti (Nat.le_add_right _ _) le_rfl le_rfl)).mp hfs
      exact ⟨⟨hprint, hprints⟩, hfirst.max hrest, rfl⟩
    · rintro ⟨⟨hprint, hprints⟩, hall, rfl⟩
      have hfirst : Room l (d + x.depth) (n + 1 + x.items) (b + keyBytes k + valueBytes x) :=
        hall.anti (by omega) (by omega) (by omega)
      have hkey : Room l d (n + 1) (b + keyBytes k) := hfirst.anti (by omega) (by omega) (by omega)
      refine ⟨_, bind_eq_ok.mpr ⟨_, (addKey_ok hroom.within.1).mpr ⟨hkey, rfl⟩,
        (ih.1 d _ _ _).mpr ⟨hprint, hfirst, rfl⟩⟩, ?_⟩
      exact (ihs ih.2 (hfirst.anti (Nat.le_add_right _ _) le_rfl le_rfl)).mpr ⟨hprints,
        hall.anti (by omega) le_rfl le_rfl, rfl⟩

/-- What the visit counts, and when it succeeds. -/
theorem checks (l : Limits) (v : Value) : Checks l v := by
  induction v using Json.induct with
  | null | bool x =>
    intro d n b u
    rw [checkValue, visit_addBytes_ok]
    exact ⟨fun h => ⟨nofun, h⟩, fun h => h.2⟩
  | str s =>
    intro d n b u
    rw [checkValue, visit_addBytes_ok, jsonStringBytes_eq]
    exact ⟨fun h => ⟨nofun, h⟩, fun h => h.2⟩
  | leaf a =>
    intro d n b u
    have hleaf : (∀ c ∈ (Json.leaf a).leaves, Printable c) ↔ Printable a := by simp [Json.leaves]
    rw [hleaf, checkValue, bind_eq_ok]
    constructor
    · rintro ⟨u₁, hvisit, h⟩
      obtain ⟨hwithin, rfl⟩ := visit_ok.mp hvisit
      obtain ⟨k, hk, h⟩ := bind_eq_ok.mp h
      obtain ⟨hprint, rfl⟩ := leafBytes_eq_ok.mp hk
      obtain ⟨hbytes, rfl⟩ := addBytes_ok.mp h
      exact ⟨hprint, ⟨hwithin, hbytes⟩, rfl⟩
    · rintro ⟨hprint, ⟨hwithin, hbytes⟩, rfl⟩
      exact ⟨_, visit_ok.mpr ⟨hwithin, rfl⟩, bind_eq_ok.mpr ⟨_, hprint, addBytes_ok.mpr ⟨hbytes, rfl⟩⟩⟩
  | arr xs ih =>
    intro d n b u
    have hcount : n + Json.items (.arr xs) = n + 1 + Json.itemsList xs := by
      rw [Json.items_arr, Nat.add_assoc]
    have hbytes : b + valueBytes (.arr xs) = b + (2 + (xs.length - 1)) + itemsBytes xs := by
      rw [valueBytes, Json.total, Nat.add_assoc]
      rfl
    have hdepth : d + Json.depth (.arr xs) = d + 1 + Json.depthItems xs := by
      rw [Json.depth]
      omega
    rw [checkValue, bind_eq_ok, Json.forall_leaves_arr, hcount, hbytes, hdepth]
    constructor
    · rintro ⟨u₁, h, hxs⟩
      obtain ⟨hroom, rfl⟩ := visit_addBytes_ok.mp h
      exact (checkItems_ok ih hroom).mp hxs
    · intro h
      have hroom := h.2.1.anti (Nat.le_add_right _ _) (Nat.le_add_right _ _) (Nat.le_add_right _ _)
      exact ⟨_, visit_addBytes_ok.mpr ⟨hroom, rfl⟩, (checkItems_ok ih hroom).mpr h⟩
  | obj fs ih =>
    intro d n b u
    have hcount : n + Json.items (.obj fs) = n + 1 + Json.itemsFields fs := by
      rw [Json.items_obj, Nat.add_assoc]
    have hbytes : b + valueBytes (.obj fs) = b + (2 + (fs.length - 1)) + fieldsBytes fs := by
      rw [valueBytes, Json.total, Nat.add_assoc]
      rfl
    have hdepth : d + Json.depth (.obj fs) = d + 1 + Json.depthFields fs := by
      rw [Json.depth]
      omega
    rw [checkValue, bind_eq_ok, Json.forall_leaves_obj, hcount, hbytes, hdepth]
    constructor
    · rintro ⟨u₁, h, hfs⟩
      obtain ⟨hroom, rfl⟩ := visit_addBytes_ok.mp h
      exact (checkFields_ok ih hroom).mp hfs
    · intro h
      have hroom := h.2.1.anti (Nat.le_add_right _ _) (Nat.le_add_right _ _) (Nat.le_add_right _ _)
      exact ⟨_, visit_addBytes_ok.mpr ⟨hroom, rfl⟩, (checkFields_ok ih hroom).mpr h⟩

/-! ### The text -/

theorem leafSize_num {n : Number} {t : NumberText} (h : canonicalNumber n = .ok t) :
    leafSize (.num n) = t.text.length := by
  simp [leafSize, leafBytes, h, Except.map, Except.toOption]

theorem printable_num {n : Number} : Printable (.num n) ↔ ((Leaf.num n).canonical).isSome := by
  unfold Printable
  cases h : canonicalNumber n with
  | error e | ok t => simp [leafBytes, leafSize, Leaf.canonical, h, Except.map, Except.toOption]

/-- A value without files has a canonical form if its leaves have texts, and the measure is the length of the text.
-/
theorem bytes_canonicalForm (hd : distinct v = true) (h : canonicalForm v = some f) :
    f.bytes false = valueBytes v := by
  refine total_of_traverse _ (fun a t ha => ?_) hd h
  obtain ⟨n, rfl, hn⟩ := canonical_num ha
  exact (leafSize_num hn).symm

theorem isSome_canonicalForm (hv : FileFree v) : (canonicalForm v).isSome ↔ ∀ a ∈ v.leaves, Printable a := by
  rw [canonicalForm, Json.isSome_traverse]
  refine forall₂_congr fun a ha => ?_
  cases a with
  | file f => cases hv _ ha
  | num n => exact printable_num.symm

/-! ### Files -/

theorem canonicalInputItems_eq (xs : List Value) : canonicalInputItems xs = xs.map canonicalInput := by
  induction xs with
  | nil => rfl
  | cons x xs ih => rw [canonicalInputItems, ih, List.map_cons]

theorem canonicalInputFields_eq (fs : List (String × Value)) :
    canonicalInputFields fs = fs.map fun f => (f.1, canonicalInput f.2) := by
  induction fs with
  | nil => rfl
  | cons f fs ih => rw [canonicalInputFields, ih, List.map_cons]

theorem distinct_canonicalInput (hd : distinct v = true) : distinct (canonicalInput v) = true := by
  induction v using Json.induct with
  | null => rfl
  | bool b => rfl
  | str s => rfl
  | leaf a =>
    cases a with
    | num n => rfl
    | file f => simp [canonicalInput, distinct, distinctFields]
  | arr xs ih =>
    rw [distinct_arr] at hd
    rw [canonicalInput, canonicalInputItems_eq, distinct_arr, List.forall_mem_map]
    exact fun x hx => ih x hx (hd x hx)
  | obj fs ih =>
    rw [distinct_obj] at hd
    rw [canonicalInput, canonicalInputFields_eq, distinct_obj, List.forall_mem_map, List.map_map]
    exact ⟨hd.1, fun f hf => ih f hf (hd.2 f hf)⟩

/-- The metadata of a file has the bytes that are counted for the file. -/
theorem bytes_metadata {f : FileValue} (h : Printable (.file f)) :
    valueBytes (canonicalInput (.file f)) = leafSize (.file f) := by
  have hnumber : leafSize (.num (.int64 f.sizeBytes)) = (formatInt f.sizeBytes).text.length := leafSize_num rfl
  have hname : validBasename f.name = true := by
    by_contra hc
    rw [Bool.not_eq_true] at hc
    simp [Printable, leafBytes, hc] at h
  have hfile : leafSize (.file f) = 5 + (formatInt f.sizeBytes).text.length
      + (keyBytes "name" + (keyBytes "mime_type" + (keyBytes "size_bytes" + keyBytes "sha256")))
      + (utf8Length (quote false f.name) +
        (utf8Length (quote false f.mimeType) + utf8Length (quote false f.sha256))) := by
    simp [leafSize, leafBytes, hname, Except.toOption, jsonStringBytes_eq, keyBytes]
  rw [hfile, ← hnumber]
  simp only [canonicalInput, valueBytes, Json.total, Json.totalFields, Json.byteWeight, keyBytes, List.length_cons,
    List.length_nil]
  omega

theorem canonicalInput_counts (hv : ∀ a ∈ v.leaves, Printable a) :
    FileFree (canonicalInput v) ∧ (∀ a ∈ (canonicalInput v).leaves, Printable a) ∧
      valueBytes (canonicalInput v) = valueBytes v := by
  induction v using Json.induct with
  | null | bool b | str s => exact ⟨nofun, nofun, rfl⟩
  | leaf a =>
    cases a with
    | num n => exact ⟨by simp [FileFree, canonicalInput, Json.leaves, Leaf.isFile], hv, rfl⟩
    | file f =>
      have hf : Printable (.file f) := hv _ (by simp [Json.leaves])
      refine ⟨by simp [FileFree, canonicalInput, Json.leaves, Json.leavesFields, Leaf.isFile], ?_, bytes_metadata hf⟩
      simp [canonicalInput, Json.leaves, Json.leavesFields]
      exact printable_num.mpr rfl
  | arr xs ih =>
    rw [Json.forall_leaves_arr] at hv
    rw [canonicalInput, canonicalInputItems_eq, FileFree, Json.forall_leaves_arr, Json.forall_leaves_arr,
      List.forall_mem_map, List.forall_mem_map]
    refine ⟨fun x hx => (ih x hx (hv x hx)).1, fun x hx => (ih x hx (hv x hx)).2.1, ?_⟩
    rw [valueBytes, valueBytes, Json.total, Json.total, Json.totalItems_eq, Json.totalItems_eq, List.length_map,
      List.map_map]
    congr 2
    exact List.map_congr_left fun x hx => (ih x hx (hv x hx)).2.2
  | obj fs ih =>
    rw [Json.forall_leaves_obj] at hv
    rw [canonicalInput, canonicalInputFields_eq, FileFree, Json.forall_leaves_obj, Json.forall_leaves_obj,
      List.forall_mem_map, List.forall_mem_map]
    refine ⟨fun f hf => (ih f hf (hv f hf)).1, fun f hf => (ih f hf (hv f hf)).2.1, ?_⟩
    rw [valueBytes, valueBytes, Json.total, Json.total, Json.totalFields_eq, Json.totalFields_eq, List.length_map,
      List.map_map]
    congr 2
    exact List.map_congr_left fun f hf => congrArg _ (ih f hf (hv f hf)).2.2

/-- A value that passes has a canonical input text of the length that was counted. -/
theorem canonicalInput_bytes (hd : distinct v = true) (hv : ∀ a ∈ v.leaves, Printable a) :
    ∃ text, canonicalJSON (canonicalInput v) = some text ∧ text.utf8Encode.size = valueBytes v := by
  obtain ⟨hfree, hprint, hbytes⟩ := canonicalInput_counts hv
  obtain ⟨f, hf⟩ := Option.isSome_iff_exists.mp ((isSome_canonicalForm hfree).mpr hprint)
  refine ⟨f.render false, canonicalJSON_eq_some.mpr ⟨f, hf, rfl⟩, ?_⟩
  rw [size_utf8Encode, Json.utf8Length_render, bytes_canonicalForm (distinct_canonicalInput hd) hf, hbytes]

/-! ### The checker and the decoder -/

theorem leafSize_pos (h : Printable a) : 0 < leafSize a := by
  cases a with
  | file f =>
    rw [← bytes_metadata h]
    simp only [canonicalInput, valueBytes, Json.total, Json.byteWeight]
    omega
  | num n =>
    obtain ⟨t, ht⟩ := Option.isSome_iff_exists.mp (printable_num.mp h)
    obtain ⟨m, hm, hn⟩ := canonical_num ht
    obtain rfl := Leaf.num.inj hm
    obtain ⟨c, cs, hc, -⟩ := t.text_head
    rw [leafSize_num hn, hc]
    exact Nat.succ_pos _

theorem valueBytes_pos (h : ∀ a ∈ v.leaves, Printable a) : 0 < valueBytes v := by
  unfold valueBytes
  cases v with
  | null => exact Nat.succ_pos 3
  | bool b => cases b <;> simp [Json.total, Json.byteWeight]
  | str s =>
    have := Json.two_le_quote false s
    simp only [Json.total, Json.byteWeight]
    omega
  | leaf a => exact leafSize_pos (h a (by simp [Json.leaves]))
  | arr xs | obj fs =>
    simp only [Json.total, Json.byteWeight]
    omega

theorem checkJSONLimits_eq_ok : checkJSONLimits l v = .ok () ↔ ∃ u, checkValue l 1 v {} = .ok u := by
  unfold checkJSONLimits
  split
  · rename_i hlimits
    refine iff_of_false nofun ?_
    rintro ⟨u, hu⟩
    obtain ⟨hprint, ⟨⟨hdepth, hitems⟩, hbytes⟩, -⟩ := (checks l v 1 0 0 u).mp hu
    have := v.items_pos
    have := v.depth_pos
    have := valueBytes_pos hprint
    simp only [Bool.or_eq_true, decide_eq_true_eq, Int64.le_iff_toInt_le, Int64.toInt_zero] at hlimits
    omega
  · rw [except_map_eq_ok]
    simp

/-- The limits that the checker applies are those of the text. -/
theorem room_iff_fits (hd : distinct v = true) (h : canonicalForm v = some f) :
    Room l (1 + v.depth) (0 + v.items) (0 + valueBytes v) ↔ Fits l (f.bytes false) f := by
  have hdepth := depth_of_traverse hd h
  have hitems : f.items = v.items := total_of_traverse _ (fun _ _ _ => rfl) hd h
  have hbytes := bytes_canonicalForm hd h
  constructor
  · rintro ⟨⟨hd, hi⟩, hb⟩
    exact ⟨by omega, by omega, by omega⟩
  · rintro ⟨hb, hd, hi⟩
    exact ⟨⟨by omega, by omega⟩, by omega⟩

theorem checkJSONLimits_iff_decodeJSON (hd : distinct v = true) (hfree : FileFree v) (l : Limits) :
    checkJSONLimits l v = .ok () ↔
      ∃ text w, canonicalJSON v = some text ∧ decodeJSON l text.utf8Encode = some w := by
  rw [checkJSONLimits_eq_ok]
  constructor
  · rintro ⟨u, hu⟩
    obtain ⟨hprint, hroom, -⟩ := (checks l v 1 0 0 u).mp hu
    obtain ⟨f, hf⟩ := Option.isSome_iff_exists.mp ((isSome_canonicalForm hfree).mpr hprint)
    obtain ⟨w, -, hdecode⟩ := decodeJSON_canonical hf
    refine ⟨f.render false, w, canonicalJSON_eq_some.mpr ⟨f, hf, rfl⟩, (hdecode l w).mpr ⟨?_, rfl⟩⟩
    exact (room_iff_fits hd hf).mp hroom
  · rintro ⟨text, w, htext, hw⟩
    obtain ⟨f, hf, rfl⟩ := canonicalJSON_eq_some.mp htext
    obtain ⟨w', -, hdecode⟩ := decodeJSON_canonical hf
    have hfits := ((hdecode l w).mp hw).1
    have hprint := (isSome_canonicalForm hfree).mp (Option.isSome_iff_exists.mpr ⟨f, hf⟩)
    exact ⟨_, (checks l v 1 0 0 _).mpr ⟨hprint, (room_iff_fits hd hf).mpr hfits, rfl⟩⟩

/-- The counts of the checker are the length of the text and the counts of the decoder. -/
theorem checkValue_counts (hd : distinct v = true) (hfree : FileFree v) (h : checkValue l 1 v {} = .ok u) :
    ∃ text p w, canonicalJSON v = some text ∧ u.bytes = text.utf8Encode.size ∧ parseJson text = some p ∧
      decodeJSONValue l 1 p 0 = some (w, u.count) ∧ w.depth = v.depth := by
  obtain ⟨hprint, hroom, rfl⟩ := (checks l v 1 0 0 u).mp h
  obtain ⟨f, hf⟩ := Option.isSome_iff_exists.mp ((isSome_canonicalForm hfree).mpr hprint)
  obtain ⟨hsound, w, hw, -, hdepth, hitems⟩ := toValue_canonical hf
  have hparse : parseJson (f.render false) = some (f.written false) := by
    rw [← Json.text_written]
    exact Parsed.parseJson_text (hsound.imp (fun _ h => h.1) fun _ h => h)
  have hdepth' := depth_of_traverse hd hf
  have hitems' : f.items = v.items := total_of_traverse _ (fun _ _ _ => rfl) hd hf
  refine ⟨f.render false, f.written false, w, canonicalJSON_eq_some.mpr ⟨f, hf, rfl⟩, ?_, hparse, ?_,
    hdepth.trans hdepth'⟩
  · rw [size_utf8Encode, Json.utf8Length_render, bytes_canonicalForm hd hf]
    exact Nat.zero_add _
  · refine (decodes l _ 1 0 w _).mpr ⟨hw, ?_, ?_⟩
    · rw [hdepth, hdepth']
      exact hroom.within
    · rw [hitems, hitems']

/-- On a value without files `checkJSONLimits` succeeds exactly when the canonical text of the value is decoded under
the same limits, counting the bytes of that text and what the decoder counts; with files it counts the bytes of the
canonical input. -/
theorem checkJSONLimits_predicts {v : Value} (hd : distinct v = true) :
    (FileFree v → ∀ l : Limits,
      (checkJSONLimits l v = .ok () ↔
        ∃ text w, canonicalJSON v = some text ∧ decodeJSON l text.utf8Encode = some w) ∧
      ∀ u, checkValue l 1 v {} = .ok u →
        ∃ text p w, canonicalJSON v = some text ∧ u.bytes = text.utf8Encode.size ∧ parseJson text = some p ∧
          decodeJSONValue l 1 p 0 = some (w, u.count) ∧ w.depth = v.depth) ∧
    ∀ (l : Limits) (u : Usage), checkValue l 1 v {} = .ok u →
      ∃ text, canonicalJSON (canonicalInput v) = some text ∧ u.bytes = text.utf8Encode.size := by
  refine ⟨fun hfree l => ⟨checkJSONLimits_iff_decodeJSON hd hfree l, fun u hu => checkValue_counts hd hfree hu⟩, ?_⟩
  intro l u hu
  obtain ⟨hprint, -, rfl⟩ := (checks l v 1 0 0 u).mp hu
  obtain ⟨text, htext, hsize⟩ := canonicalInput_bytes hd hprint
  refine ⟨text, htext, ?_⟩
  rw [hsize]
  exact Nat.zero_add _

theorem checkJSONLimits_predicts_mixed :
    checkJSONLimits mixedLimits mixedValue = .ok () ∧
      ∃ text w, canonicalJSON mixedValue = some text ∧ decodeJSON mixedLimits text.utf8Encode = some w := by
  have hcheck : checkJSONLimits mixedLimits mixedValue = .ok () := by decide +kernel
  have hfree : FileFree mixedValue := by decide +kernel
  exact ⟨hcheck, (((checkJSONLimits_predicts (v := mixedValue) (by decide +kernel)).1 hfree mixedLimits).1).mp
    hcheck⟩

end Onprest.Contract
