import Onprest.Contract.Validate

/-! What validation returns, apart from what it checks. The value returned is `read`, the value as the schema reads
it, with defaults filled in and numbers in the kind their type keeps; the leaves returned are `leaves`. Both are
total, and `validate_eq_ok` splits a successful validation into them and the acceptance of the value. -/

namespace Onprest.Contract
open Lib

/-! ### The value returned -/

/-- The number kept, where one is. -/
def readNumber (r : Rules) (n : Number) : Number :=
  match normalizeNumber r n with
  | .ok (_, m) => m
  | .error _ => n

mutual
def readFree : Value → Value
  | .leaf (.num n) => .num (readNumber Schema.free.rules n)
  | .arr xs => .arr (readFreeItems xs)
  | .obj fs => .obj (Fields.ofList (readFreeMembers fs))
  | .leaf (.file f) => .file f
  | .null => .null
  | .bool b => .bool b
  | .str s => .str s
def readFreeItems : List Value → List Value
  | [] => []
  | x :: xs => readFree x :: readFreeItems xs
def readFreeMembers : List (String × Value) → List (String × Value)
  | [] => []
  | (k, x) :: fs => (k, readFree x) :: readFreeMembers fs
end

mutual
/-- A value as the schema reads it. -/
def read (defaults : Bool) : Schema → Value → Value
  | .mk r ps i a, v =>
    match v with
    | .leaf (.num n) => .num (readNumber r n)
    | .arr xs => .arr (xs.map fun x => readBelow defaults i x)
    | .obj fs => .obj (Fields.ofList (readProperties defaults fs ps ++
        (otherMembers (ps.map Prod.fst) fs).map fun f => (f.1, readBelow defaults a f.2)))
    | v => v
def readProperties (defaults : Bool) (fs : List (String × Value)) : List (String × Schema) → List (String × Value)
  | [] => []
  | (k, s) :: ps =>
    match propertyValue defaults fs k s with
    | none => readProperties defaults fs ps
    | some x => (k, read defaults s x) :: readProperties defaults fs ps
def readBelow (defaults : Bool) : Option Schema → Value → Value
  | some s, v => read defaults s v
  | none, v => readFree v
end

/-! ### The leaves returned -/

mutual
/-- The file leaves of a value, in the order of the declaration. -/
def leaves (m : Mode) : Schema → String → Value → List FileLeaf
  | .mk r ps i a, pointer, v =>
    match r.file with
    | some f =>
      match v with
      | .leaf (.file x) => [⟨pointer, x, .mk { r with file := some (f.effective m.fileLimit) } ps i a⟩]
      | _ => []
    | none =>
      match v with
      | .arr xs => xs.zipIdx.flatMap fun x => leavesBelow m i (itemPointer pointer x.2) x.1
      | .obj fs => leavesProperties m pointer fs ps ++
          (otherMembers (ps.map Prod.fst) fs).flatMap fun f => leavesBelow m a (memberPointer pointer f.1) f.2
      | _ => []
def leavesProperties (m : Mode) (pointer : String) (fs : List (String × Value)) :
    List (String × Schema) → List FileLeaf
  | [] => []
  | (k, s) :: ps =>
    match propertyValue m.defaults fs k s with
    | none => leavesProperties m pointer fs ps
    | some x => leaves m s (memberPointer pointer k) x ++ leavesProperties m pointer fs ps
def leavesBelow (m : Mode) : Option Schema → String → Value → List FileLeaf
  | some s, pointer, v => leaves m s pointer v
  | none, _, _ => []
end

/-! ### The schema below a node -/

/-- The schema of elements or other members. -/
def below (o : Option Schema) : Schema := o.getD .free

/-- Induction over a schema and, where it declares nothing, over the value. -/
theorem Schema.induct_below {motive : Schema → Value → Prop}
    (step : ∀ r ps i a v, (∀ q ∈ ps, ∀ x, motive q.2 x) → (∀ x ∈ v.parts, motive (below i) x) →
      (∀ x ∈ v.parts, motive (below a) x) → motive (.mk r ps i a) v)
    (s : Schema) (v : Value) : motive s v := by
  have hfree (v : Value) : motive .free v := by
    induction v using Json.induct with
    | arr xs ih => exact step _ _ _ _ _ nofun ih ih
    | obj fs ih =>
      have : ∀ x ∈ fs.map Prod.snd, motive .free x := by
        intro x hx
        obtain ⟨f, hf, rfl⟩ := List.mem_map.mp hx
        exact ih f hf
      exact step _ _ _ _ _ nofun this this
    | _ => exact step _ _ _ _ _ nofun nofun nofun
  induction s generalizing v with
  | mk r ps i a hps hi ha =>
    have hbelow (o : Option Schema) (ho : ∀ s ∈ o, ∀ v, motive s v) (v : Value) : motive (below o) v := by
      cases o with
      | none => exact hfree v
      | some s => exact ho s rfl v
    exact step r ps i a v hps (fun x _ => hbelow i hi x) fun x _ => hbelow a ha x

@[simp] theorem otherMembers_nil (fs : List (String × Value)) : otherMembers [] fs = fs := by
  simp [otherMembers]

theorem readFreeItems_eq (xs : List Value) : readFreeItems xs = xs.map readFree := by
  induction xs with
  | nil => rfl
  | cons x xs ih => rw [readFreeItems, ih, List.map_cons]

theorem readFreeMembers_eq (fs : List (String × Value)) :
    readFreeMembers fs = fs.map fun f => (f.1, readFree f.2) := by
  induction fs with
  | nil => rfl
  | cons f fs ih => rw [readFreeMembers, ih, List.map_cons]

theorem read_free (defaults : Bool) (v : Value) : read defaults .free v = readFree v := by
  cases v with
  | leaf a => cases a <;> rfl
  | arr xs =>
    rw [Schema.free, read, readFree, readFreeItems_eq]
    rfl
  | obj fs =>
    rw [Schema.free, read, readFree, readFreeMembers_eq, readProperties, List.nil_append, List.map_nil,
      otherMembers_nil]
    rfl
  | _ => rfl

theorem readBelow_eq (defaults : Bool) (o : Option Schema) (v : Value) :
    readBelow defaults o v = read defaults (below o) v := by
  cases o with
  | none => exact (read_free defaults v).symm
  | some s => rfl

theorem leaves_free (m : Mode) (pointer : String) (v : Value) : leaves m .free pointer v = [] := by
  cases v with
  | arr xs | obj fs => exact List.flatMap_eq_nil_iff.mpr fun _ _ => rfl
  | _ => rfl

theorem leavesBelow_eq (m : Mode) (o : Option Schema) (pointer : String) (v : Value) :
    leavesBelow m o pointer v = leaves m (below o) pointer v := by
  cases o with
  | none => exact (leaves_free m pointer v).symm
  | some s => rfl

section
variable (lib : Library)

theorem validateFreeItems_eq (limit : Int64) (pointer : String) (n : ℕ) (xs : List Value) :
    validateFreeItems lib limit pointer n xs =
      Check.forEach (fun x => validateFree lib limit (itemPointer pointer x.2) x.1) (xs.zipIdx n) := by
  induction xs generalizing n with
  | nil => rfl
  | cons x xs ih => rw [validateFreeItems, List.zipIdx_cons, Check.forEach, ih]

theorem validateFreeMembers_eq (limit : Int64) (pointer : String) (fs : List (String × Value)) :
    validateFreeMembers lib limit pointer fs = validateMembers (validateFree lib limit) pointer fs := by
  unfold validateMembers
  induction fs with
  | nil => rfl
  | cons f fs ih =>
    rw [validateFreeMembers, Check.forEach, ih]
    simp only [Check.bind_assoc, Check.pure_bind]

theorem validate_free (m : Mode) (pointer : String) (v : Value) :
    validate lib m .free pointer v = validateFree lib m.fileLimit pointer v := by
  cases v with
  | arr xs =>
    rw [Schema.free, validate, validateFree, validateFreeItems_eq]
    rfl
  | obj fs =>
    rw [Schema.free, validate, validateFree, validateFreeMembers_eq, validateProperties,
      Check.pure_bind, List.map_nil, otherMembers_nil]
    rfl
  | _ => rfl

theorem validateBelow_eq (m : Mode) (o : Option Schema) (pointer : String) (v : Value) :
    validateBelow lib m o pointer v = validate lib m (below o) pointer v := by
  cases o with
  | none => exact (validate_free lib m pointer v).symm
  | some s => rfl

/-! ### The two halves of a validation -/

theorem read_obj (defaults : Bool) (r : Rules) (ps : List (String × Schema)) (i a : Option Schema)
    (fs : List (String × Value)) :
    read defaults (.mk r ps i a) (.obj fs) = .obj (Fields.ofList (readProperties defaults fs ps ++
      (otherMembers (ps.map Prod.fst) fs).map fun f => (f.1, read defaults (below a) f.2))) := by
  rw [read]
  simp only [readBelow_eq]

theorem read_arr (defaults : Bool) (r : Rules) (ps : List (String × Schema)) (i a : Option Schema)
    (xs : List Value) :
    read defaults (.mk r ps i a) (.arr xs) = .arr (xs.map (read defaults (below i))) := by
  rw [read]
  simp only [readBelow_eq]

variable {r : Rules} {v w : Value} {s : Schema} {pointer : String} {fs : List (String × Value)} {ls : List FileLeaf}
  {xs : List Value} {ps : List (String × Schema)} {i a : Option Schema}

theorem leaves_obj (m : Mode) (hf : r.file = none) (ps : List (String × Schema)) (i a : Option Schema)
    (pointer : String) (fs : List (String × Value)) :
    leaves m (.mk r ps i a) pointer (.obj fs) = leavesProperties m pointer fs ps ++
      (otherMembers (ps.map Prod.fst) fs).flatMap fun f => leaves m (below a) (memberPointer pointer f.1) f.2 := by
  rw [leaves, hf]
  simp only [leavesBelow_eq]

theorem leaves_arr (m : Mode) (hf : r.file = none) (ps : List (String × Schema)) (i a : Option Schema)
    (pointer : String) (xs : List Value) :
    leaves m (.mk r ps i a) pointer (.arr xs) =
      xs.zipIdx.flatMap fun x => leaves m (below i) (itemPointer pointer x.2) x.1 := by
  rw [leaves, hf]
  simp only [leavesBelow_eq]

theorem validate_eq_node (m : Mode) (s : Schema) (pointer : String) (v : Value) :
    ∃ children, validate lib m s pointer v = validateNode lib m.fileLimit s pointer v children := by
  cases s
  rw [validate.eq_def]
  exact ⟨_, rfl⟩

def isScalar : Value → Bool
  | .null => true
  | .bool _ => true
  | .str _ => true
  | .leaf (.num _) => true
  | _ => false

theorem leaves_of_isScalar (m : Mode) (s : Schema) (pointer : String) (hv : isScalar v) :
    leaves m s pointer v = [] := by
  cases s with
  | mk r ps i a =>
    rw [leaves.eq_def]
    dsimp only
    cases r.file with
    | none => cases v <;> first | rfl | cases hv
    | some f =>
      cases v with
      | leaf l =>
        cases l with
        | num n => rfl
        | file x => cases hv
      | _ => rfl

/-- The value is accepted at this position. -/
def Accepts (m : Mode) (s : Schema) (pointer : String) (v : Value) : Prop :=
  ∃ w ls, validate lib m s pointer v = .ok w ls

instance (m : Mode) (s : Schema) (pointer : String) (v : Value) : Decidable (Accepts lib m s pointer v) :=
  match h : validate lib m s pointer v with
  | .ok w ls => .isTrue ⟨w, ls, h⟩
  | .failed _ => .isFalse fun ⟨w, ls, hok⟩ => by rw [h] at hok; cases hok

/-- What a validation returns when it succeeds. -/
def Returns (m : Mode) (s : Schema) (v : Value) : Prop :=
  ∀ pointer w ls, validate lib m s pointer v = .ok w ls → w = read m.defaults s v ∧ ls = leaves m s pointer v

variable {lib} {m : Mode}

theorem validateProperties_eq_ok {required : List String}
    (spec : ∀ q ∈ ps, ∀ x, Returns lib m q.2 x) {gs : List (String × Value)} {ls : List FileLeaf} :
    validateProperties lib m required pointer fs ps = .ok gs ls ↔
      (∀ q ∈ ps, propertyValue m.defaults fs q.1 q.2 = none → q.1 ∉ required) ∧
      (∀ q ∈ ps, ∀ x ∈ propertyValue m.defaults fs q.1 q.2, Accepts lib m q.2 (memberPointer pointer q.1) x) ∧
      gs = readProperties m.defaults fs ps ∧ ls = leavesProperties m pointer fs ps := by
  induction ps generalizing gs ls with
  | nil => simp [validateProperties, readProperties, leavesProperties, eq_comm]
  | cons q ps ih =>
    obtain ⟨k, s⟩ := q
    have ih := fun {gs ls} => @ih (fun q hq => spec q (List.mem_cons_of_mem _ hq)) gs ls
    have hs := spec (k, s) List.mem_cons_self
    rw [validateProperties, readProperties, leavesProperties, List.forall_mem_cons, List.forall_mem_cons]
    cases hk : propertyValue m.defaults fs k s with
    | none =>
      rw [guard_eq_ok, ih]
      simp [and_assoc]
    | some x =>
      dsimp only
      rw [Check.bind_eq_ok]
      simp only [Check.map_eq_ok, Option.mem_some_iff, forall_eq', reduceCtorEq, false_implies, true_and]
      constructor
      · rintro ⟨y, ls₁, ls₂, hy, ⟨gs', hgs, rfl⟩, rfl⟩
        obtain ⟨hreq, hacc, rfl, rfl⟩ := ih.mp hgs
        obtain ⟨rfl, rfl⟩ := hs x _ _ _ hy
        exact ⟨hreq, ⟨⟨_, _, hy⟩, hacc⟩, rfl, rfl⟩
      · rintro ⟨hreq, ⟨⟨y, ls₁, hy⟩, hacc⟩, rfl, rfl⟩
        obtain ⟨rfl, rfl⟩ := hs x _ _ _ hy
        exact ⟨_, _, _, hy, ⟨_, ih.mpr ⟨hreq, hacc, rfl, rfl⟩, rfl⟩, rfl⟩

theorem validateMembers_eq_ok {gs : List (String × Value)} (spec : ∀ f ∈ fs, Returns lib m s f.2) :
    validateMembers (validate lib m s) pointer fs = .ok gs ls ↔
      (∀ f ∈ fs, Accepts lib m s (memberPointer pointer f.1) f.2) ∧
      gs = fs.map (fun f => (f.1, read m.defaults s f.2)) ∧
      ls = fs.flatMap fun f => leaves m s (memberPointer pointer f.1) f.2 := by
  rw [validateMembers, Check.forEach_eq_ok]
  · refine and_congr_left' (forall₂_congr fun f hf => ?_)
    simp only [Check.map_eq_ok, Accepts]
    constructor
    · rintro ⟨_, ls, w, hw, -⟩
      exact ⟨w, ls, hw⟩
    · rintro ⟨w, ls, hw⟩
      exact ⟨_, ls, w, hw, rfl⟩
  · intro f hf b ls h
    obtain ⟨w, hw, rfl⟩ := Check.map_eq_ok.mp h
    obtain ⟨rfl, rfl⟩ := spec f hf _ _ _ hw
    exact ⟨rfl, rfl⟩

theorem validateItems_eq_ok {ys : List Value} (spec : ∀ x ∈ xs, Returns lib m s x) :
    validateItems (validate lib m s) pointer xs = .ok ys ls ↔
      (∀ x ∈ xs.zipIdx, Accepts lib m s (itemPointer pointer x.2) x.1) ∧ ys = xs.map (read m.defaults s) ∧
      ls = xs.zipIdx.flatMap fun x => leaves m s (itemPointer pointer x.2) x.1 := by
  have hmap : xs.map (read m.defaults s) = xs.zipIdx.map fun x => read m.defaults s x.1 := by
    conv_lhs => rw [← List.zipIdx_map_fst 0 xs]
    rw [List.map_map]
    rfl
  rw [validateItems, Check.forEach_eq_ok, hmap]
  · rfl
  · intro x hx b ls h
    exact spec x.1 (List.fst_mem_of_mem_zipIdx hx) _ _ _ h

theorem validate_obj_eq_ok (hf : r.file = none) (hps : ∀ q ∈ ps, ∀ x, Returns lib m q.2 x)
    (ha : ∀ f ∈ fs, Returns lib m (below a) f.2) :
    validate lib m (.mk r ps i a) pointer (.obj fs) = .ok w ls ↔
      (wrongType r .object = false ∧ unknownProperty r (ps.map Prod.fst) fs = false ∧
        (∀ q ∈ ps, propertyValue m.defaults fs q.1 q.2 = none → q.1 ∉ r.required) ∧
        (∀ q ∈ ps, ∀ x ∈ propertyValue m.defaults fs q.1 q.2, Accepts lib m q.2 (memberPointer pointer q.1) x) ∧
        (∀ f ∈ otherMembers (ps.map Prod.fst) fs, Accepts lib m (below a) (memberPointer pointer f.1) f.2) ∧
        validateEnumConst r (read m.defaults (.mk r ps i a) (.obj fs)) = none) ∧
      w = read m.defaults (.mk r ps i a) (.obj fs) ∧ ls = leaves m (.mk r ps i a) pointer (.obj fs) := by
  have ha' : ∀ f ∈ otherMembers (ps.map Prod.fst) fs, Returns lib m (below a) f.2 :=
    fun f hf => ha f (List.mem_of_mem_filter hf)
  rw [validate, validateNode_obj (s := .mk r ps i a) hf, read_obj, leaves_obj m hf]
  simp only [Schema.rules_mk, Schema.properties_mk, validateBelow_eq]
  rw [Check.bind_eq_ok]
  simp only [validateProperties_eq_ok hps, Check.map_eq_ok]
  constructor
  · rintro ⟨ht, hu, ⟨_, _, _, ⟨hreq, hacc, rfl, rfl⟩, ⟨_, ho, rfl⟩, rfl⟩, he⟩
    obtain ⟨hother, rfl, rfl⟩ := (validateMembers_eq_ok ha').mp ho
    exact ⟨⟨ht, hu, hreq, hacc, hother, he⟩, rfl, rfl⟩
  · rintro ⟨⟨ht, hu, hreq, hacc, hother, he⟩, rfl, rfl⟩
    exact ⟨ht, hu, ⟨_, _, _, ⟨hreq, hacc, rfl, rfl⟩, ⟨_, (validateMembers_eq_ok ha').mpr ⟨hother, rfl, rfl⟩, rfl⟩,
      rfl⟩, he⟩

theorem validate_arr_eq_ok (hf : r.file = none) (hi : ∀ x ∈ xs, Returns lib m (below i) x) :
    validate lib m (.mk r ps i a) pointer (.arr xs) = .ok w ls ↔
      (wrongType r .array = false ∧ lengthReason r xs.length = none ∧
        (∀ x ∈ xs.zipIdx, Accepts lib m (below i) (itemPointer pointer x.2) x.1) ∧
        validateEnumConst r (read m.defaults (.mk r ps i a) (.arr xs)) = none) ∧
      w = read m.defaults (.mk r ps i a) (.arr xs) ∧ ls = leaves m (.mk r ps i a) pointer (.arr xs) := by
  rw [validate, validateNode_arr (s := .mk r ps i a) hf, read_arr, leaves_arr m hf]
  simp only [Schema.rules_mk, validateBelow_eq, Check.map_eq_ok]
  constructor
  · rintro ⟨ht, hl, ⟨_, ho, rfl⟩, he⟩
    obtain ⟨hitems, rfl, rfl⟩ := (validateItems_eq_ok hi).mp ho
    exact ⟨⟨ht, hl, hitems, he⟩, rfl, rfl⟩
  · rintro ⟨⟨ht, hl, hitems, he⟩, rfl, rfl⟩
    exact ⟨ht, hl, ⟨_, (validateItems_eq_ok hi).mpr ⟨hitems, rfl, rfl⟩, rfl⟩, he⟩

/-- A validation that succeeds returns the value as read, and its leaves. -/
theorem returns (s : Schema) (v : Value) : Returns lib m s v := by
  induction s, v using Schema.induct_below with
  | step r ps i a v hps hi ha =>
    intro pointer w ls h
    obtain ⟨children, hnode⟩ := validate_eq_node lib m (.mk r ps i a) pointer v
    by_cases hv : v = .null
    · subst hv
      rw [hnode, validateNode_null] at h
      obtain ⟨-, rfl, rfl⟩ := validateNull_eq_ok.mp h
      exact ⟨rfl, (leaves_of_isScalar m _ pointer rfl).symm⟩
    cases hf : r.file with
    | some f =>
      rw [hnode, validateNode_file (s := .mk r ps i a) hf hv] at h
      obtain ⟨x, rfl, -, -, -, -, rfl, rfl⟩ := validateFile_eq_ok.mp h
      refine ⟨rfl, ?_⟩
      rw [leaves.eq_def]
      dsimp only
      rw [hf]
      rfl
    | none =>
      cases v with
      | null => exact absurd rfl hv
      | bool b =>
        rw [hnode, validateNode_bool (s := .mk r ps i a) hf] at h
        obtain ⟨-, -, rfl, rfl⟩ := h
        exact ⟨rfl, (leaves_of_isScalar m _ pointer rfl).symm⟩
      | str x =>
        rw [hnode, validateNode_str (s := .mk r ps i a) hf] at h
        obtain ⟨-, -, -, rfl, rfl⟩ := h
        exact ⟨rfl, (leaves_of_isScalar m _ pointer rfl).symm⟩
      | leaf l =>
        cases l with
        | file x =>
          rw [hnode] at h
          exact absurd h (validateNode_leaf_file (s := .mk r ps i a) hf)
        | num n =>
          rw [hnode, validateNode_num (s := .mk r ps i a) hf] at h
          obtain ⟨t, k, hn, -, -, -, rfl, rfl⟩ := h
          rw [Schema.rules_mk] at hn
          exact ⟨by rw [read, readNumber, hn], (leaves_of_isScalar m _ pointer rfl).symm⟩
      | arr xs => exact ((validate_arr_eq_ok hf hi).mp h).2
      | obj fs => exact ((validate_obj_eq_ok hf hps fun f hf => ha f.2 (List.mem_map_of_mem hf)).mp h).2

theorem validate_eq_ok :
    validate lib m s pointer v = .ok w ls ↔
      Accepts lib m s pointer v ∧ w = read m.defaults s v ∧ ls = leaves m s pointer v := by
  constructor
  · intro h
    exact ⟨⟨w, ls, h⟩, returns s v pointer w ls h⟩
  · rintro ⟨⟨w, ls, h⟩, rfl, rfl⟩
    obtain ⟨rfl, rfl⟩ := returns s v pointer w ls h
    exact h

/-! ### Acceptance, one shape of value at a time -/

section Accepts
variable {r : Rules} {ps : List (String × Schema)} {i a : Option Schema} {pointer : String}

theorem accepts_null : Accepts lib m (.mk r ps i a) pointer .null ↔
    r.nullable = true ∨ r.output = false ∧ (r.types = [] ∨ .null ∈ r.types) ∧ validateEnumConst r .null = none := by
  obtain ⟨_, hnode⟩ := validate_eq_node lib m (.mk r ps i a) pointer .null
  simp [Accepts, hnode, validateNode_null, validateNull_eq_ok]

variable {v x : Value} {fs : List (String × Value)} {xs : List Value}

theorem accepts_of_file {f : FileConstraints} (hf : r.file = some f) (hv : v ≠ .null) :
    Accepts lib m (.mk r ps i a) pointer v ↔
      ∃ x, v = .file x ∧ x.id ≠ "" ∧ x.requestID ≠ "" ∧ x.pointer = pointer ∧
        (f.effective m.fileLimit).validate x = none := by
  obtain ⟨_, hnode⟩ := validate_eq_node lib m (.mk r ps i a) pointer v
  simp only [Accepts, hnode, validateNode_file (s := .mk r ps i a) hf hv, validateFile_eq_ok]
  constructor
  · rintro ⟨_, _, x, hx, h₁, h₂, h₃, h₄, -⟩
    exact ⟨x, hx, h₁, h₂, h₃, h₄⟩
  · rintro ⟨x, hx, h₁, h₂, h₃, h₄⟩
    exact ⟨_, _, x, hx, h₁, h₂, h₃, h₄, rfl, rfl⟩

theorem file_eq_none (h : Accepts lib m (.mk r ps i a) pointer v) (hnull : v ≠ .null) (hfile : ∀ x, v ≠ .file x) :
    r.file = none := by
  by_contra hne
  obtain ⟨f, hf⟩ := Option.ne_none_iff_exists'.mp hne
  obtain ⟨x, hx, -⟩ := (accepts_of_file hf hnull).mp h
  exact hfile x hx

theorem not_accepts_file (hf : r.file = none) {x : FileValue} :
    ¬ Accepts lib m (.mk r ps i a) pointer (.file x) := by
  obtain ⟨_, hnode⟩ := validate_eq_node lib m (.mk r ps i a) pointer (.file x)
  rintro ⟨w, ls, h⟩
  rw [hnode] at h
  exact validateNode_leaf_file (s := .mk r ps i a) hf h

theorem accepts_bool (hf : r.file = none) {b : Bool} : Accepts lib m (.mk r ps i a) pointer (.bool b) ↔
    wrongType r .boolean = false ∧ validateEnumConst r (.bool b) = none := by
  obtain ⟨_, hnode⟩ := validate_eq_node lib m (.mk r ps i a) pointer (.bool b)
  simp [Accepts, hnode, validateNode_bool (s := .mk r ps i a) hf]

theorem accepts_str (hf : r.file = none) {x : String} : Accepts lib m (.mk r ps i a) pointer (.str x) ↔
    wrongType r .string = false ∧ stringReason lib r x = none ∧ validateEnumConst r (.str x) = none := by
  obtain ⟨_, hnode⟩ := validate_eq_node lib m (.mk r ps i a) pointer (.str x)
  simp [Accepts, hnode, validateNode_str (s := .mk r ps i a) hf]

theorem accepts_num (hf : r.file = none) {n : Number} : Accepts lib m (.mk r ps i a) pointer (.num n) ↔
    ∃ t k, normalizeNumber r n = .ok (t, k) ∧ wrongType r t = false ∧ outsideBounds r k = false ∧
      validateEnumConst r (.num k) = none := by
  obtain ⟨_, hnode⟩ := validate_eq_node lib m (.mk r ps i a) pointer (.num n)
  simp only [Accepts, hnode, validateNode_num (s := .mk r ps i a) hf, Schema.rules_mk]
  constructor
  · rintro ⟨_, _, t, k, hn, ht, hb, he, -⟩
    exact ⟨t, k, hn, ht, hb, he⟩
  · rintro ⟨t, k, hn, ht, hb, he⟩
    exact ⟨_, _, t, k, hn, ht, hb, he, rfl, rfl⟩

theorem accepts_obj (hf : r.file = none) :
    Accepts lib m (.mk r ps i a) pointer (.obj fs) ↔
      wrongType r .object = false ∧ unknownProperty r (ps.map Prod.fst) fs = false ∧
      (∀ q ∈ ps, propertyValue m.defaults fs q.1 q.2 = none → q.1 ∉ r.required) ∧
      (∀ q ∈ ps, ∀ x ∈ propertyValue m.defaults fs q.1 q.2, Accepts lib m q.2 (memberPointer pointer q.1) x) ∧
      (∀ f ∈ otherMembers (ps.map Prod.fst) fs, Accepts lib m (below a) (memberPointer pointer f.1) f.2) ∧
      validateEnumConst r (read m.defaults (.mk r ps i a) (.obj fs)) = none := by
  rw [Accepts]
  simp only [validate_obj_eq_ok hf (fun q _ x => returns q.2 x) fun f _ => returns (below a) f.2]
  constructor
  · rintro ⟨_, _, h, -⟩
    exact h
  · intro h
    exact ⟨_, _, h, rfl, rfl⟩

theorem accepts_arr (hf : r.file = none) :
    Accepts lib m (.mk r ps i a) pointer (.arr xs) ↔
      wrongType r .array = false ∧ lengthReason r xs.length = none ∧
      (∀ x ∈ xs.zipIdx, Accepts lib m (below i) (itemPointer pointer x.2) x.1) ∧
      validateEnumConst r (read m.defaults (.mk r ps i a) (.arr xs)) = none := by
  rw [Accepts]
  simp only [validate_arr_eq_ok hf fun x _ => returns (below i) x]
  constructor
  · rintro ⟨_, _, h, -⟩
    exact h
  · intro h
    exact ⟨_, _, h, rfl, rfl⟩

/-- Every element is accepted at its position. -/
theorem accepts_item (hf : r.file = none) (h : Accepts lib m (.mk r ps i a) pointer (.arr xs)) (hx : x ∈ xs) :
    ∃ n, Accepts lib m (below i) (itemPointer pointer n) x := by
  obtain ⟨-, -, hitems, -⟩ := (accepts_arr hf).mp h
  rw [← List.zipIdx_map_fst 0 xs] at hx
  obtain ⟨y, hy, rfl⟩ := List.mem_map.mp hx
  exact ⟨y.2, hitems y hy⟩

/-- Every declared member is accepted at its position. -/
theorem accepts_property (hf : r.file = none) (h : Accepts lib m (.mk r ps i a) pointer (.obj fs))
    {q : String × Schema}
    (hq : q ∈ ps) (hx : Fields.get q.1 fs = some x) : Accepts lib m q.2 (memberPointer pointer q.1) x := by
  obtain ⟨-, -, -, hacc, -⟩ := (accepts_obj hf).mp h
  refine hacc q hq x ?_
  rw [Option.mem_def, propertyValue, hx, Option.some_or]

/-- Every other member is accepted at its position. -/
theorem accepts_other (hf : r.file = none) (h : Accepts lib m (.mk r ps i a) pointer (.obj fs)) {k : String}
    (hk : k ∉ ps.map Prod.fst) (hx : Fields.get k fs = some x) :
    Accepts lib m (below a) (memberPointer pointer k) x := by
  obtain ⟨-, -, -, -, hoth, -⟩ := (accepts_obj hf).mp h
  exact hoth (k, x) (List.mem_filter.mpr ⟨Fields.mem_of_get hx, by simpa using hk⟩)

end Accepts

end

end Onprest.Contract
