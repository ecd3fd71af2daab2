import Onprest.Contract.Schema

/-! Validation of a value against a compiled schema: the checks of one node, the recursion over declared properties,
other members and array items, and the entry point for the input of a request. -/

namespace Onprest.Contract
open Lib

/-! ### Checks -/

/-- A rejected position and the reason. -/
structure Failure where
  pointer : String
  reason : String
deriving DecidableEq

/-- A file found at its declared position, with the schema that admitted it. -/
structure FileLeaf where
  pointer : String
  value : FileValue
  schema : Schema

/-- A check ends with a value and the file leaves it passed, or with the first failure. -/
inductive Check (α : Type)
  | failed (f : Failure)
  | ok (a : α) (leaves : List FileLeaf)

namespace Check
variable {α β : Type}

def bind (x : Check α) (f : α → Check β) : Check β :=
  match x with
  | .failed e => .failed e
  | .ok a ls =>
    match f a with
    | .failed e => .failed e
    | .ok b ms => .ok b (ls ++ ms)

instance : Monad Check where
  pure a := .ok a []
  bind := bind

/-- Run `f` over a list from left to right. -/
def forEach (f : α → Check β) : List α → Check (List β)
  | [] => pure []
  | a :: as => do
    let b ← f a
    let bs ← forEach f as
    pure (b :: bs)

@[simp] theorem pure_eq (a : α) : (pure a : Check α) = .ok a [] := rfl

theorem pure_bind (a : α) (f : α → Check β) : pure a >>= f = f a := by
  change bind (.ok a []) f = f a
  rw [bind]
  cases f a <;> rfl

theorem bind_assoc {γ : Type} (x : Check α) (f : α → Check β) (g : β → Check γ) :
    x >>= f >>= g = x >>= fun a => f a >>= g := by
  change bind (bind x f) g = bind x fun a => bind (f a) g
  cases x with
  | failed e => rfl
  | ok a ls =>
    simp only [bind]
    cases f a with
    | failed e => rfl
    | ok b ms =>
      dsimp only
      cases g b with
      | failed e => rfl
      | ok c ns => simp only [List.append_assoc]

variable {x : Check α} {b : β} {ls : List FileLeaf}

theorem bind_eq_ok {f : α → Check β} :
    x >>= f = .ok b ls ↔ ∃ a ls₁ ls₂, x = .ok a ls₁ ∧ f a = .ok b ls₂ ∧ ls = ls₁ ++ ls₂ := by
  change bind x f = .ok b ls ↔ _
  cases x with
  | failed e => simp [bind]
  | ok a ls₁ =>
    rw [bind]
    cases hf : f a with
    | failed e =>
      simp only [reduceCtorEq, false_iff, not_exists, not_and]
      intro _ _ _ hx hf'
      cases hx
      rw [hf] at hf'
      cases hf'
    | ok c ls₂ =>
      simp only [Check.ok.injEq]
      constructor
      · rintro ⟨rfl, rfl⟩
        exact ⟨a, ls₁, ls₂, ⟨rfl, rfl⟩, hf, rfl⟩
      · rintro ⟨_, _, _, ⟨rfl, rfl⟩, hf', rfl⟩
        rw [hf] at hf'
        cases hf'
        exact ⟨rfl, rfl⟩

theorem map_eq_ok {g : α → β} : (x >>= fun a => pure (g a)) = .ok b ls ↔ ∃ a, x = .ok a ls ∧ g a = b := by
  rw [bind_eq_ok]
  constructor
  · rintro ⟨a, _, _, hx, hg, rfl⟩
    rw [pure_eq, Check.ok.injEq] at hg
    obtain ⟨rfl, rfl⟩ := hg
    exact ⟨a, by rw [hx, List.append_nil], rfl⟩
  · rintro ⟨a, hx, rfl⟩
    exact ⟨a, ls, [], hx, rfl, (List.append_nil ls).symm⟩

/-- Where each step returns what `g` and `h` say, so does the whole run. -/
theorem forEach_eq_ok {f : α → Check β} {g : α → β} {h : α → List FileLeaf} {as : List α}
    (spec : ∀ a ∈ as, ∀ b ls, f a = .ok b ls → b = g a ∧ ls = h a) {bs : List β} {ls : List FileLeaf} :
    forEach f as = .ok bs ls ↔ (∀ a ∈ as, ∃ b ms, f a = .ok b ms) ∧ bs = as.map g ∧ ls = as.flatMap h := by
  induction as generalizing bs ls with
  | nil => simp [forEach, eq_comm]
  | cons a as ih =>
    have ih := fun {bs ls} => @ih (fun c hc => spec c (List.mem_cons_of_mem _ hc)) bs ls
    have ha := spec a List.mem_cons_self
    rw [forEach, bind_eq_ok, List.forall_mem_cons, List.map_cons, List.flatMap_cons]
    simp only [map_eq_ok]
    constructor
    · rintro ⟨b, ls₁, ls₂, hb, ⟨bs', hbs, rfl⟩, rfl⟩
      obtain ⟨rfl, rfl⟩ := ha b ls₁ hb
      obtain ⟨hall, rfl, rfl⟩ := ih.mp hbs
      exact ⟨⟨⟨_, _, hb⟩, hall⟩, rfl, rfl⟩
    · rintro ⟨⟨⟨b, ls₁, hb⟩, hall⟩, rfl, rfl⟩
      obtain ⟨rfl, rfl⟩ := ha b ls₁ hb
      exact ⟨_, _, _, hb, ⟨_, ih.mpr ⟨hall, rfl, rfl⟩, rfl⟩, rfl⟩

end Check

/-! ### One node -/

/-- `safe`: a pointer shown in an error text. -/
def safe (s : String) : String :=
  if s.utf8ByteSize > 128 then "<field>"
  else if s.toList.all fun c => c.isAlphanum || "._/-[]".toList.contains c then s
  else "<field>"

/-- `fail`. -/
def fail {α : Type} (pointer reason : String) : Check α := .failed ⟨safe pointer, reason⟩

/-- The value if there is no reason against it. -/
def verdict (pointer : String) (v : Value) : Option String → Check Value
  | some reason => fail pointer reason
  | none => pure v

@[simp] theorem fail_ne_ok {α : Type} {pointer reason : String} {a : α} {ls : List FileLeaf} :
    fail pointer reason ≠ .ok a ls := nofun

@[simp] theorem guard_eq_ok {α : Type} {c : Bool} {pointer reason : String} {x : Check α} {a : α}
    {ls : List FileLeaf} :
    (if c then fail pointer reason else x) = .ok a ls ↔ c = false ∧ x = .ok a ls := by
  cases c <;> simp

@[simp] theorem verdict_eq_ok {pointer : String} {v w : Value} {o : Option String} {ls : List FileLeaf} :
    verdict pointer v o = .ok w ls ↔ o = none ∧ w = v ∧ ls = [] := by
  cases o with
  | none => simp [verdict, eq_comm]
  | some e => simp [verdict]

/-- `^[0-9a-fA-F]{8}-[0-9a-fA-F]{4}-[1-5][0-9a-fA-F]{3}-[89abAB][0-9a-fA-F]{3}-[0-9a-fA-F]{12}$`. -/
def validUUID (s : String) : Bool :=
  match s.toList.splitOn '-' with
  | [a, b, c, d, e] =>
    ([a, b, c, d, e].map List.length == [8, 4, 4, 4, 12]) && (a ++ b ++ c ++ d ++ e).all isHex &&
      c.head?.any (fun x => "12345".toList.contains x) && d.head?.any (fun x => "89abAB".toList.contains x)
  | _ => false

/-- `valueformat.Validate`: the error, if any. -/
def Format.validate (lib : Library) (s : String) : Format → Option String
  | .none => Option.none
  | .email => if lib.email s then Option.none else some "must be email"
  | .uuid => if validUUID s then Option.none else some "must be uuid"
  | .date => if lib.date s then Option.none else some "must be date"
  | .dateTime => if lib.dateTime s then Option.none else some "must be date-time"
  | .uri =>
    match lib.uri s with
    | Option.none => some "must be uri"
    | some scheme => if scheme = "" then some "must include URI scheme" else Option.none

/-- The reason against a string, if any. -/
def stringReason (lib : Library) (r : Rules) (s : String) : Option String :=
  if r.minLength.any fun lo => (s.length : ℤ) < lo.toInt then some "below minLength"
  else if r.maxLength.any fun hi => (s.length : ℤ) > hi.toInt then some "above maxLength"
  else if r.pattern.any fun p => !p.matchString lib s then some "does not match pattern"
  else r.format.bind fun f => f.validate lib s

/-- The number of elements is out of bounds. -/
def lengthReason (r : Rules) (n : ℕ) : Option String :=
  if r.minItems.any fun lo => (n : ℤ) < lo.toInt then some "below minItems"
  else if r.maxItems.any fun hi => (n : ℤ) > hi.toInt then some "above maxItems"
  else none

theorem lengthReason_eq_none {r : Rules} {n : ℕ} :
    lengthReason r n = none ↔ (∀ lo ∈ r.minItems, lo.toInt ≤ n) ∧ ∀ hi ∈ r.maxItems, (n : ℤ) ≤ hi.toInt := by
  have hmin : (r.minItems.any fun lo => decide ((n : ℤ) < lo.toInt)) = false ↔ ∀ lo ∈ r.minItems, lo.toInt ≤ n := by
    cases r.minItems <;> simp
  have hmax : (r.maxItems.any fun hi => decide ((n : ℤ) > hi.toInt)) = false ↔ ∀ hi ∈ r.maxItems,
      (n : ℤ) ≤ hi.toInt := by
    cases r.maxItems <;> simp
  rw [lengthReason, ← hmin, ← hmax]
  cases r.minItems.any fun lo => decide ((n : ℤ) < lo.toInt) <;>
    cases r.maxItems.any fun hi => decide ((n : ℤ) > hi.toInt) <;> simp

/-- `numberRat`; the numbers compared are `int64` or finite `float64`. -/
def numberRat (n : Number) : ℚ := n.value.getD 0

/-- A number is outside its bounds. -/
def outsideBounds (r : Rules) (n : Number) : Bool :=
  r.minimum.any (fun b => numberRat n < numberRat b) || r.maximum.any (fun b => numberRat n > numberRat b) ||
    r.exclusiveMinimum.any (fun b => numberRat n ≤ numberRat b) ||
    r.exclusiveMaximum.any (fun b => numberRat n ≥ numberRat b)

/-- `validateEnumConst`: the error, if any. -/
def validateEnumConst (r : Rules) (v : Value) : Option String :=
  if r.enum.any fun vs => !vs.any (equalJSON v) then some "not in enum"
  else if r.const.any fun c => !equalJSON v c then some "does not equal const"
  else none

/-- A value of type `t` does not fit the declared types. -/
def wrongType (r : Rules) (t : JType) : Bool :=
  r.types ≠ [] && !r.types.contains t && !(t = .integer && r.types.contains .number)

/-- A number that is not taken as an integer: kept where no type is declared, a `float64` elsewhere. -/
def normalizeFloat (r : Rules) (n : Number) : Except String Number :=
  match n.finiteNumber with
  | none => .error "must be finite number"
  | some f =>
    if r.types = [] then
      match n with
      | .int64 i => .ok (.int64 i)
      | .int i => .ok (.int64 i)
      | .text t =>
        if t.isPlain then
          match parseInt64 t.negative (digitsValue t.whole) with
          | none => .error "integer exceeds int64"
          | some i => .ok (.int64 i)
        else .ok (.float f)
      | .float _ => .ok (.float f)
    else if r.output then
      -- a provider's integer is not rounded
      match n with
      | .int64 i => .ok (.int64 i)
      | .int i => .ok (.int64 i)
      | _ => .ok (.float f)
    else .ok (.float f)

/-- The type a number counts as and the number kept. -/
def normalizeNumber (r : Rules) (n : Number) : Except String (JType × Number) :=
  if r.types.contains .integer then
    match n.exactInteger with
    | some i => .ok (.integer, .int64 i)
    | none =>
      if !r.types.contains .number then .error "must be int64 integer"
      else (normalizeFloat r n).map (.number, ·)
  else (normalizeFloat r n).map (.number, ·)

/-- The limit on one file is the smaller of the declared and the request's, where both are set. -/
def FileConstraints.effective (f : FileConstraints) (limit : Int64) : FileConstraints :=
  if limit > 0 then { f with maxBytes := if f.maxBytes = 0 then limit else min f.maxBytes limit } else f

/-- The position of a file must hold a file of this request that fits. -/
def validateFile (limit : Int64) (s : Schema) (f : FileConstraints) (pointer : String) (v : Value) : Check Value :=
  match v with
  | .file x =>
    if x.id = "" || x.requestID = "" then fail pointer "file ownership is missing"
    else if x.pointer ≠ pointer then fail pointer "file input position does not match"
    else
      match (f.effective limit).validate x with
      | some e => fail pointer e
      | none =>
        let leaf := .mk { s.rules with file := some (f.effective limit) } s.properties s.items s.additional
        .ok (.file x) [⟨pointer, x, leaf⟩]
  | _ => fail pointer "must be a receiver-owned file"

theorem validateFile_eq_ok {limit : Int64} {s : Schema} {f : FileConstraints} {pointer : String} {v w : Value}
    {ls : List FileLeaf} :
    validateFile limit s f pointer v = .ok w ls ↔
      ∃ x, v = .file x ∧ x.id ≠ "" ∧ x.requestID ≠ "" ∧ x.pointer = pointer ∧
        (f.effective limit).validate x = none ∧ w = .file x ∧
        ls = [⟨pointer, x, .mk { s.rules with file := some (f.effective limit) } s.properties s.items
          s.additional⟩] := by
  unfold validateFile
  split
  · rename_i x
    simp only [Value.file, Json.leaf.injEq, Leaf.file.injEq, exists_eq_left']
    by_cases hid : (x.id = "" || x.requestID = "") = true
    · rw [if_pos hid]
      simp only [fail_ne_ok, false_iff, not_and]
      intro h1 h2
      simp [h1, h2] at hid
    · rw [if_neg hid]
      have hid : x.id ≠ "" ∧ x.requestID ≠ "" := by simpa using hid
      by_cases hp : x.pointer = pointer
      · rw [if_neg (not_not.mpr hp)]
        cases (f.effective limit).validate x with
        | some e => simp
        | none => simp [hid, hp, eq_comm]
      · rw [if_pos hp]
        simp [hp]
  · rename_i hv
    simp only [fail_ne_ok, false_iff, not_exists, not_and]
    intro x hx
    exact absurd hx (hv x)

def validateNull (r : Rules) (pointer : String) : Check Value :=
  if r.nullable then pure .null
  -- an input null still has to belong to the declared values
  else if r.output then fail pointer "null is not allowed"
  else if r.types ≠ [] && !r.types.contains .null then fail pointer "null is not allowed"
  else verdict pointer .null (validateEnumConst r .null)

theorem validateNull_eq_ok {r : Rules} {pointer : String} {w : Value} {ls : List FileLeaf} :
    validateNull r pointer = .ok w ls ↔
      (r.nullable = true ∨ r.output = false ∧ (r.types = [] ∨ .null ∈ r.types) ∧ validateEnumConst r .null = none) ∧
        w = .null ∧ ls = [] := by
  unfold validateNull
  by_cases hn : r.nullable = true
  · rw [if_pos hn, Check.pure_eq, Check.ok.injEq, eq_comm, eq_comm (a := [])]
    simp only [hn, true_or, true_and]
  · have ht : (r.types ≠ [] && !r.types.contains .null) = false ↔ r.types = [] ∨ .null ∈ r.types := by
      by_cases h : r.types = [] <;> simp [h]
    rw [if_neg hn, guard_eq_ok, guard_eq_ok, verdict_eq_ok, ht]
    simp only [hn, false_or, and_assoc, Bool.false_eq_true]

def validateNumber (r : Rules) (pointer : String) (n : Number) : Check Value :=
  match normalizeNumber r n with
  | .error e => fail pointer e
  | .ok (t, m) =>
    if wrongType r t then fail pointer "type does not match schema"
    else if outsideBounds r m then fail pointer "outside numeric bounds"
    else verdict pointer (.num m) (validateEnumConst r (.num m))

/-- A member that no property declares, where an object may have no other. -/
def unknownProperty (r : Rules) (names : List String) (fs : List (String × Value)) : Bool :=
  fs.any (fun f => !names.contains f.1) && r.types.contains .object && !r.additionalAllowed

/-- The checks of one node; `children` is the value with its elements or members validated. -/
def validateNode (lib : Library) (limit : Int64) (s : Schema) (pointer : String) (v : Value)
    (children : Check Value) : Check Value :=
  let r := s.rules
  match r.file, v with
  | _, .null => validateNull r pointer
  | some f, v => validateFile limit s f pointer v
  | none, .file _ => fail pointer "unsupported JSON value"
  | none, .bool b =>
    if wrongType r .boolean then fail pointer "type does not match schema"
    else verdict pointer (.bool b) (validateEnumConst r (.bool b))
  | none, .num n => validateNumber r pointer n
  | none, .str x =>
    if wrongType r .string then fail pointer "type does not match schema"
    else verdict pointer (.str x) ((stringReason lib r x).or (validateEnumConst r (.str x)))
  | none, .obj fs =>
    if wrongType r .object then fail pointer "type does not match schema"
    else if unknownProperty r (s.properties.map Prod.fst) fs then fail pointer "unknown property"
    else do
      let w ← children
      verdict pointer w (validateEnumConst r w)
  | none, .arr xs =>
    if wrongType r .array then fail pointer "type does not match schema"
    else
      match lengthReason r xs.length with
      | some e => fail pointer e
      | none => do
        let w ← children
        verdict pointer w (validateEnumConst r w)

theorem validateNode_leaf_file {lib : Library} {limit : Int64} {s : Schema} {pointer : String}
    {children : Check Value} {w : Value} {ls : List FileLeaf} (hf : s.rules.file = none) {x : FileValue} :
    validateNode lib limit s pointer (.file x) children ≠ .ok w ls := by
  simp only [validateNode, hf, ne_eq, fail_ne_ok, not_false_eq_true]

/-! ### The recursion -/

/-- `~` and `/` escaped; a replacement of the first never makes one of the second. -/
def escapePointer (k : String) : String :=
  String.ofList (k.toList.flatMap fun c => if c = '~' then ['~', '0'] else if c = '/' then ['~', '1'] else [c])

/-- The position of a member. -/
def memberPointer (pointer k : String) : String := pointer ++ "/" ++ escapePointer k

/-- The position of an element. -/
def itemPointer (pointer : String) (n : ℕ) : String :=
  pointer ++ "/" ++ String.ofList ((decimal n).map digitChar)

/-- How a validation is run: whether defaults are filled in, and the request's limit on one file (none if it is not
positive). -/
structure Mode where
  defaults : Bool
  fileLimit : Int64 := 0

/-- The value of a declared property: the member, or else the default. -/
def propertyValue (defaults : Bool) (fs : List (String × Value)) (k : String) (s : Schema) : Option Value :=
  (Fields.get k fs).or (if defaults then s.rules.default else none)

/-- The members no property declares, in key order. -/
def otherMembers (names : List String) (fs : List (String × Value)) : List (String × Value) :=
  fs.filter fun f => !names.contains f.1

/-- Validate each member at its own position. -/
def validateMembers (f : String → Value → Check Value) (pointer : String) (fs : List (String × Value)) :
    Check (List (String × Value)) :=
  Check.forEach (fun g => do let w ← f (memberPointer pointer g.1) g.2; pure (g.1, w)) fs

/-- Validate each element at its own position. -/
def validateItems (f : String → Value → Check Value) (pointer : String) (xs : List Value) : Check (List Value) :=
  Check.forEach (fun x => f (itemPointer pointer x.2) x.1) xs.zipIdx

mutual
/-- A value below a node that declares nothing about it. -/
def validateFree (lib : Library) (limit : Int64) (pointer : String) : Value → Check Value
  | .arr xs => validateNode lib limit .free pointer (.arr xs) do
      let ys ← validateFreeItems lib limit pointer 0 xs
      pure (.arr ys)
  | .obj fs => validateNode lib limit .free pointer (.obj fs) do
      let gs ← validateFreeMembers lib limit pointer fs
      pure (.obj (Fields.ofList gs))
  | .null => validateNode lib limit .free pointer .null (pure .null)
  | .bool b => validateNode lib limit .free pointer (.bool b) (pure (.bool b))
  | .str s => validateNode lib limit .free pointer (.str s) (pure (.str s))
  | .leaf a => validateNode lib limit .free pointer (.leaf a) (pure (.leaf a))
def validateFreeItems (lib : Library) (limit : Int64) (pointer : String) (n : ℕ) : List Value → Check (List Value)
  | [] => pure []
  | x :: xs => do
    let y ← validateFree lib limit (itemPointer pointer n) x
    let ys ← validateFreeItems lib limit pointer (n + 1) xs
    pure (y :: ys)
def validateFreeMembers (lib : Library) (limit : Int64) (pointer : String) :
    List (String × Value) → Check (List (String × Value))
  | [] => pure []
  | (k, x) :: fs => do
    let y ← validateFree lib limit (memberPointer pointer k) x
    let gs ← validateFreeMembers lib limit pointer fs
    pure ((k, y) :: gs)
end

mutual
/-- `validate`. -/
def validate (lib : Library) (m : Mode) : Schema → String → Value → Check Value
  | .mk r ps i a, pointer, v => validateNode lib m.fileLimit (.mk r ps i a) pointer v
      (match v with
      | .obj fs => do
        let declared ← validateProperties lib m r.required pointer fs ps
        let other ← validateMembers (fun q x => validateBelow lib m a q x) pointer
          (otherMembers (ps.map Prod.fst) fs)
        pure (.obj (Fields.ofList (declared ++ other)))
      | .arr xs => do
        let ys ← validateItems (fun q x => validateBelow lib m i q x) pointer xs
        pure (.arr ys)
      | v => pure v)
/-- The declared properties in declaration order. -/
def validateProperties (lib : Library) (m : Mode) (required : List String) (pointer : String)
    (fs : List (String × Value)) : List (String × Schema) → Check (List (String × Value))
  | [] => pure []
  | (k, s) :: ps =>
    match propertyValue m.defaults fs k s with
    | none =>
      if required.contains k then fail pointer "required property missing"
      else validateProperties lib m required pointer fs ps
    | some x => do
      let y ← validate lib m s (memberPointer pointer k) x
      let gs ← validateProperties lib m required pointer fs ps
      pure ((k, y) :: gs)
/-- The schema of elements or other members, if there is one. -/
def validateBelow (lib : Library) (m : Mode) : Option Schema → String → Value → Check Value
  | some s, pointer, v => validate lib m s pointer v
  | none, pointer, v => validateFree lib m.fileLimit pointer v
end

/-! ### The input of a request -/

/-- The files of one request against its limits: the error, if any. -/
def fileLimitsReason (l : Limits) (leaves : List FileLeaf) : Option String :=
  if l.maxFiles > 0 && (leaves.length : ℤ) > l.maxFiles.toInt then some "input file count limit exceeded"
  else
    let rec total (sum : ℤ) : List FileLeaf → Except String ℤ
      | [] => .ok sum
      | f :: fs =>
        if l.maxFileBytes > 0 && f.value.sizeBytes > l.maxFileBytes then .error "input file byte limit exceeded"
        else if f.value.sizeBytes.toInt > Int64.maxValue.toInt - sum then .error "input file bytes overflow"
        else total (sum + f.value.sizeBytes.toInt) fs
    match total 0 leaves with
    | .error e => some e
    | .ok sum =>
      if l.maxTotalFileBytes > 0 && sum > l.maxTotalFileBytes.toInt then some "input total file byte limit exceeded"
      else none

/-- `ValidateInput`: the object with defaults filled in and numbers normalized, and its file leaves. -/
def validateInput (lib : Library) (s : Schema) (l : Limits) (input : List (String × Value)) :
    Except String (Value × List FileLeaf) :=
  match checkJSONLimits l (.obj input) with
  | .error e => .error e
  | .ok _ =>
    match validate lib { defaults := true, fileLimit := l.maxFileBytes } s "" (.obj input) with
    | .failed e => .error (e.pointer ++ ": " ++ e.reason)
    | .ok v leaves =>
      match fileLimitsReason l leaves with
      | some e => .error e
      | none =>
        match checkJSONLimits l v with
        | .error e => .error e
        | .ok _ => .ok (v, leaves)

/-! ### What a node accepts -/

section
variable {lib : Library} {limit : Int64} {s : Schema} {pointer : String} {children : Check Value} {w : Value}
  {ls : List FileLeaf}

theorem validateNode_null : validateNode lib limit s pointer .null children = validateNull s.rules pointer := by
  unfold validateNode
  cases s.rules.file <;> rfl

theorem validateNode_file {f : FileConstraints} (hf : s.rules.file = some f) {v : Value} (hv : v ≠ .null) :
    validateNode lib limit s pointer v children = validateFile limit s f pointer v := by
  unfold validateNode
  dsimp only
  rw [hf]
  cases v with
  | null => exact absurd rfl hv
  | _ => rfl

theorem validateNode_bool (hf : s.rules.file = none) {b : Bool} :
    validateNode lib limit s pointer (.bool b) children = .ok w ls ↔
      wrongType s.rules .boolean = false ∧ validateEnumConst s.rules (.bool b) = none ∧ w = .bool b ∧ ls = [] := by
  simp only [validateNode, hf, guard_eq_ok, verdict_eq_ok]

theorem validateNode_str (hf : s.rules.file = none) {x : String} :
    validateNode lib limit s pointer (.str x) children = .ok w ls ↔
      wrongType s.rules .string = false ∧ stringReason lib s.rules x = none ∧
        validateEnumConst s.rules (.str x) = none ∧ w = .str x ∧ ls = [] := by
  simp only [validateNode, hf, guard_eq_ok, verdict_eq_ok, Option.or_eq_none_iff, and_assoc]

theorem validateNode_num (hf : s.rules.file = none) {n : Number} :
    validateNode lib limit s pointer (.num n) children = .ok w ls ↔
      ∃ t m, normalizeNumber s.rules n = .ok (t, m) ∧ wrongType s.rules t = false ∧ outsideBounds s.rules m = false ∧
        validateEnumConst s.rules (.num m) = none ∧ w = .num m ∧ ls = [] := by
  simp only [validateNode, hf, validateNumber]
  cases normalizeNumber s.rules n with
  | error e => simp
  | ok tm => simp [Prod.ext_iff]

theorem validateNode_obj (hf : s.rules.file = none) {fs : List (String × Value)} :
    validateNode lib limit s pointer (.obj fs) children = .ok w ls ↔
      wrongType s.rules .object = false ∧ unknownProperty s.rules (s.properties.map Prod.fst) fs = false ∧
        children = .ok w ls ∧ validateEnumConst s.rules w = none := by
  simp only [validateNode, hf, guard_eq_ok, Check.bind_eq_ok, verdict_eq_ok]
  constructor
  · rintro ⟨ht, hu, _, _, _, hc, ⟨he, rfl, rfl⟩, rfl⟩
    exact ⟨ht, hu, by rw [hc, List.append_nil], he⟩
  · rintro ⟨ht, hu, hc, he⟩
    exact ⟨ht, hu, w, ls, [], hc, ⟨he, rfl, rfl⟩, (List.append_nil ls).symm⟩

theorem validateNode_arr (hf : s.rules.file = none) {xs : List Value} :
    validateNode lib limit s pointer (.arr xs) children = .ok w ls ↔
      wrongType s.rules .array = false ∧ lengthReason s.rules xs.length = none ∧
        children = .ok w ls ∧ validateEnumConst s.rules w = none := by
  simp only [validateNode, hf, guard_eq_ok]
  cases lengthReason s.rules xs.length with
  | some e => simp
  | none =>
    simp only [Check.bind_eq_ok, verdict_eq_ok, true_and]
    refine and_congr_right fun _ => ?_
    constructor
    · rintro ⟨_, _, _, hc, ⟨he, rfl, rfl⟩, rfl⟩
      exact ⟨by rw [hc, List.append_nil], he⟩
    · rintro ⟨hc, he⟩
      exact ⟨w, ls, [], hc, ⟨he, rfl, rfl⟩, (List.append_nil ls).symm⟩

end

end Onprest.Contract
