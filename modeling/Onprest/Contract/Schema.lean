import Onprest.Contract.Value
import Onprest.Contract.Pattern

/-! Compiled schemas, the constraints on files and the size limits of input JSON. -/

namespace Onprest.Contract
open Lib

/-- The type names of a schema, in the order of their texts. -/
inductive JType
  | array | boolean | file | integer | null | number | object | string
deriving DecidableEq, Repr

/-- The values of `format`; `none` is the empty text. -/
inductive Format
  | none | email | uuid | date | dateTime | uri
deriving DecidableEq, Repr

structure FileConstraints where
  extensions : List String := []
  mimeTypes : List String := []
  maxBytes : Int64 := 0
  allowEmpty : Bool := true
deriving DecidableEq

/-- The parts of a schema node that hold no schema. -/
structure Rules where
  description : Option String := none
  types : List JType := []
  propertiesSet : Bool := false
  required : List String := []
  additionalAllowed : Bool := false
  default : Option Value := none
  nullable : Bool := false
  minimum : Option Number := none
  maximum : Option Number := none
  exclusiveMinimum : Option Number := none
  exclusiveMaximum : Option Number := none
  minLength : Option Int64 := none
  maxLength : Option Int64 := none
  minItems : Option Int64 := none
  maxItems : Option Int64 := none
  format : Option Format := none
  enum : Option (List Value) := none
  const : Option Value := none
  file : Option FileConstraints := none
  pattern : Option Pattern := none
  output : Bool := false

/-- A compiled schema; `properties` are in declaration order. -/
inductive Schema
  | mk (rules : Rules) (properties : List (String × Schema)) (items additional : Option Schema)

namespace Schema

def rules : Schema → Rules
  | .mk r _ _ _ => r

def properties : Schema → List (String × Schema)
  | .mk _ ps _ _ => ps

def items : Schema → Option Schema
  | .mk _ _ i _ => i

def additional : Schema → Option Schema
  | .mk _ _ _ a => a

@[simp] theorem rules_mk (r : Rules) (ps i a) : (mk r ps i a).rules = r := rfl
@[simp] theorem properties_mk (r : Rules) (ps i a) : (mk r ps i a).properties = ps := rfl
@[simp] theorem items_mk (r : Rules) (ps i a) : (mk r ps i a).items = i := rfl
@[simp] theorem additional_mk (r : Rules) (ps i a) : (mk r ps i a).additional = a := rfl

@[elab_as_elim, induction_eliminator]
theorem induct {motive : Schema → Prop}
    (mk : ∀ r ps i a, (∀ p ∈ ps, motive p.2) → (∀ s ∈ i, motive s) → (∀ s ∈ a, motive s) → motive (.mk r ps i a))
    (s : Schema) : motive s := by
  refine @Schema.rec motive (fun ps => ∀ p ∈ ps, motive p.2) (fun o => ∀ s ∈ o, motive s) (fun p => motive p.2)
    mk ?_ ?_ ?_ ?_ ?_ s
  · intro p hp
    cases hp
  · intro p ps hp hps q hq
    rcases List.mem_cons.mp hq with rfl | hq
    · exact hp
    · exact hps q hq
  · intro s hs
    cases hs
  · rintro s hs t ⟨rfl⟩
    exact hs
  · intro k s hs
    exact hs

/-- The schema of a value that no declaration describes. -/
def free : Schema := .mk { nullable := true } [] none none

/-- A property of a schema and of every schema below it. -/
inductive Everywhere (P : Schema → Prop) : Schema → Prop
  | mk {r : Rules} {ps : List (String × Schema)} {i a : Option Schema} (node : P (.mk r ps i a))
    (properties : ∀ q ∈ ps, Everywhere P q.2) (items : ∀ s ∈ i, Everywhere P s)
    (additional : ∀ s ∈ a, Everywhere P s) : Everywhere P (.mk r ps i a)

theorem Everywhere.here {P : Schema → Prop} {s : Schema} (h : Everywhere P s) : P s := by
  cases h with
  | mk node => exact node

theorem Everywhere.imp {P Q : Schema → Prop} (himp : ∀ s, P s → Q s) {s : Schema} (h : Everywhere P s) :
    Everywhere Q s := by
  induction s with
  | mk r ps i a hps hi ha =>
    cases h with
    | mk node properties items additional =>
      exact .mk (himp _ node) (fun q hq => hps q hq (properties q hq)) (fun s hs => hi s hs (items s hs))
        fun s hs => ha s hs (additional s hs)

section
variable (P : Schema → Prop) [DecidablePred P]

mutual
/-- A property of every schema, checked. -/
def every : Schema → Bool
  | .mk r ps i a => decide (P (.mk r ps i a)) && everyProperty ps && everyIn i && everyIn a
def everyIn : Option Schema → Bool
  | none => true
  | some s => every s
def everyProperty : List (String × Schema) → Bool
  | [] => true
  | (_, s) :: ps => every s && everyProperty ps
end

theorem every_iff (s : Schema) : every P s = true ↔ s.Everywhere P := by
  induction s with
  | mk r ps i a hps hi ha =>
    have hproperty : everyProperty P ps = true ↔ ∀ q ∈ ps, q.2.Everywhere P := by
      clear hi ha
      induction ps with
      | nil => simp [everyProperty]
      | cons q ps ih =>
        rw [List.forall_mem_cons] at hps
        rw [everyProperty, Bool.and_eq_true, hps.1, ih hps.2, List.forall_mem_cons]
    have hin (o : Option Schema) (ho : ∀ s ∈ o, every P s = true ↔ s.Everywhere P) :
        everyIn P o = true ↔ ∀ s ∈ o, s.Everywhere P := by
      cases o with
      | none => simp [everyIn]
      | some s => simpa [everyIn] using ho s rfl
    rw [every, Bool.and_eq_true, Bool.and_eq_true, Bool.and_eq_true, decide_eq_true_iff, hproperty,
      hin i hi, hin a ha]
    constructor
    · rintro ⟨⟨⟨node, properties⟩, items⟩, additional⟩
      exact .mk node properties items additional
    · intro h
      cases h with
      | mk node properties items additional => exact ⟨⟨⟨node, properties⟩, items⟩, additional⟩

instance (s : Schema) : Decidable (s.Everywhere P) := decidable_of_iff _ (every_iff P s)

end

mutual
/-- `HasFiles`. -/
def hasFiles : Schema → Bool
  | .mk r ps i a => r.file.isSome || hasFilesIn i || hasFilesIn a || hasFilesAny ps
def hasFilesIn : Option Schema → Bool
  | none => false
  | some s => hasFiles s
def hasFilesAny : List (String × Schema) → Bool
  | [] => false
  | (_, s) :: ps => hasFiles s || hasFilesAny ps
end

end Schema

/-- `Limits`. -/
structure Limits where
  maxBytes : Int64 := 0
  maxDepth : Int64 := 0
  maxItems : Int64 := 0
  maxFileBytes : Int64 := 0
  maxTotalFileBytes : Int64 := 0
  maxFiles : Int64 := 0
deriving DecidableEq

/-! ### Files -/

/-- `unicode.IsControl`. -/
def isControlRune (c : Char) : Bool := c.toNat ≤ 0x1f || (0x7f ≤ c.toNat && c.toNat ≤ 0x9f)

/-- `ValidateBasename` returns no error. -/
def validBasename (s : String) : Bool :=
  1 ≤ s.utf8ByteSize && s.utf8ByteSize ≤ 255 && s != "." && s != ".." &&
    s.toList.all fun c => c != '/' && c != '\\' && !isControlRune c

/-- A token character of a media type that `strings.ToLower` leaves alone. -/
def mimeTokenChar (c : Char) : Bool :=
  0x20 < c.toNat && c.toNat < 0x7f && !("()<>@,;:\\\"/[]?=".toList.contains c) && !c.isUpper

/-- A lowercase media type without parameters or wildcards. -/
def validMIME (s : String) : Bool :=
  match s.toList.splitOn '/' with
  | [a, b] => a ≠ [] && b ≠ [] && (a ++ b).all fun c => mimeTokenChar c && c != '*'
  | _ => false

/-- `^[0-9a-f]{64}$`. -/
def validDigest (s : String) : Bool :=
  s.toList.length == 64 && s.toList.all (Regexp.inClass [(48, 57), (97, 102)])

def asciiLower (s : String) : String := s.map Char.toLower

/-- The text after the last dot of a name, unless the dot is its first or last character. -/
def fileExtension (name : String) : Option String :=
  let cs := name.toList.reverse
  let ext := cs.takeWhile (· ≠ '.')
  if ext = [] || cs.length ≤ ext.length + 1 then none else some (String.ofList ext.reverse)

/-- `FileConstraints.Validate`: the error, if any. -/
def FileConstraints.validate (f : FileConstraints) (v : FileValue) : Option String :=
  if !validBasename v.name then some "invalid file basename"
  else if !validMIME v.mimeType then some "invalid file MIME type"
  else if v.sizeBytes < 0 || f.maxBytes ≤ 0 || v.sizeBytes > f.maxBytes then some "file byte limit exceeded"
  else if v.sizeBytes = 0 && !f.allowEmpty then some "empty file is forbidden"
  else if !validDigest v.sha256 then some "invalid file digest"
  else if f.mimeTypes ≠ [] && !f.mimeTypes.contains v.mimeType then some "file MIME type is forbidden"
  else if f.extensions ≠ [] && !((fileExtension v.name).any fun e => f.extensions.contains (asciiLower e)) then
    some "file extension is forbidden"
  else none

/-! ### Limits -/

/-- The length `encoding/json` gives a string without HTML escaping. -/
def jsonStringBytes (s : String) : ℕ :=
  s.toList.foldl (fun n c =>
    if ['\\', '"', '\x08', '\x0c', '\n', '\r', '\t'].contains c then n + 2
    else if c.toNat = 0x2028 || c.toNat = 0x2029 then n + 6
    else if c.toNat < 0x20 then n + 6
    else n + c.utf8Size) 2

/-- Values visited and bytes counted so far. -/
structure Usage where
  count : ℕ := 0
  bytes : ℕ := 0
deriving DecidableEq

namespace Usage

/-- `addBytes`. -/
def addBytes (l : Limits) (n : ℕ) (u : Usage) : Except String Usage :=
  if (u.bytes + n : ℤ) > l.maxBytes.toInt then .error "input JSON byte limit exceeded"
  else .ok { u with bytes := u.bytes + n }

/-- The entry to a value at depth `d`. -/
def visit (l : Limits) (d : ℕ) (u : Usage) : Except String Usage :=
  if (d : ℤ) > l.maxDepth.toInt || (u.count + 1 : ℤ) > l.maxItems.toInt then
    .error "input JSON structural limit exceeded"
  else .ok { u with count := u.count + 1 }

/-- The key of an object member. -/
def addKey (l : Limits) (k : String) (u : Usage) : Except String Usage :=
  (u.addBytes l (jsonStringBytes k + 1)).bind fun u =>
    if (u.count + 1 : ℤ) > l.maxItems.toInt then .error "input JSON item limit exceeded"
    else .ok { u with count := u.count + 1 }

end Usage

/-- The bytes of a leaf: its canonical text, or the metadata object of a file. -/
def leafBytes : Leaf → Except String ℕ
  | .num n => (canonicalNumber n).map (·.text.length)
  | .file f =>
    if !validBasename f.name then .error "invalid file basename"
    else
      let keys := ["name", "mime_type", "size_bytes", "sha256"].map fun k => jsonStringBytes k + 1
      let texts := [f.name, f.mimeType, f.sha256].map jsonStringBytes
      -- the limit on the growing sum is the one `addBytes` applies to the total
      .ok (5 + (formatInt f.sizeBytes).text.length + keys.sum + texts.sum)

mutual
/-- The visit of one value at depth `d`; the members of an object come in key order. -/
def checkValue (l : Limits) (d : ℕ) : Value → Usage → Except String Usage
  | .null, u => (u.visit l d).bind (Usage.addBytes l 4)
  | .bool b, u => (u.visit l d).bind (Usage.addBytes l (if b then 4 else 5))
  | .str s, u => (u.visit l d).bind (Usage.addBytes l (jsonStringBytes s))
  | .leaf a, u => (u.visit l d).bind fun u => (leafBytes a).bind fun n => u.addBytes l n
  | .arr xs, u =>
    ((u.visit l d).bind (Usage.addBytes l (2 + (xs.length - 1)))).bind fun u => checkItems l (d + 1) xs u
  | .obj fs, u =>
    ((u.visit l d).bind (Usage.addBytes l (2 + (fs.length - 1)))).bind fun u => checkFields l (d + 1) fs u
def checkItems (l : Limits) (d : ℕ) : List Value → Usage → Except String Usage
  | [], u => .ok u
  | x :: xs, u => (checkValue l d x u).bind fun u => checkItems l d xs u
def checkFields (l : Limits) (d : ℕ) : List (String × Value) → Usage → Except String Usage
  | [], u => .ok u
  | (k, x) :: fs, u =>
    ((u.addKey l k).bind fun u => checkValue l d x u).bind fun u => checkFields l d fs u
end

/-- `checkJSONLimits`. -/
def checkJSONLimits (l : Limits) (v : Value) : Except String Unit :=
  if l.maxBytes ≤ 0 || l.maxDepth ≤ 0 || l.maxItems ≤ 0 then .error "input JSON limits must be positive"
  else (checkValue l 1 v {}).map fun _ => ()

end Onprest.Contract
