import Mathlib.Data.List.Sort
import Onprest.Lib.Except
import Onprest.Contract.Validate

/-! Compilation of a declared schema: decoded configuration maps, the checks of each keyword in the order of the
source, and the normalization of declared values. -/

namespace Onprest.Contract
open Lib

/-! ### Decoded configuration -/

/-- The numbers of decoded configuration: an `int64`, or a finite `float64` without a negative zero. -/
inductive Scalar
  | int (n : Int64)
  | float (q : ℚ) (h : Binary64.Finite q)

instance : DecidableEq Scalar
  | .int m, .int n => decidable_of_iff (m = n) (by simp)
  | .float p _, .float q _ => decidable_of_iff (p = q) (by simp)
  | .int _, .float _ _ | .float _ _, .int _ => .isFalse (by rintro ⟨⟩)

def Scalar.number : Scalar → Number
  | .int n => .int64 n
  | .float q h => .float (.finite q h)

/-- A decoded configuration value; the entries of a map are in declaration order. -/
abbrev Raw := Json Scalar

/-- A decoded configuration map. -/
structure RawMap where
  fields : List (String × Raw)
  distinct : Contract.distinct (.obj fields) = true

mutual
/-- A configuration value as JSON data. -/
def plain : Raw → Value
  | .null => .null
  | .bool b => .bool b
  | .str s => .str s
  | .leaf a => .num a.number
  | .arr xs => .arr (plainItems xs)
  | .obj fs => .obj (Fields.ofList (plainFields fs))
def plainItems : List Raw → List Value
  | [] => []
  | x :: xs => plain x :: plainItems xs
def plainFields : List (String × Raw) → List (String × Value)
  | [] => []
  | (k, x) :: fs => (k, plain x) :: plainFields fs
end

/-! ### Reading one key -/

/-- Stop with an error if `c` holds. -/
def refuse (c : Bool) (e : String) : Except String Unit := if c then .error e else .ok ()

theorem refuse_bind_eq_ok {α : Type} {c : Bool} {e : String} {x : Unit → Except String α} {a : α} :
    refuse c e >>= x = .ok a ↔ c = false ∧ x () = .ok a := by
  cases c <;> simp [refuse, bind, Except.bind]

/-- `m.has(k)`. -/
def has (m : List (String × Raw)) (k : String) : Bool := (Fields.get k m).isSome

def object (label : String) : Option Raw → Except String (List (String × Raw))
  | some (.obj fs) => .ok fs
  | _ => .error (safe label ++ " must be a map")

def str (label : String) : Option Raw → Except String String
  | some (.str s) => .ok s
  | _ => .error (safe label ++ " must be a UTF-8 string")

def boolDefault (m : List (String × Raw)) (k : String) (d : Bool) : Except String Bool :=
  match Fields.get k m with
  | none => .ok d
  | some (.bool b) => .ok b
  | some _ => .error (safe k ++ " must be boolean")

def list (label : String) : Option Raw → Except String (List Raw)
  | some (.arr xs) => .ok xs
  | _ => .error (safe label ++ " must be a list")

/-- The elements of a list of nonempty distinct strings. -/
def stringItems (label : String) (seen : List String) : List Raw → Except String (List String)
  | [] => .ok []
  | x :: xs =>
    match x with
    | .str s =>
      if s = "" then .error (safe label ++ " contains an invalid string")
      else if seen.contains s then .error (safe label ++ " contains duplicates")
      else (stringItems label (s :: seen) xs).map (s :: ·)
    | _ => .error (safe label ++ " contains an invalid string")

/-- `stringsList` of nonempty strings. -/
def stringsList (label : String) (v : Option Raw) : Except String (List String) :=
  (list label v).bind (stringItems label [])

/-- The first key that is not allowed. -/
def known (m : List (String × Raw)) (allowed : List String) : Except String Unit :=
  match m.find? fun f => !allowed.contains f.1 with
  | some f => .error ("unknown field " ++ safe f.1)
  | none => .ok ()

/-! ### File constraints -/

/-- `^([0-9]+)(B|KiB|MiB|GiB|KB|MB|GB)?$`: the number and the factor. -/
def capacity (s : String) : Option (ℕ × ℕ) :=
  let (ds, unit) := takeDigits s.toList
  if ds = [] then none
  else
    let factor : Option ℕ :=
      if ["", "B"].contains (String.ofList unit) then some 1
      else if ["KiB", "KB"].contains (String.ofList unit) then some (2 ^ 10)
      else if ["MiB", "MB"].contains (String.ofList unit) then some (2 ^ 20)
      else if ["GiB", "GB"].contains (String.ofList unit) then some (2 ^ 30)
      else none
    factor.map fun f => (digitsValue ds, f)

/-- `ByteSize`. -/
def byteSize : Option Raw → Except String Int64
  | some (.leaf (.int n)) => if n > 0 then .ok n else .error "byte capacity must be positive"
  | some (.str s) =>
    match capacity s with
    | none => .error "invalid byte capacity"
    | some (n, factor) =>
      if n ≥ 2 ^ 63 || n = 0 then .error "byte capacity must be positive int64"
      else if n > (2 ^ 63 - 1) / factor then .error "byte capacity overflows int64"
      else .ok (Int64.ofNat (n * factor))
  | _ => .error "byte capacity must be integer or unit string"

/-- `^[A-Za-z0-9][A-Za-z0-9_-]{0,31}$`. -/
def validExtension (s : String) : Bool :=
  match s.toList with
  | [] => false
  | c :: cs => c.isAlphanum && cs.length ≤ 31 && cs.all fun d => d.isAlphanum || d = '_' || d = '-'

def compileExtensions : List Raw → Except String (List String)
  | [] => .ok []
  | .str s :: xs =>
    if validExtension s then (compileExtensions xs).map (asciiLower s :: ·) else .error "invalid file extension"
  | _ :: _ => .error "invalid file extension"

def compileFileExtensions (m : List (String × Raw)) : Except String (List String) :=
  if has m "extensions" then do
    let xs ← list "extensions" (Fields.get "extensions" m)
    let es ← compileExtensions xs
    pure (es.dedup.insertionSort (· ≤ ·))
  else pure []

def compileMimeTypes (m : List (String × Raw)) : Except String (List String) :=
  if has m "mime_types" then do
    let ss ← stringsList "mime_types" (Fields.get "mime_types" m)
    refuse (ss.any fun s => !validMIME s) "invalid lowercase MIME type"
    pure (ss.insertionSort (· ≤ ·))
  else pure []

def compileFile (m : List (String × Raw)) : Except String FileConstraints := do
  let extensions ← compileFileExtensions m
  let mimeTypes ← compileMimeTypes m
  let maxBytes ← if has m "max_bytes" then byteSize (Fields.get "max_bytes" m) else .ok 0
  let allowEmpty ← boolDefault m "allow_empty" true
  pure { extensions, mimeTypes, maxBytes, allowEmpty }

/-! ### Types -/

def JType.all : List JType := [.array, .boolean, .file, .integer, .null, .number, .object, .string]

def JType.name : JType → String
  | .array => "array"
  | .boolean => "boolean"
  | .file => "file"
  | .integer => "integer"
  | .null => "null"
  | .number => "number"
  | .object => "object"
  | .string => "string"

def JType.ofName (s : String) : Option JType := JType.all.find? fun t => t.name = s

def typeNames (m : List (String × Raw)) : Except String (List String) :=
  match Fields.get "type" m with
  | none => .ok []
  | some (.str s) => .ok [s]
  | some (.arr xs) =>
    match stringItems "type" [] xs with
    | .ok (s :: ss) => .ok (s :: ss)
    | _ => .error "type must be a nonempty type union"
  | some _ => .error "type must be a string or union"

def compileTypes (m : List (String × Raw)) : Except String (List JType) :=
  (typeNames m).bind fun names =>
    match names.mapM JType.ofName with
    | some ts => .ok ts
    | none => .error "unsupported schema type"

/-- The types of the root of an input, which is an object. -/
def rootTypes (m : List (String × Raw)) (root : Bool) (types : List JType) : Except String (List JType) :=
  if root then do
    refuse (has m "type" && types ≠ [.object]) "input root must be object"
    refuse (has m "items") "input root cannot be array"
    pure [.object]
  else pure types

/-- The type that `properties` or `items` stand for. -/
def inferredType (m : List (String × Raw)) : Option JType :=
  if has m "items" then some .array else if has m "properties" then some .object else none

def inferTypes (m : List (String × Raw)) (types : List JType) : Except String (List JType) := do
  refuse (has m "properties" && has m "items") "properties and items are exclusive"
  match inferredType m with
  | none => pure types
  | some t =>
    if types = [] then pure [t]
    else do
      refuse (!types.contains t || types.length > 2 || types.length = 2 && !types.contains .null)
        "structural type contradicts explicit type"
      pure types

/-- Whether null is let through, and the types that are left; only an output declares it. -/
def compileNullable (m : List (String × Raw)) (input : Bool) (types : List JType) :
    Except String (Bool × List JType) :=
  if input then pure (false, types)
  else do
    let nullable ← boolDefault m "nullable" true
    refuse (!nullable && types.contains .null) "nullable false contradicts null type"
    pure (nullable, if types.contains .null && types.length > 1 then types.filter (· ≠ .null) else types)

/-- `sort.Strings` of distinct type names. -/
def sortTypes (types : List JType) : List JType := JType.all.filter types.contains

/-! ### Structure -/

def compileProperties (compile : List (String × Raw) → Except String Schema) :
    List (String × Raw) → Except String (List (String × Schema))
  | [] => .ok []
  | (k, v) :: fs => do
    let m ← object "property" (some v)
    let s ← (compile m).mapError fun e => "property " ++ safe k ++ ": " ++ e
    let ps ← compileProperties compile fs
    pure ((k, s) :: ps)

/-- `properties`, if there are any. -/
def compilePropertyMap (compile : List (String × Raw) → Except String Schema) (m : List (String × Raw)) :
    Except String (List (String × Schema)) :=
  if has m "properties" then do
    let fs ← object "properties" (Fields.get "properties" m)
    compileProperties compile fs
  else pure []

def compileRequired (m : List (String × Raw)) (types : List JType) (names : List String) :
    Except String (List String) :=
  if types.contains .object && has m "required" then do
    let ks ← stringsList "required" (Fields.get "required" m)
    refuse (ks.any fun k => !names.contains k) "required must name a declared property"
    pure (ks.insertionSort (· ≤ ·))
  else pure []

/-- Whether other members are allowed, and their schema. -/
def compileAdditional (compile : List (String × Raw) → Except String Schema) (m : List (String × Raw))
    (types : List JType) (input passthrough : Bool) : Except String (Bool × Option Schema) :=
  if types.contains .object then
    match Fields.get "additionalProperties" m with
    | none => pure (!input && (!has m "properties" || passthrough), none)
    | some (.bool b) => pure (b, none)
    | some (.obj fs) => do
      let s ← compile fs
      refuse (input && s.hasFiles) "dynamic additionalProperties cannot contain file"
      pure (true, some s)
    | some _ => .error "additionalProperties must be boolean or schema"
  else pure (false, none)

/-! ### Constraints -/

def compileBound (m : List (String × Raw)) (types : List JType) (k : String) : Except String (Option Number) :=
  match Fields.get k m with
  | none => pure none
  | some v => do
    refuse (!types.contains .number && !types.contains .integer) "numeric constraints require a numeric type"
    match v with
    | .leaf a => pure (some a.number)
    | _ => .error "numeric bound must be finite number"

def compileLength (m : List (String × Raw)) (types : List JType) (t : JType) (k : String) :
    Except String (Option Int64) :=
  match Fields.get k m with
  | none => pure none
  | some v => do
    refuse (!types.contains t) (k ++ " requires " ++ t.name ++ " type")
    match v with
    | .leaf (.int n) =>
      refuse (n < 0) (safe k ++ " must be an integer >= 0")
      pure (some n)
    | _ => .error (safe k ++ " must be an integer >= 0")

/-- The lower bound is above the upper one, or equal to it where one of them excludes its value. -/
def emptyRange (strict : Bool) (lo hi : Option Number) : Bool :=
  match lo, hi with
  | some a, some b => numberRat a > numberRat b || (strict && numberRat a = numberRat b)
  | _, _ => false

def exceeds (lo hi : Option Int64) : Bool :=
  match lo, hi with
  | some a, some b => a > b
  | _, _ => false

def compileRanges (m : List (String × Raw)) (r : Rules) : Except String Rules := do
  let minimum ← compileBound m r.types "minimum"
  let maximum ← compileBound m r.types "maximum"
  let exclusiveMinimum ← compileBound m r.types "exclusiveMinimum"
  let exclusiveMaximum ← compileBound m r.types "exclusiveMaximum"
  let minLength ← compileLength m r.types .string "minLength"
  let maxLength ← compileLength m r.types .string "maxLength"
  let minItems ← compileLength m r.types .array "minItems"
  let maxItems ← compileLength m r.types .array "maxItems"
  refuse (exceeds minLength maxLength || exceeds minItems maxItems) "minimum exceeds maximum"
  refuse (emptyRange false minimum maximum || emptyRange true minimum exclusiveMaximum ||
    emptyRange true exclusiveMinimum maximum || emptyRange true exclusiveMinimum exclusiveMaximum)
    "numeric bounds have no intersection"
  pure { r with minimum, maximum, exclusiveMinimum, exclusiveMaximum, minLength, maxLength, minItems, maxItems }

def Format.ofName (s : String) : Option Format :=
  ([("", .none), ("email", .email), ("uuid", .uuid), ("date", .date), ("date-time", .dateTime), ("uri", .uri)] :
    List (String × Format)).lookup s

def compilePatternKey (lib : Library) (m : List (String × Raw)) (types : List JType) :
    Except String (Option Pattern) :=
  if has m "pattern" then do
    refuse (!types.contains .string) "pattern requires string type"
    let s ← str "pattern" (Fields.get "pattern" m)
    let p ← compilePattern lib s
    pure (some p)
  else pure none

def compileFormat (m : List (String × Raw)) (types : List JType) : Except String (Option Format) :=
  if has m "format" then do
    refuse (!types.contains .string) "format requires string type"
    let s ← str "format" (Fields.get "format" m)
    match Format.ofName s with
    | some f => pure (some f)
    | none => .error "unsupported format"
  else pure none

def compileTexts (lib : Library) (m : List (String × Raw)) (r : Rules) : Except String Rules := do
  let pattern ← compilePatternKey lib m r.types
  let format ← compileFormat m r.types
  pure { r with pattern, format }

/-! ### Declared values -/

/-- The value that a schema keeps of a declared one. -/
def settle (lib : Library) (defaults : Bool) (s : Schema) (v : Raw) : Except String Value :=
  match validate lib { defaults } s "" (plain v) with
  | .failed e => .error (e.pointer ++ ": " ++ e.reason)
  | .ok w _ => .ok w

/-- The members of an enum as they are kept; no two print alike. -/
def compileMembers (lib : Library) (s : Schema) (seen : List (List Char)) : List Raw → Except String (List Value)
  | [] => .ok []
  | v :: vs => do
    let w ← (settle lib false s v).mapError ("enum does not satisfy schema: " ++ ·)
    match canonicalJSON w with
    | none => .error "unsupported canonical value"
    | some text =>
      refuse (seen.contains text) "enum values must be unique"
      let ws ← compileMembers lib s (text :: seen) vs
      pure (w :: ws)

def compileEnum (lib : Library) (m : List (String × Raw)) (s : Schema) : Except String (Option (List Value)) :=
  match Fields.get "enum" m with
  | none => pure none
  | some (.arr (v :: vs)) => do
    let ws ← compileMembers lib s [] (v :: vs)
    pure (some (ws.insertionSort fun a b => (canonicalJSON a).getD [] ≤ (canonicalJSON b).getD []))
  | some _ => .error "enum must be a nonempty list"

def compileConst (lib : Library) (m : List (String × Raw)) (s : Schema) : Except String (Option Value) :=
  match Fields.get "const" m with
  | none => pure none
  | some v => (settle lib false s v).map some

def compileDefault (lib : Library) (m : List (String × Raw)) (input : Bool) (s : Schema) :
    Except String (Option Value) :=
  match (if input then Fields.get "default" m else none) with
  | none => pure none
  | some v => do
    refuse s.hasFiles "default cannot synthesize request-owned files"
    let w ← (settle lib true s v).mapError ("default does not satisfy schema: " ++ ·)
    pure (some w)

/-- The declared values of a node, each checked against what is compiled before it. -/
def compileValues (lib : Library) (m : List (String × Raw)) (input : Bool) (r : Rules) (ps : List (String × Schema))
    (items additional : Option Schema) : Except String Schema := do
  refuse (r.types = [] && (has m "enum" || has m "const")) "constraints without structure require an explicit type"
  let enum ← compileEnum lib m (.mk r ps items additional)
  let const ← compileConst lib m (.mk { r with enum } ps items additional)
  let default ← compileDefault lib m input (.mk { r with enum, const } ps items additional)
  pure (.mk { r with enum, const, default } ps items additional)

/-! ### A schema -/

def schemaKeys : List String :=
  ["type", "description", "properties", "items", "required", "additionalProperties", "enum", "const", "minimum",
    "maximum", "exclusiveMinimum", "exclusiveMaximum", "minLength", "maxLength", "pattern", "format", "minItems",
    "maxItems"]

def allowedKeys (m : List (String × Raw)) (input : Bool) : List String :=
  if Fields.get "type" m = some (.str "file") then
    ["type", "description", "extensions", "max_bytes", "mime_types", "allow_empty"]
  else schemaKeys ++ [if input then "default" else "nullable"]

def compileDescription (m : List (String × Raw)) : Except String (Option String) :=
  if has m "description" then (str "description" (Fields.get "description" m)).map some else pure none

def compileItems (compile : List (String × Raw) → Except String Schema) (m : List (String × Raw)) :
    Except String (Option Schema) :=
  if has m "items" then do
    let fs ← object "items" (Fields.get "items" m)
    let s ← compile fs
    pure (some s)
  else pure none

/-- A node that is not a file; `compile` compiles the schemas below it. -/
def compileNode (lib : Library) (compile : List (String × Raw) → Except String Schema) (m : List (String × Raw))
    (input root passthrough : Bool) (description : Option String) (declared : List JType) :
      Except String Schema := do
  let types ← rootTypes m root declared
  let types ← inferTypes m types
  let (nullable, types) ← compileNullable m input types
  let types := sortTypes types
  let ps ← compilePropertyMap compile m
  let items ← compileItems compile m
  refuse ((has m "required" || has m "additionalProperties") && !types.contains .object)
    "object constraints require object type"
  let required ← compileRequired m types (ps.map Prod.fst)
  let (additionalAllowed, additional) ← compileAdditional compile m types input passthrough
  let r : Rules :=
    { description, types, nullable, required, additionalAllowed
      propertiesSet := has m "properties"
      output := !input }
  let r ← compileRanges m r
  let r ← compileTexts lib m r
  compileValues lib m input r ps items additional

/-- `compileSchema` with `fuel` levels of nesting left. -/
def compileSchemaAt (lib : Library) (input : Bool) (passthrough : Bool) :
    ℕ → Bool → List (String × Raw) → Except String Schema
  | 0, _, _ => .error "schema nesting exceeds limit"
  | fuel + 1, root, m => do
    known m (allowedKeys m input)
    let description ← compileDescription m
    let types ← compileTypes m
    if types.contains .file then do
      refuse (!input || types.length ≠ 1 || root) "file is an input leaf type only"
      let f ← compileFile m
      pure (.mk { description, types, nullable := !input, output := !input, file := some f } [] none none)
    else
      compileNode lib (compileSchemaAt lib input passthrough fuel false) m input root passthrough description types

/-- `compileSchema` at depth 0; the nesting limit is 128. -/
def compileSchema (lib : Library) (m : RawMap) (input root passthrough : Bool) : Except String Schema :=
  compileSchemaAt lib input passthrough 129 root m.fields

/-! ### File limits -/

def resolveFile (max : Int64) : Option FileConstraints → Except String (Option FileConstraints)
  | none => .ok none
  | some f =>
    if max ≤ 0 then .error "file policy is missing"
    else if f.maxBytes = 0 then .ok (some { f with maxBytes := max })
    else if f.maxBytes > max then .error "file max_bytes exceeds policy"
    else .ok (some f)

mutual
/-- Apply the policy's limit on one file to every file position. -/
def resolveFileLimits (max : Int64) : Schema → Except String Schema
  | .mk r ps i a => do
    let file ← resolveFile max r.file
    let ps ← resolveProperties max ps
    let i ← resolveItems max i
    pure (.mk { r with file } ps i a)
def resolveProperties (max : Int64) : List (String × Schema) → Except String (List (String × Schema))
  | [] => .ok []
  | (k, s) :: ps => do
    let s ← resolveFileLimits max s
    let ps ← resolveProperties max ps
    pure ((k, s) :: ps)
def resolveItems (max : Int64) : Option Schema → Except String (Option Schema)
  | none => .ok none
  | some s => do
    let s ← resolveFileLimits max s
    pure (some s)
end

/-- An input schema: compiled, with or without the limits of a policy. -/
def InputSchema (lib : Library) (s : Schema) : Prop :=
  ∃ m t, compileSchema lib m true true false = .ok t ∧ (s = t ∨ ∃ max, resolveFileLimits max t = .ok s)

end Onprest.Contract
