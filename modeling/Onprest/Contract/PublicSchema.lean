import Onprest.Lib.JsonSchema
import Onprest.Contract.Validate

/-! The JSON Schema published for a compiled schema. -/

namespace Onprest.Contract
open Lib

/-- The patterns of published schemas: the trees of compiled patterns, printed as ECMA expressions, and the fixed
expression of a file digest, `^[0-9a-f]{64}(?![\s\S])`. -/
inductive PublicPattern
  | tree (node : PatternNode)
  | digest

abbrev PublicSchema := JSchema Leaf PublicPattern

/-- What a published schema means, given the matcher of its expressions. -/
def vocabulary (ecma : PatternNode → String → Bool) : Vocabulary Leaf PublicPattern where
  value := Leaf.data
  isMatch
    | .tree node, s => ecma node s
    | .digest, s => validDigest s

/-- A schema of keywords only. -/
def keywordSchema (k : Keywords Leaf PublicPattern) : PublicSchema := .mk k none none none [] none

/-! ### Keywords -/

/-- The published name of a type; a file position is published as an object of its own. -/
def JType.typeName : JType → Option TypeName
  | .array => some .array
  | .boolean => some .boolean
  | .file => none
  | .integer => some .integer
  | .null => some .null
  | .number => some .number
  | .object => some .object
  | .string => some .string

/-- The text of a format; that of `none` is empty. -/
def Format.text : Format → String
  | .none => ""
  | .email => "email"
  | .uuid => "uuid"
  | .date => "date"
  | .dateTime => "date-time"
  | .uri => "uri"

/-- A bound, or the given number where the bound is looser or missing. -/
def tighten (looser : ℚ → ℚ → Prop) [DecidableRel looser] (c : Int64) (bound : Option Leaf) : Option Leaf :=
  match bound with
  | some (.num n) => if looser (numberRat n) c.toInt then some (.num (.int64 c)) else some (.num n)
  | _ => some (.num (.int64 c))

/-- The lower bound raised to the given number. -/
def raiseMinimum (lo : Int64) (minimum : Option Leaf) : Option Leaf := tighten (· < ·) lo minimum

/-- The upper bound lowered to the given number. -/
def lowerMaximum (hi : Int64) (maximum : Option Leaf) : Option Leaf := tighten (· > ·) hi maximum

/-- Only integers fit the types. -/
def Rules.integerOnly (r : Rules) : Bool := r.types.contains .integer && !r.types.contains .number

/-- The required properties; one with a default may be left out of an input. -/
def publicRequired (r : Rules) (ps : List (String × Schema)) (input : Bool) : List String :=
  r.required.filter fun k => !input || !(Fields.get k ps).any (·.rules.default.isSome)

def publicAnnotations (r : Rules) (input : Bool) : List (String × Value) :=
  (r.description.toList.map fun d => ("description", .str d)) ++
    ((r.format.filter (· ≠ .none)).toList.map fun f => ("format", .str f.text)) ++
    if input then r.default.toList.map fun d => ("default", d) else []

/-- The keywords of a node that hold no schema. -/
def publicKeywords (r : Rules) (ps : List (String × Schema)) (input : Bool) : Keywords Leaf PublicPattern :=
  let minimum := r.minimum.map Leaf.num
  let maximum := r.maximum.map Leaf.num
  { type := r.types.filterMap JType.typeName
    enum := r.enum
    const := r.const
    minimum := if r.integerOnly then raiseMinimum Int64.minValue minimum else minimum
    maximum := if r.integerOnly then lowerMaximum Int64.maxValue maximum else maximum
    exclusiveMinimum := r.exclusiveMinimum.map Leaf.num
    exclusiveMaximum := r.exclusiveMaximum.map Leaf.num
    minLength := r.minLength.map Int64.toInt
    maxLength := r.maxLength.map Int64.toInt
    minItems := r.minItems.map Int64.toInt
    maxItems := r.maxItems.map Int64.toInt
    pattern := r.pattern.map fun p => .tree p.ast
    required := if r.types.contains .object then some (publicRequired r ps input) else none
    annotations := publicAnnotations r input }

/-! ### Files -/

def intValue (n : Int64) : Value := .num (.int64 n)

/-- `fileAnnotations`. -/
def fileAnnotations (f : FileConstraints) : Value :=
  .obj [("allow_empty", .bool f.allowEmpty), ("extensions", .arr (f.extensions.map .str)),
    ("max_bytes", intValue f.maxBytes), ("mime_types", .arr (f.mimeTypes.map .str))]

def inlineDescription : String :=
  "Inline file; extensions and MIME restrictions both apply. " ++
    "max_bytes limits decoded bytes, not Base64 string length."

/-- `inlineFileSchema`. -/
def inlineFileSchema (r : Rules) (f : FileConstraints) : PublicSchema :=
  let description := match r.description with
    | none => inlineDescription
    | some d => if d = "" then inlineDescription else d ++ " " ++ inlineDescription
  .mk { type := [.object], required := some ["name", "mime_type", "data"],
        annotations := [("x-onprest-file", fileAnnotations f), ("description", .str description)] }
    (some [
      ("name", keywordSchema { type := [.string], minLength := some 1, maxLength := some 255, annotations :=
        [("description", .str "UTF-8 display basename, 1–255 bytes; no path separators or control characters.")] }),
      ("mime_type", keywordSchema { type := [.string], minLength := some 1, annotations :=
        [("description", .str "Lowercase MIME type without parameters.")] }),
      ("data", keywordSchema { type := [.string], annotations := [("contentEncoding", .str "base64"), ("description",
        .str "Canonical RFC 4648 padded Base64. Decoded size and file constraints are checked by the server.")] })])
    none (some (.bool false)) [] none

/-! ### Schemas -/

def nullSchema : PublicSchema := keywordSchema { type := [.null] }

/-- Nothing is published for the node. -/
def Rules.unpublished (r : Rules) (i : Option Schema) : Bool :=
  r.types.isEmpty && !r.propertiesSet && i.isNone && r.enum.isNone && r.const.isNone && r.minimum.isNone &&
    r.maximum.isNone && r.exclusiveMinimum.isNone && r.exclusiveMaximum.isNone && r.minLength.isNone &&
    r.maxLength.isNone && r.minItems.isNone && r.maxItems.isNone && r.pattern.isNone && r.description.isNone &&
    (r.format.filter (· ≠ .none)).isNone

mutual
/-- `publicSchema` of a compiled schema. -/
def publicSchema (input nonNull : Bool) : Schema → PublicSchema
  | .mk r ps i a =>
    match r.file with
    | some f => inlineFileSchema r f
    | none =>
      let k := publicKeywords r ps input
      let properties := if r.propertiesSet then some (publicProperties input ps) else none
      let items := publicItems input i
      let additional :=
        if r.types.contains .object then some (publicAdditional input r.additionalAllowed a) else none
      let out := .mk k properties items additional [] none
      if input || nonNull then out
      else if r.nullable then
        -- value constraints must not apply to null
        if r.unpublished i then out else .mk {} none none none [nullSchema, out] none
      else if r.types.isEmpty then .mk k properties items additional [] (some nullSchema)
      else out
def publicProperties (input : Bool) : List (String × Schema) → List (String × PublicSchema)
  | [] => []
  | (k, s) :: ps => (k, publicSchema input false s) :: publicProperties input ps
def publicItems (input : Bool) : Option Schema → Option PublicSchema
  | none => none
  | some s => some (publicSchema input false s)
/-- `additionalProperties`: the schema of other members, or whether there may be any. -/
def publicAdditional (input : Bool) (allowed : Bool) : Option Schema → PublicSchema
  | none => .bool allowed
  | some s => publicSchema input false s
end

end Onprest.Contract
