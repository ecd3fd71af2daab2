import Mathlib.Algebra.Group.Nat.Defs
import Onprest.Lib.Ranking
import Onprest.Lib.Replace
import Onprest.Lib.Utf8

/-! Redaction of diagnostics: the secrets and SQL texts a redactor has captured, the encodings it records for a
secret, and what it leaves of a detail. Texts are byte strings. -/

namespace Onprest.Agent
open Lib

namespace Redaction

abbrev Text := List UInt8

def ascii (s : String) : Text := encodeUtf8 s.toList

/-! ### Encodings of the standard library -/

/-- The parts of a URL a text is escaped for. -/
inductive Mode
  | pathSegment | userPassword | queryComponent
  deriving DecidableEq, Repr

/-- `url.shouldEscape`. -/
def shouldEscape (c : UInt8) (mode : Mode) : Bool :=
  if 'a'.toUInt8 ≤ c && c ≤ 'z'.toUInt8 || 'A'.toUInt8 ≤ c && c ≤ 'Z'.toUInt8 || '0'.toUInt8 ≤ c &&
    c ≤ '9'.toUInt8 then
    false
  else if (ascii "-_.~").contains c then false
  else if (ascii "$&+,/:;=?@").contains c then
    match mode with
    | .pathSegment => (ascii "/;,?").contains c
    | .userPassword => (ascii "@/?:").contains c
    | .queryComponent => true
  else true

/-- The hexadecimal digit of the last four bits of `n`. -/
def hexDigit (digits : String) (n : ℕ) : UInt8 := (ascii digits).getD (n % 16) 0

def upperhex : ℕ → UInt8 := hexDigit "0123456789ABCDEF"

def lowerhex : ℕ → UInt8 := hexDigit "0123456789abcdef"

def escapeByte (mode : Mode) (c : UInt8) : Text :=
  if c = ' '.toUInt8 ∧ mode = .queryComponent then ['+'.toUInt8]
  else if shouldEscape c mode then ['%'.toUInt8, upperhex (c.toNat / 16), upperhex c.toNat]
  else [c]

/-- `url.escape`; `QueryEscape` and `PathEscape` are its cases for a query component and a path segment. -/
def escape (mode : Mode) (s : Text) : Text := s.flatMap (escapeByte mode)

/-- `Userinfo.String` of `url.UserPassword`. -/
def userPasswordString (username password : Text) : Text :=
  if username ≠ [] ∨ password ≠ [] then
    escape .userPassword username ++ ':'.toUInt8 :: escape .userPassword password
  else []

/-- `strings.TrimPrefix` of a colon. -/
def trimColon : Text → Text
  | [] => []
  | c :: s => if c = ':'.toUInt8 then s else c :: s

/-- The last `n` hexadecimal digits of a number. -/
def lowerhexDigits (n r : ℕ) : Text := (List.range n).reverse.map fun i => lowerhex (r / 16 ^ i)

/-- `strconv.appendEscapedRune` for double quotes; `isPrint` is `strconv.IsPrint`. -/
def escapedRune (isPrint : Char → Bool) (r : Char) : Text :=
  if r = '"' ∨ r = '\\' then ['\\'.toUInt8, r.toUInt8]
  else if isPrint r then String.utf8EncodeChar r
  else
    match r with
    | '\x07' => ascii "\\a"
    | '\x08' => ascii "\\b"
    | '\x0c' => ascii "\\f"
    | '\n' => ascii "\\n"
    | '\r' => ascii "\\r"
    | '\t' => ascii "\\t"
    | '\x0b' => ascii "\\v"
    | _ =>
      if r < ' ' ∨ r = '\x7f' then ascii "\\x" ++ lowerhexDigits 2 r.toNat
      else if r.toNat < 0x10000 then ascii "\\u" ++ lowerhexDigits 4 r.toNat
      else ascii "\\U" ++ lowerhexDigits 8 r.toNat

/-- A rune of a text as `strconv.Quote` writes it; a byte that starts none is written in hexadecimal. -/
def quoteRune (isPrint : Char → Bool) : Char ⊕ UInt8 → Text
  | .inl r => escapedRune isPrint r
  | .inr b => ascii "\\x" ++ lowerhexDigits 2 b.toNat

/-- `strconv.Quote`. -/
def quote (isPrint : Char → Bool) (s : Text) : Text :=
  '"'.toUInt8 :: ((decodeRunes s).flatMap (quoteRune isPrint) ++ ['"'.toUInt8])

/-- The texts `secret` records for a value. -/
def encodings (isPrint : Char → Bool) (value : Text) : List Text :=
  [value, (quote isPrint value).tail.dropLast, escape .queryComponent value, escape .pathSegment value,
    trimColon (userPasswordString [] value)]

/-- `strings.ReplaceAll`; an empty `old` matches before every rune and at the end. -/
def stringsReplaceAll (s old new : Text) : Text :=
  if old = [] then new ++ (decodeRunes s).flatMap (fun r => runeBytes r ++ new) else replaceAll old new s

/-! ### The redactor -/

def sqlMarker : Text := ascii "[SQL REDACTED]"

def secretMarker : Text := ascii "[REDACTED]"

/-- `configurationRedactor`. -/
structure Redactor where
  secrets : List Text := []
  sql : List Text := []
  seen : List Text := []

/-- The comparison of `secret`: the longer text comes first. -/
def longer (a b : Text) : Bool := b.length < a.length

/-- One round of the loop of `secret`. -/
def Redactor.add (r : Redactor) (encoded : Text) : Redactor :=
  if encoded ∈ r.seen then r else { r with seen := encoded :: r.seen, secrets := r.secrets ++ [encoded] }

section Captures
variable (isPrint : Char → Bool) (sorting : Sorting Text)

def Redactor.secret (r : Redactor) (value : Text) : Redactor :=
  if value = [] ∨ value ∈ r.seen then r
  else
    let r := (encodings isPrint value).foldl Redactor.add r
    { r with secrets := sorting.sort longer r.secrets }

/-- What is captured: the `sql` setting of a capability, such a setting with the placeholders of a driver, or a
secret. -/
inductive Captured
  | setting (sql : Text) | converted (sql : Text) | secret (value : Text)
  deriving DecidableEq, Repr

/-- One capture of `newConfigurationRedactor` or `capture`. -/
def Redactor.capture (r : Redactor) : Captured → Redactor
  | .setting sql => if sql = [] then r else { r with sql := r.sql ++ [sql] }
  | .converted sql => { r with sql := r.sql ++ [sql] }
  | .secret value => r.secret isPrint sorting value

/-- The redactor after captures in the given order. -/
def captureAll (cs : List Captured) : Redactor := cs.foldl (Redactor.capture isPrint sorting) {}

end Captures

def Redactor.redact (r : Redactor) (detail : Text) : Text :=
  let detail := r.sql.foldl (fun detail query => stringsReplaceAll detail query sqlMarker) detail
  r.secrets.foldl (fun detail secret => stringsReplaceAll detail secret secretMarker) detail

/-! ### Captured texts -/

def sqlTexts (cs : List Captured) : List Text :=
  cs.filterMap fun
    | .setting sql => if sql = [] then none else some sql
    | .converted sql => some sql
    | .secret _ => none

def secretValues (cs : List Captured) : List Text :=
  cs.filterMap fun
    | .secret value => if value = [] then none else some value
    | _ => none

/-- The texts no detail may show: every captured SQL text and every encoding of a captured secret. -/
def texts (isPrint : Char → Bool) (cs : List Captured) : List Text :=
  sqlTexts cs ++ (secretValues cs).flatMap (encodings isPrint)

/-! ### Encodings and markers -/

def markers : List Text := [sqlMarker, secretMarker]

/-- A text that cannot overlap a marker. -/
structure Clear (t : Text) : Prop where
  bracket : '['.toUInt8 ∉ t
  first : ∃ a t', t = a :: t' ∧ ∀ m ∈ markers, a ∉ m

theorem markers_distinct : Markers markers '['.toUInt8 where
  head := by
    simp only [markers, List.forall_mem_cons]
    exact ⟨⟨_, rfl⟩, ⟨_, rfl⟩, by simp⟩
  free := by decide

theorem marker_ne_nil {m : Text} (hm : m ∈ markers) : m ≠ [] := by
  obtain ⟨m', rfl⟩ := markers_distinct.head m hm
  exact List.cons_ne_nil _ m'

theorem Clear.apart {t m : Text} (h : Clear t) (hm : m ∈ markers) : Apart m t where
  first := by
    obtain ⟨a, t', ht, ha⟩ := h.first
    exact ⟨a, t', ht, ha m hm⟩
  bound := fun b m' hb => by
    obtain ⟨n, hn⟩ := markers_distinct.head m hm
    rw [hn, List.cons.injEq] at hb
    exact hb.1 ▸ h.bracket

theorem clear_of_disjoint {t : Text} (ht : t ≠ []) (h : ∀ m ∈ markers, List.Disjoint m t) : Clear t := by
  refine ⟨h sqlMarker List.mem_cons_self (by decide), ?_⟩
  obtain ⟨a, t', rfl⟩ := List.exists_cons_of_ne_nil ht
  exact ⟨a, t', rfl, fun m hm ha => h m hm ha List.mem_cons_self⟩

theorem hexDigit_ne {digits : String} (h : '['.toUInt8 ∉ ascii digits) (n : ℕ) :
    '['.toUInt8 ≠ hexDigit digits n := by
  rw [hexDigit, List.getD_eq_getElem?_getD]
  cases hdigit : (ascii digits)[n % 16]? with
  | none => decide
  | some d =>
    rintro rfl
    exact h (List.mem_of_getElem? hdigit)

theorem upperhex_ne (n : ℕ) : '['.toUInt8 ≠ upperhex n := hexDigit_ne (by decide) n

theorem not_mem_lowerhexDigits (n r : ℕ) : '['.toUInt8 ∉ lowerhexDigits n r := by
  intro hmem
  obtain ⟨i, -, heq⟩ := List.mem_map.mp hmem
  exact hexDigit_ne (by decide) _ heq.symm

theorem not_mem_escapeByte (mode : Mode) {c : UInt8} (hc : '['.toUInt8 ≠ c) : '['.toUInt8 ∉ escapeByte mode c := by
  unfold escapeByte
  split
  · decide
  · split
    · have hpercent : '['.toUInt8 ≠ '%'.toUInt8 := by decide
      simp [hpercent, upperhex_ne]
    · simpa using hc

/-- The first byte of an escaped byte is the byte itself or starts an escape. -/
theorem escapeByte_head (mode : Mode) (c : UInt8) :
    ∃ a t, escapeByte mode c = a :: t ∧ (a = c ∨ a = '+'.toUInt8 ∨ a = '%'.toUInt8) := by
  unfold escapeByte
  split
  · exact ⟨_, _, rfl, .inr (.inl rfl)⟩
  · split
    · exact ⟨_, _, rfl, .inr (.inr rfl)⟩
    · exact ⟨_, _, rfl, .inl rfl⟩

theorem clear_escape (mode : Mode) {s : Text} (h : Clear s) : Clear (escape mode s) where
  bracket := by
    intro hmem
    obtain ⟨c, hc, hmem⟩ := List.mem_flatMap.mp hmem
    exact not_mem_escapeByte mode (fun heq => h.bracket (heq ▸ hc)) hmem
  first := by
    obtain ⟨c, s', rfl, hc⟩ := h.first
    obtain ⟨a, t, hescape, ha⟩ := escapeByte_head mode c
    refine ⟨a, t ++ escape mode s', by rw [escape, List.flatMap_cons, hescape]; rfl, ?_⟩
    rcases ha with rfl | rfl | rfl
    · exact hc
    · decide
    · decide

theorem not_mem_escapedRune {isPrint : Char → Bool} {r : Char} (hr : '['.toUInt8 ∉ String.utf8EncodeChar r) :
    '['.toUInt8 ∉ escapedRune isPrint r := by
  have hx : '['.toUInt8 ∉ ascii "\\x" := by decide
  have hu : '['.toUInt8 ∉ ascii "\\u" := by decide
  have hU : '['.toUInt8 ∉ ascii "\\U" := by decide
  unfold escapedRune
  split
  · rename_i hquote
    rcases hquote with rfl | rfl
    · decide
    · decide
  · split
    · exact hr
    · split
      case h_8 =>
        split
        · simp [not_mem_lowerhexDigits, hx]
        · split
          · simp [not_mem_lowerhexDigits, hu]
          · simp [not_mem_lowerhexDigits, hU]
      all_goals decide

theorem escapedRune_head (isPrint : Char → Bool) (r : Char) :
    escapedRune isPrint r = String.utf8EncodeChar r ∨ ∃ t, escapedRune isPrint r = '\\'.toUInt8 :: t := by
  unfold escapedRune
  split
  · exact .inr ⟨_, rfl⟩
  · split
    · exact .inl rfl
    · right
      split
      case h_8 =>
        split
        · exact ⟨_, rfl⟩
        · split
          · exact ⟨_, rfl⟩
          · exact ⟨_, rfl⟩
      all_goals exact ⟨_, rfl⟩

theorem not_mem_quoteRune {isPrint : Char → Bool} {r : Char ⊕ UInt8} (hr : '['.toUInt8 ∉ runeBytes r) :
    '['.toUInt8 ∉ quoteRune isPrint r := by
  have hx : '['.toUInt8 ∉ ascii "\\x" := by decide
  cases r with
  | inl r => exact not_mem_escapedRune hr
  | inr b => simp [quoteRune, hx, not_mem_lowerhexDigits]

theorem quoteRune_head (isPrint : Char → Bool) (r : Char ⊕ UInt8) :
    quoteRune isPrint r = runeBytes r ∨ ∃ t, quoteRune isPrint r = '\\'.toUInt8 :: t := by
  cases r with
  | inl r => exact escapedRune_head isPrint r
  | inr b => exact .inr ⟨_, rfl⟩

theorem clear_quoteRunes {isPrint : Char → Bool} {s : Text} (h : Clear s) :
    Clear ((decodeRunes s).flatMap (quoteRune isPrint)) where
  bracket := by
    intro hmem
    obtain ⟨r, hr, hmem⟩ := List.mem_flatMap.mp hmem
    refine not_mem_quoteRune (fun hbyte => h.bracket ?_) hmem
    rw [← flatMap_decodeRunes s]
    exact List.mem_flatMap.mpr ⟨r, hr, hbyte⟩
  first := by
    obtain ⟨c, s', hs, hc⟩ := h.first
    have hbackslash : ∀ m ∈ markers, '\\'.toUInt8 ∉ m := by decide
    have hbytes := flatMap_decodeRunes s
    cases hrunes : decodeRunes s with
    | nil =>
      rw [hrunes, hs] at hbytes
      cases hbytes
    | cons r rs =>
      obtain ⟨a, t, ht⟩ := List.exists_cons_of_ne_nil (runeBytes_ne_nil r)
      rw [hrunes, List.flatMap_cons, ht, hs, List.cons_append, List.cons.injEq] at hbytes
      rw [List.flatMap_cons]
      rcases quoteRune_head isPrint r with heq | ⟨t, heq⟩
      · rw [heq, ht]
        exact ⟨a, _, rfl, hbytes.1 ▸ hc⟩
      · rw [heq]
        exact ⟨_, _, rfl, hbackslash⟩

/-- Every text recorded for a secret is clear of the markers if the secret is. -/
theorem clear_encodings {isPrint : Char → Bool} {value : Text} (h : Clear value) :
    ∀ t ∈ encodings isPrint value, Clear t := by
  have hquote : (quote isPrint value).tail.dropLast = (decodeRunes value).flatMap (quoteRune isPrint) := by
    rw [quote, List.tail_cons, List.dropLast_concat]
  have hvalue : value ≠ [] := by
    obtain ⟨a, t, rfl, -⟩ := h.first
    exact List.cons_ne_nil a t
  have huser : trimColon (userPasswordString [] value) = escape .userPassword value := by
    rw [userPasswordString, if_pos (.inr hvalue)]
    rfl
  rw [encodings, hquote, huser]
  simp only [List.forall_mem_cons]
  exact ⟨h, clear_quoteRunes h, clear_escape _ h, clear_escape _ h, clear_escape _ h, by simp⟩

end Redaction
end Onprest.Agent
