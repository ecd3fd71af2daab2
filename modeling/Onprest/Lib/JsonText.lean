import Onprest.Lib.Json
import Onprest.Lib.NumberText

/-! The text of a JSON tree of number texts. Scanning takes a printed number off the front of a text again. -/

namespace Onprest.Lib

/-! ### Numbers -/

def digitChar (d : Fin 10) : Char := Char.ofNat (48 + d.val)

def digitOf (c : Char) : Option (Fin 10) :=
  if h : 48 ≤ c.toNat ∧ c.toNat < 58 then some ⟨c.toNat - 48, by omega⟩ else none

@[simp] theorem digitOf_digitChar (d : Fin 10) : digitOf (digitChar d) = some d := by
  revert d
  decide

/-- The digits at the front of a text. -/
def takeDigits : List Char → List (Fin 10) × List Char
  | [] => ([], [])
  | c :: cs =>
    match digitOf c with
    | some d => ((takeDigits cs).map (d :: ·) id)
    | none => ([], c :: cs)

/-- The text does not go on with a digit. -/
def NoDigit (r : List Char) : Prop := ∀ c ∈ r.head?, digitOf c = none

variable {r r' : List Char} {c e : Char}

theorem takeDigits_append (ds : List (Fin 10)) (hr : NoDigit r) : takeDigits (ds.map digitChar ++ r) = (ds, r) := by
  induction ds with
  | nil =>
    cases r with
    | nil => rfl
    | cons c r =>
      have : digitOf c = none := hr c rfl
      simp [takeDigits, this]
  | cons d ds ih => simp [takeDigits, ih]

namespace Exponent

def signText (e : Exponent) : List Char :=
  match e.sign with
  | none => []
  | some false => ['+']
  | some true => ['-']

def text (e : Exponent) : List Char := (if e.upper then 'E' else 'e') :: (e.signText ++ e.digits.map digitChar)

/-- The sign at the front of an exponent. -/
def takeSign : List Char → Option Bool × List Char
  | [] => (none, [])
  | c :: cs => if c = '+' then (some false, cs) else if c = '-' then (some true, cs) else (none, c :: cs)

def scanDigits (upper : Bool) (cs : List Char) : Option (Option Exponent × List Char) :=
  let (sign, cs) := takeSign cs
  let (ds, cs) := takeDigits cs
  if h : ds ≠ [] then some (some ⟨upper, sign, ds, h⟩, cs) else none

/-- An exponent at the front of a text, if there is one. -/
def scan : List Char → Option (Option Exponent × List Char)
  | [] => some (none, [])
  | c :: cs =>
    if c = 'e' then scanDigits false cs else if c = 'E' then scanDigits true cs else some (none, c :: cs)

theorem takeSign_digits {ds : List (Fin 10)} (h : ds ≠ []) (r : List Char) :
    takeSign (ds.map digitChar ++ r) = (none, ds.map digitChar ++ r) := by
  cases ds with
  | nil => exact absurd rfl h
  | cons d ds =>
    have : ∀ d : Fin 10, digitChar d ≠ '+' ∧ digitChar d ≠ '-' := by decide
    obtain ⟨hp, hm⟩ := this d
    simp only [List.map_cons, List.cons_append, takeSign, hp, hm, if_false]

variable {r : List Char}

theorem scanDigits_text (e : Exponent) (hr : NoDigit r) :
    scanDigits e.upper (e.signText ++ e.digits.map digitChar ++ r) = some (some e, r) := by
  obtain ⟨upper, sign, ds, hne⟩ := e
  have htake : takeSign (signText ⟨upper, sign, ds, hne⟩ ++ ds.map digitChar ++ r) =
      (sign, ds.map digitChar ++ r) := by
    cases sign with
    | none => exact takeSign_digits hne r
    | some b => cases b <;> rfl
  simp only [scanDigits, htake, takeDigits_append ds hr]
  rw [dif_pos hne]

theorem scan_text (e : Exponent) (hr : NoDigit r) : scan (e.text ++ r) = some (some e, r) := by
  have h := scanDigits_text e hr
  simp only [text, List.cons_append]
  cases hu : e.upper <;> rw [hu] at h <;> exact h

end Exponent

namespace NumberText

def fractionText (t : NumberText) : List Char := if t.fraction = [] then [] else '.' :: t.fraction.map digitChar

def exponentText (t : NumberText) : List Char := (t.exponent.map Exponent.text).getD []

def text (t : NumberText) : List Char :=
  (if t.negative then ['-'] else []) ++ t.whole.map digitChar ++ t.fractionText ++ t.exponentText

/-- A minus sign at the front of a text. -/
def takeMinus : List Char → Bool × List Char
  | [] => (false, [])
  | c :: cs => if c = '-' then (true, cs) else (false, c :: cs)

/-- A fraction at the front of a text. -/
def takeFraction : List Char → List (Fin 10) × List Char
  | [] => ([], [])
  | c :: cs => if c = '.' then takeDigits cs else ([], c :: cs)

/-- A number at the front of a text. -/
def scan (cs : List Char) : Option (NumberText × List Char) :=
  let (negative, cs) := takeMinus cs
  let (whole, cs) := takeDigits cs
  let (fraction, cs) := takeFraction cs
  match Exponent.scan cs with
  | none => none
  | some (exponent, cs) => if h : whole ≠ [] then some (⟨negative, whole, fraction, exponent, h⟩, cs) else none

/-- What may follow a number: nothing that would continue it. -/
def Ends (r : List Char) : Prop := ∀ c ∈ r.head?, digitOf c = none ∧ c ≠ '.' ∧ c ≠ 'e' ∧ c ≠ 'E'

variable {r : List Char}

theorem Ends.noDigit (h : Ends r) : NoDigit r := fun c hc => (h c hc).1

theorem takeMinus_digits {ds : List (Fin 10)} (h : ds ≠ []) (r : List Char) :
    takeMinus (ds.map digitChar ++ r) = (false, ds.map digitChar ++ r) := by
  cases ds with
  | nil => exact absurd rfl h
  | cons d ds =>
    have : ∀ d : Fin 10, digitChar d ≠ '-' := by decide
    simp only [List.map_cons, List.cons_append, takeMinus, this d, if_false]

private theorem scan_exponentText (t : NumberText) (hr : Ends r) :
    Exponent.scan (t.exponentText ++ r) = some (t.exponent, r) := by
  unfold exponentText
  cases t.exponent with
  | some e => exact Exponent.scan_text e hr.noDigit
  | none =>
    cases r with
    | nil => rfl
    | cons c r =>
      obtain ⟨-, -, he, hE⟩ := hr c rfl
      simp only [Option.map_none, Option.getD_none, List.nil_append, Exponent.scan, he, hE, if_false]

private theorem exponentText_head (t : NumberText) (hr : Ends r) :
    ∀ c ∈ (t.exponentText ++ r).head?, digitOf c = none ∧ c ≠ '.' := by
  unfold exponentText
  cases t.exponent with
  | some e =>
    rintro c ⟨rfl⟩
    cases e.upper <;> decide
  | none => exact fun c hc => ⟨(hr c hc).1, (hr c hc).2.1⟩

private theorem takeFraction_text (t : NumberText) (hr : Ends r) :
    takeFraction (t.fractionText ++ (t.exponentText ++ r)) = (t.fraction, t.exponentText ++ r) := by
  have hhead := exponentText_head t hr
  unfold fractionText
  split
  · rename_i h
    rw [h, List.nil_append]
    generalize t.exponentText ++ r = l at hhead ⊢
    cases l with
    | nil => rfl
    | cons c l =>
      simp only [takeFraction, (hhead c rfl).2, if_false]
  · exact takeDigits_append t.fraction fun c hc => (hhead c hc).1

/-- Scanning a printed number gives it back. -/
theorem scan_text (t : NumberText) (hr : Ends r) : scan (t.text ++ r) = some (t, r) := by
  have hminus : takeMinus (t.text ++ r)
      = (t.negative, t.whole.map digitChar ++ (t.fractionText ++ (t.exponentText ++ r))) := by
    unfold text
    cases t.negative with
    | true => simp [takeMinus]
    | false =>
      have := takeMinus_digits t.ne (t.fractionText ++ (t.exponentText ++ r))
      simpa using this
  have hnodigit : NoDigit (t.fractionText ++ (t.exponentText ++ r)) := by
    unfold fractionText
    split
    · exact fun c hc => (exponentText_head t hr c hc).1
    · rintro c ⟨rfl⟩
      decide
  simp only [scan, hminus, takeDigits_append t.whole hnodigit, takeFraction_text t hr, scan_exponentText t hr]
  rw [dif_pos t.ne]

/-- The characters of a number. -/
theorem mem_text {t : NumberText} (h : c ∈ t.text) : c ∈ "-+.eE".toList ∨ ∃ d, c = digitChar d := by
  have hdigits {ds : List (Fin 10)} (hc : c ∈ ds.map digitChar) : ∃ d, c = digitChar d := by
    obtain ⟨d, -, rfl⟩ := List.mem_map.mp hc
    exact ⟨d, rfl⟩
  simp only [text, List.mem_append] at h
  rcases h with ((h | h) | h) | h
  · split at h
    · obtain rfl := List.mem_singleton.mp h
      exact .inl (by decide)
    · cases h
  · exact .inr (hdigits h)
  · unfold fractionText at h
    split at h
    · cases h
    · rcases List.mem_cons.mp h with rfl | h
      · exact .inl (by decide)
      · exact .inr (hdigits h)
  · unfold exponentText at h
    cases he : t.exponent with
    | none =>
      rw [he] at h
      cases h
    | some e =>
      rw [he] at h
      simp only [Option.map_some, Option.getD_some, Exponent.text, List.mem_cons, List.mem_append] at h
      rcases h with rfl | h | h
      · left
        split <;> decide
      · left
        unfold Exponent.signText at h
        split at h
        · cases h
        · obtain rfl := List.mem_singleton.mp h
          decide
        · obtain rfl := List.mem_singleton.mp h
          decide
      · exact .inr (hdigits h)

/-- The first character of a number. -/
theorem text_head (t : NumberText) : ∃ c cs, t.text = c :: cs ∧ (c = '-' ∨ ∃ d, c = digitChar d) := by
  unfold text
  cases t.negative with
  | true => exact ⟨_, _, rfl, .inl rfl⟩
  | false =>
    obtain ⟨d, ds, hd⟩ := List.exists_cons_of_ne_nil t.ne
    rw [hd]
    exact ⟨_, _, rfl, .inr ⟨d, rfl⟩⟩

end NumberText

/-! ### Strings -/

def hexChar (d : ℕ) : Char := if d < 10 then Char.ofNat (48 + d) else Char.ofNat (87 + d)

/-- Four hexadecimal digits. -/
def hex4 (n : ℕ) : List Char :=
  [hexChar (n / 4096 % 16), hexChar (n / 256 % 16), hexChar (n / 16 % 16), hexChar (n % 16)]

/-- The escapes with a letter of their own. -/
def shortEscapes : List (Char × Char) :=
  [('"', '"'), ('\\', '\\'), ('\n', 'n'), ('\r', 'r'), ('\t', 't'), ('\x08', 'b'), ('\x0c', 'f')]

/-- Characters written as `\uXXXX`; `html` adds the ones that are special in HTML. -/
def longEscape (html : Bool) (c : Char) : Bool :=
  c.toNat < 0x20 || c == '\u2028' || c == '\u2029' || (html && (c == '<' || c == '>' || c == '&'))

def escapeChar (html : Bool) (c : Char) : List Char :=
  match shortEscapes.lookup c with
  | some e => ['\\', e]
  | none => if longEscape html c then '\\' :: 'u' :: hex4 c.toNat else [c]

/-- A quoted string, as `encoding/json` writes it. -/
def quote (html : Bool) (s : String) : List Char := '"' :: s.toList.flatMap (escapeChar html) ++ ['"']

def unescapeShort (e : Char) : Option Char := (shortEscapes.find? (·.2 == e)).map (·.1)

theorem mem_of_lookup {l : List (Char × Char)} (h : l.lookup c = some e) : (c, e) ∈ l := by
  induction l with
  | nil => cases h
  | cons p l ih =>
    obtain ⟨a, b⟩ := p
    simp only [List.lookup_cons] at h
    split at h
    · rename_i hc
      cases h
      obtain rfl := beq_iff_eq.mp hc
      exact List.mem_cons_self
    · exact List.mem_cons_of_mem _ (ih h)

/-! ### Trees -/

namespace Json

mutual
/-- The text of a tree, without blanks. -/
def render (html : Bool) : Json NumberText → List Char
  | .null => "null".toList
  | .bool true => "true".toList
  | .bool false => "false".toList
  | .str s => quote html s
  | .leaf t => t.text
  | .arr xs => '[' :: ((renderItems html xs).drop 1 ++ [']'])
  | .obj fs => '{' :: ((renderFields html fs).drop 1 ++ ['}'])
/-- Every element with a comma in front. -/
def renderItems (html : Bool) : List (Json NumberText) → List Char
  | [] => []
  | x :: xs => ',' :: (render html x ++ renderItems html xs)
/-- Every member with a comma in front. -/
def renderFields (html : Bool) : List (String × Json NumberText) → List Char
  | [] => []
  | (k, x) :: fs => ',' :: (quote html k ++ ':' :: (render html x ++ renderFields html fs))
end

/-- What may follow a value: nothing, a comma or a closing bracket. -/
def Follows (r : List Char) : Prop := ∀ c ∈ r.head?, c = ',' ∨ c = ']' ∨ c = '}'

variable {r r' : List Char} {html : Bool} {v : Json NumberText}

theorem Follows.ends (h : Follows r) : NumberText.Ends r := by
  intro c hc
  rcases h c hc with rfl | rfl | rfl <;> decide

theorem follows_cons (h : c = ',' ∨ c = ']' ∨ c = '}') (r : List Char) : Follows (c :: r) := by
  rintro d ⟨rfl⟩
  exact h

end Json

end Onprest.Lib
