import Onprest.Lib.JsonText

/-! The JSON grammar as a parser. A text is parsed to a tree that keeps strings and numbers as they are written; the
text that a tree is printed as is parsed to that tree, so different trees have different texts. -/

namespace Onprest.Lib

/-- A JSON text without its blanks. Strings are what stands between the quotes. -/
inductive Parsed
  | null
  | bool (b : Bool)
  | str (raw : List Char)
  | num (t : NumberText)
  | arr (xs : List Parsed)
  | obj (fs : List (List Char × Parsed))

namespace Parsed

/-- Induction over a parsed text: a property of all elements, or of all members, carries over. -/
@[elab_as_elim, induction_eliminator]
theorem induct {motive : Parsed → Prop} (null : motive .null) (bool : ∀ b, motive (.bool b))
    (str : ∀ raw, motive (.str raw)) (num : ∀ t, motive (.num t))
    (arr : ∀ xs, (∀ x ∈ xs, motive x) → motive (.arr xs))
    (obj : ∀ fs, (∀ f ∈ fs, motive f.2) → motive (.obj fs)) (v : Parsed) : motive v := by
  refine @Parsed.rec motive (fun xs => ∀ x ∈ xs, motive x) (fun fs => ∀ f ∈ fs, motive f.2) (fun f => motive f.2)
    null bool str num arr obj ?_ ?_ ?_ ?_ ?_ v
  · exact nofun
  · intro x xs hx hxs
    exact List.forall_mem_cons.mpr ⟨hx, hxs⟩
  · exact nofun
  · intro f fs hf hfs
    exact List.forall_mem_cons.mpr ⟨hf, hfs⟩
  · intro raw v hv
    exact hv

end Parsed

/-! ### Strings -/

/-- The value of a hexadecimal digit. -/
def hexDigit (c : Char) : Option ℕ :=
  let n := c.toNat
  if 48 ≤ n ∧ n ≤ 57 then some (n - 48)
  else if 97 ≤ n ∧ n ≤ 102 then some (n - 87)
  else if 65 ≤ n ∧ n ≤ 70 then some (n - 55)
  else none

/-- The value of four hexadecimal digits. -/
def hexValue (a b c d : Char) : Option ℕ :=
  match hexDigit a, hexDigit b, hexDigit c, hexDigit d with
  | some a, some b, some c, some d => some (a * 4096 + b * 256 + c * 16 + d)
  | _, _, _, _ => none

/-- The letters of the short escapes. -/
def isEscape (c : Char) : Bool := "\"\\/bfnrt".toList.contains c

/-- The inside of a string, up to the closing quote. -/
def takeBody : List Char → Option (List Char × List Char)
  | [] => none
  | '"' :: r => some ([], r)
  | '\\' :: 'u' :: a :: b :: c :: d :: r =>
    if (hexValue a b c d).isSome then (takeBody r).map fun p =>
    ('\\' :: 'u' :: a :: b :: c :: d :: p.1, p.2) else none
  | '\\' :: e :: r => if isEscape e then (takeBody r).map fun p => ('\\' :: e :: p.1, p.2) else none
  | c :: r => if c = '\\' || c.toNat < 0x20 then none else (takeBody r).map fun p => (c :: p.1, p.2)

def isHigh (n : ℕ) : Bool := 0xd800 ≤ n && n ≤ 0xdbff

def isLow (n : ℕ) : Bool := 0xdc00 ≤ n && n ≤ 0xdfff

/-- The character of an escape with a letter. -/
def shortChar (e : Char) : Char := if e = '/' then '/' else (unescapeShort e).getD e

/-- A high surrogate that nothing follows becomes the replacement character. -/
def flush : Option ℕ → List Char
  | none => []
  | some _ => ['�']

/-- The text of the rest of a string after a high surrogate, if there was one. -/
def unescapeFrom (high : Option ℕ) : List Char → List Char
  | [] => flush high
  | '\\' :: 'u' :: a :: b :: c :: d :: r =>
    let n := (hexValue a b c d).getD 0
    match high with
    | some h =>
      if isLow n then Char.ofNat ((h - 0xd800) * 0x400 + (n - 0xdc00) + 0x10000) :: unescapeFrom none r
      else if isHigh n then '�' :: unescapeFrom (some n) r
      else '�' :: Char.ofNat n :: unescapeFrom none r
    | none =>
      if isHigh n then unescapeFrom (some n) r
      else if isLow n then '�' :: unescapeFrom none r
      else Char.ofNat n :: unescapeFrom none r
  | '\\' :: e :: r => flush high ++ shortChar e :: unescapeFrom none r
  | c :: r => flush high ++ c :: unescapeFrom none r

/-- The text of a string; a lone surrogate becomes the replacement character. -/
def unescape (raw : List Char) : List Char := unescapeFrom none raw

/-! ### Values -/

def isBlank (c : Char) : Bool := c == ' ' || c == '\t' || c == '\n' || c == '\r'

def skipBlanks (cs : List Char) : List Char := cs.dropWhile isBlank

/-- No digit follows a zero at the front. -/
def NumberText.noLeadingZero (t : NumberText) : Bool := t.whole.length = 1 || t.whole.head? != some 0

/-- A number at the front of a text. -/
def takeNumber (cs : List Char) : Option (NumberText × List Char) :=
  match NumberText.scan cs with
  | none => none
  -- a point without digits is no part of a number
  | some (t, r) => if t.noLeadingZero && t.text ++ r == cs then some (t, r) else none

/-- The rest of a text that starts with `w`. -/
def takeWord (w cs : List Char) : Option (List Char) := if w.isPrefixOf cs then some (cs.drop w.length) else none

/-- A key and its colon. -/
def takeKey (cs : List Char) : Option (List Char × List Char) :=
  match skipBlanks cs with
  | '"' :: r =>
    match takeBody r with
    | none => none
    | some (raw, r) =>
      match skipBlanks r with
      | ':' :: r => some (raw, r)
      | _ => none
  | _ => none

mutual
/-- A value at the front of a text. The number is a bound on the values nested and in a row: a text has no more of
them than characters. -/
def parseValue : ℕ → List Char → Option (Parsed × List Char)
  | 0, _ => none
  | n + 1, cs =>
    match skipBlanks cs with
    | [] => none
    | c :: r =>
      if c = 'n' then (takeWord "ull".toList r).map (Parsed.null, ·)
      else if c = 't' then (takeWord "rue".toList r).map (Parsed.bool true, ·)
      else if c = 'f' then (takeWord "alse".toList r).map (Parsed.bool false, ·)
      else if c = '"' then (takeBody r).map fun p => (.str p.1, p.2)
      else if c = '[' then
        match skipBlanks r with
        | ']' :: r => some (.arr [], r)
        | r => (parseItems n r).map fun p => (.arr p.1, p.2)
      else if c = '{' then
        match skipBlanks r with
        | '}' :: r => some (.obj [], r)
        | r => (parseMembers n r).map fun p => (.obj p.1, p.2)
      else (takeNumber (c :: r)).map fun p => (.num p.1, p.2)
/-- The elements of an array, at least one. -/
def parseItems : ℕ → List Char → Option (List Parsed × List Char)
  | 0, _ => none
  | n + 1, cs =>
    match parseValue n cs with
    | none => none
    | some (x, r) =>
      match skipBlanks r with
      | ',' :: r => (parseItems n r).map fun p => (x :: p.1, p.2)
      | ']' :: r => some ([x], r)
      | _ => none
/-- The members of an object, at least one. -/
def parseMembers : ℕ → List Char → Option (List (List Char × Parsed) × List Char)
  | 0, _ => none
  | n + 1, cs =>
    match takeKey cs with
    | none => none
    | some (raw, r) =>
      match parseValue n r with
      | none => none
      | some (x, r) =>
        match skipBlanks r with
        | ',' :: r => (parseMembers n r).map fun p => ((raw, x) :: p.1, p.2)
        | '}' :: r => some ([(raw, x)], r)
        | _ => none
end

/-- A text that is one value. -/
def parseJson (cs : List Char) : Option Parsed :=
  match parseValue (cs.length + 1) cs with
  | some (v, r) => if skipBlanks r = [] then some v else none
  | none => none

/-! ### Printed strings -/

theorem hexDigit_hexChar {d : ℕ} (h : d < 16) : hexDigit (hexChar d) = some d := by
  have : ∀ d : Fin 16, hexDigit (hexChar d) = some d.val := by decide
  exact this ⟨d, h⟩

theorem hexValue_hex4 {n : ℕ} (h : n < 65536) :
    hexValue (hexChar (n / 4096 % 16)) (hexChar (n / 256 % 16)) (hexChar (n / 16 % 16))
      (hexChar (n % 16)) = some n := by
  rw [hexValue, hexDigit_hexChar (Nat.mod_lt _ (by norm_num)), hexDigit_hexChar (Nat.mod_lt _ (by norm_num)),
    hexDigit_hexChar (Nat.mod_lt _ (by norm_num)), hexDigit_hexChar (Nat.mod_lt _ (by norm_num))]
  simp only [Option.some.injEq]
  omega

/-- How a character is written: with a letter, with four digits or as it is. -/
theorem escapeChar_cases (html : Bool) (c : Char) :
    (∃ e, escapeChar html c = ['\\', e] ∧ e ≠ 'u' ∧ isEscape e = true ∧ shortChar e = c) ∨
      (escapeChar html c = '\\' :: 'u' :: hex4 c.toNat ∧ c.toNat < 0xd800) ∨
      escapeChar html c = [c] ∧ c ≠ '"' ∧ c ≠ '\\' ∧ 0x20 ≤ c.toNat := by
  unfold escapeChar
  cases h : shortEscapes.lookup c with
  | some e =>
    have hletter : ∀ p ∈ shortEscapes, p.2 ≠ 'u' ∧ isEscape p.2 = true ∧ shortChar p.2 = p.1 := by decide
    exact .inl ⟨e, rfl, hletter _ (mem_of_lookup h)⟩
  | none =>
    right
    dsimp only
    split
    · rename_i hlong
      refine .inl ⟨rfl, ?_⟩
      simp only [longEscape, Bool.or_eq_true, Bool.and_eq_true, beq_iff_eq, decide_eq_true_eq] at hlong
      rcases hlong with ((h | rfl) | rfl) | ⟨-, (rfl | rfl) | rfl⟩
      · omega
      all_goals decide
    · rename_i hshort
      refine .inr ⟨rfl, ?_, ?_, ?_⟩
      · rintro rfl
        cases h
      · rintro rfl
        cases h
      · simp only [longEscape, Bool.or_eq_true, decide_eq_true_eq, not_or] at hshort
        omega

variable {e : Char}

theorem takeBody_short (hu : e ≠ 'u') (he : isEscape e = true) (r : List Char) :
    takeBody ('\\' :: e :: r) = (takeBody r).map fun p => ('\\' :: e :: p.1, p.2) := by
  rw [takeBody.eq_def]
  split
  · rename_i heq
    cases heq
  · rename_i heq
    cases heq
  · rename_i heq
    exact absurd (List.cons.inj (List.cons.inj heq).2).1 hu
  · rename_i heq
    obtain ⟨rfl, rfl⟩ := List.cons.inj (List.cons.inj heq).2
    rw [if_pos he]
  · rename_i hno heq
    exact (hno e r (List.cons.inj heq).1.symm (List.cons.inj heq).2.symm).elim

theorem takeBody_plain {c : Char} (hq : c ≠ '"') (hb : c ≠ '\\') (hc : 0x20 ≤ c.toNat) (r : List Char) :
    takeBody (c :: r) = (takeBody r).map fun p => (c :: p.1, p.2) := by
  rw [takeBody.eq_def]
  split
  · rename_i heq
    cases heq
  · rename_i heq
    exact absurd (List.cons.inj heq).1 hq
  · rename_i heq
    exact absurd (List.cons.inj heq).1 hb
  · rename_i heq
    exact absurd (List.cons.inj heq).1 hb
  · rename_i heq
    obtain ⟨rfl, rfl⟩ := List.cons.inj heq
    rw [if_neg]
    simp only [Bool.or_eq_true, decide_eq_true_eq, not_or]
    exact ⟨hb, by omega⟩

/-- The inside of a printed string is taken as it is written. -/
theorem takeBody_escaped (html : Bool) (cs r : List Char) :
    takeBody (cs.flatMap (escapeChar html) ++ '"' :: r) = some (cs.flatMap (escapeChar html), r) := by
  induction cs with
  | nil => rfl
  | cons c cs ih =>
    rw [List.flatMap_cons, List.append_assoc]
    rcases escapeChar_cases html c with ⟨e, hc, hu, he, -⟩ | ⟨hc, hlt⟩ | ⟨hc, hq, hb, hlo⟩
    · rw [hc, List.cons_append, List.cons_append, List.nil_append, takeBody_short hu he, ih]
      rfl
    · rw [hc]
      simp only [hex4, List.cons_append, List.nil_append]
      rw [takeBody, hexValue_hex4 (by omega), ih]
      rfl
    · rw [hc, List.cons_append, List.nil_append, takeBody_plain hq hb hlo, ih]
      rfl

theorem unescapeFrom_short (hu : e ≠ 'u') (r : List Char) :
    unescapeFrom none ('\\' :: e :: r) = shortChar e :: unescapeFrom none r := by
  rw [unescapeFrom.eq_def]
  split
  · rename_i heq
    cases heq
  · rename_i heq
    exact absurd (List.cons.inj (List.cons.inj heq).2).1 hu
  · rename_i heq
    obtain ⟨rfl, rfl⟩ := List.cons.inj (List.cons.inj heq).2
    rfl
  · rename_i hno heq
    exact (hno e r (List.cons.inj heq).1.symm (List.cons.inj heq).2.symm).elim

theorem unescapeFrom_plain {c : Char} (hb : c ≠ '\\') (r : List Char) :
    unescapeFrom none (c :: r) = c :: unescapeFrom none r := by
  rw [unescapeFrom.eq_def]
  split
  · rename_i heq
    cases heq
  · rename_i heq
    exact absurd (List.cons.inj heq).1 hb
  · rename_i heq
    exact absurd (List.cons.inj heq).1 hb
  · rename_i heq
    obtain ⟨rfl, rfl⟩ := List.cons.inj heq
    rfl

/-- A printed string stands for the string. -/
theorem unescape_escaped (html : Bool) (cs : List Char) : unescape (cs.flatMap (escapeChar html)) = cs := by
  unfold unescape
  induction cs with
  | nil => rfl
  | cons c cs ih =>
    rw [List.flatMap_cons]
    rcases escapeChar_cases html c with ⟨e, hc, hu, -, hshort⟩ | ⟨hc, hlt⟩ | ⟨hc, -, hb, -⟩
    · rw [hc, List.cons_append, List.cons_append, List.nil_append, unescapeFrom_short hu, ih, hshort]
    · rw [hc]
      simp only [hex4, List.cons_append, List.nil_append]
      have hhigh : isHigh c.toNat = false := by simp [isHigh]; omega
      have hlow : isLow c.toNat = false := by simp [isLow]; omega
      rw [unescapeFrom, hexValue_hex4 (by omega), Option.getD_some, hhigh, hlow, ih, Char.ofNat_toNat]
      rfl
    · rw [hc, List.cons_append, List.nil_append, unescapeFrom_plain hb, ih]

/-! ### Texts without blanks -/

theorem takeNumber_text {t : NumberText} (h : t.noLeadingZero = true) {r : List Char} (hr : NumberText.Ends r) :
    takeNumber (t.text ++ r) = some (t, r) := by
  rw [takeNumber, t.scan_text hr]
  simp [h]

theorem takeWord_append (w r : List Char) : takeWord w (w ++ r) = some r := by
  rw [takeWord, if_pos (by simp), List.drop_left]

/-- The inside of a string as the grammar has it. -/
def Body (raw : List Char) : Prop := ∀ r, takeBody (raw ++ '"' :: r) = some (raw, r)

theorem body_escaped (html : Bool) (cs : List Char) : Body (cs.flatMap (escapeChar html)) :=
  fun r => takeBody_escaped html cs r

namespace Parsed

mutual
/-- The text without blanks. -/
def text : Parsed → List Char
  | .null => "null".toList
  | .bool true => "true".toList
  | .bool false => "false".toList
  | .str raw => '"' :: (raw ++ ['"'])
  | .num t => t.text
  | .arr xs => '[' :: ((textItems xs).drop 1 ++ [']'])
  | .obj fs => '{' :: ((textMembers fs).drop 1 ++ ['}'])
/-- Every element with a comma in front. -/
def textItems : List Parsed → List Char
  | [] => []
  | x :: xs => ',' :: (text x ++ textItems xs)
/-- Every member with a comma in front. -/
def textMembers : List (List Char × Parsed) → List Char
  | [] => []
  | (raw, x) :: fs => ',' :: '"' :: (raw ++ '"' :: ':' :: (text x ++ textMembers fs))
end

/-- A property of every string and key, and one of every number. -/
inductive All (S : List Char → Prop) (N : NumberText → Prop) : Parsed → Prop
  | null : All S N .null
  | bool (b : Bool) : All S N (.bool b)
  | str {raw : List Char} (h : S raw) : All S N (.str raw)
  | num {t : NumberText} (h : N t) : All S N (.num t)
  | arr {xs : List Parsed} (h : ∀ x ∈ xs, All S N x) : All S N (.arr xs)
  | obj {fs : List (List Char × Parsed)} (hk : ∀ f ∈ fs, S f.1) (h : ∀ f ∈ fs, All S N f.2) : All S N (.obj fs)

variable {p : Parsed}

theorem All.imp {S S' : List Char → Prop} {N N' : NumberText → Prop} (hS : ∀ raw, S raw → S' raw)
    (hN : ∀ t, N t → N' t) (h : p.All S N) : p.All S' N' := by
  induction p with
  | null => exact .null
  | bool b => exact .bool b
  | str raw =>
    cases h with
    | str h => exact .str (hS raw h)
  | num t =>
    cases h with
    | num h => exact .num (hN t h)
  | arr xs ih =>
    cases h with
    | arr h => exact .arr fun x hx => ih x hx (h x hx)
  | obj fs ih =>
    cases h with
    | obj hk h => exact .obj (fun f hf => hS _ (hk f hf)) fun f hf => ih f hf (h f hf)

/-- Strings and numbers are as the grammar has them. -/
def WellFormed (p : Parsed) : Prop := p.All Body fun t => t.noLeadingZero = true

/-- The first character of a value. -/
theorem text_head (p : Parsed) : ∃ c cs, text p = c :: cs ∧ isBlank c = false ∧ c ≠ ']' := by
  have hdigit : ∀ d : Fin 10, isBlank (digitChar d) = false ∧ digitChar d ≠ ']' := by decide
  cases p with
  | null => exact ⟨'n', "ull".toList, rfl, by decide⟩
  | bool b =>
    cases b with
    | true => exact ⟨'t', "rue".toList, rfl, by decide⟩
    | false => exact ⟨'f', "alse".toList, rfl, by decide⟩
  | str raw => exact ⟨'"', _, rfl, by decide⟩
  | arr xs => exact ⟨'[', _, rfl, by decide⟩
  | obj fs => exact ⟨'{', _, rfl, by decide⟩
  | num t =>
    obtain ⟨c, cs, hc, rfl | ⟨d, rfl⟩⟩ := t.text_head
    · exact ⟨'-', cs, hc, by decide⟩
    · exact ⟨digitChar d, cs, hc, hdigit d⟩

theorem skipBlanks_text (p : Parsed) (r : List Char) : skipBlanks (text p ++ r) = text p ++ r := by
  obtain ⟨c, cs, hc, hblank, -⟩ := text_head p
  rw [hc, List.cons_append, skipBlanks, List.dropWhile_cons_of_neg (by simp [hblank])]

/-- The value at the front of a text is parsed back. -/
def Parses (p : Parsed) : Prop :=
  ∀ (n : ℕ) (r : List Char), Json.Follows r → (text p).length ≤ n → parseValue n (text p ++ r) = some (p, r)

theorem parseItems_text {xs : List Parsed} (hne : xs ≠ []) (ih : ∀ x ∈ xs, Parses x) {n : ℕ}
    (hn : (textItems xs).length ≤ n) (r : List Char) :
    parseItems n ((textItems xs).drop 1 ++ ']' :: r) = some (xs, r) := by
  induction xs generalizing n with
  | nil => exact absurd rfl hne
  | cons x xs ihs =>
    rw [List.forall_mem_cons] at ih
    simp only [textItems, List.length_cons, List.length_append] at hn
    obtain ⟨m, rfl⟩ : ∃ m, n = m + 1 := ⟨n - 1, by omega⟩
    have hfollow : Json.Follows (textItems xs ++ ']' :: r) := by
      cases xs with
      | nil => exact Json.follows_cons (.inr (.inl rfl)) _
      | cons y ys => exact Json.follows_cons (.inl rfl) _
    have hx := ih.1 m _ hfollow (by omega)
    simp only [textItems, List.drop_succ_cons, List.drop_zero, List.append_assoc]
    rw [parseItems, hx]
    cases xs with
    | nil => rfl
    | cons y ys =>
      have hys := ihs (List.cons_ne_nil y ys) ih.2 (n := m) (by omega)
      simp only [textItems, List.drop_succ_cons, List.drop_zero] at hys
      simp only [textItems, List.cons_append]
      change (parseItems m _).map _ = _
      rw [hys]
      rfl

theorem takeKey_text {raw : List Char} (h : Body raw) (r : List Char) :
    takeKey ('"' :: (raw ++ '"' :: ':' :: r)) = some (raw, r) := by
  rw [takeKey]
  change (match takeBody _ with | none => _ | some (raw, r) => _) = _
  rw [h]
  rfl

theorem parseMembers_text {fs : List (List Char × Parsed)} (hne : fs ≠ []) (hk : ∀ f ∈ fs, Body f.1)
    (ih : ∀ f ∈ fs, Parses f.2) {n : ℕ} (hn : (textMembers fs).length ≤ n) (r : List Char) :
    parseMembers n ((textMembers fs).drop 1 ++ '}' :: r) = some (fs, r) := by
  induction fs generalizing n with
  | nil => exact absurd rfl hne
  | cons f fs ihs =>
    obtain ⟨raw, x⟩ := f
    rw [List.forall_mem_cons] at ih hk
    simp only [textMembers, List.length_cons, List.length_append] at hn
    obtain ⟨m, rfl⟩ : ∃ m, n = m + 1 := ⟨n - 1, by omega⟩
    have hfollow : Json.Follows (textMembers fs ++ '}' :: r) := by
      cases fs with
      | nil => exact Json.follows_cons (.inr (.inr rfl)) _
      | cons g gs => exact Json.follows_cons (.inl rfl) _
    have hx : parseValue m (text x ++ (textMembers fs ++ '}' :: r)) = some (x, textMembers fs ++ '}' :: r) :=
      ih.1 m _ hfollow (by dsimp only; omega)
    simp only [textMembers, List.drop_succ_cons, List.drop_zero, List.append_assoc, List.cons_append]
    rw [parseMembers, takeKey_text hk.1]
    dsimp only
    rw [hx]
    cases fs with
    | nil => rfl
    | cons g gs =>
      have hgs := ihs (List.cons_ne_nil g gs) hk.2 ih.2 (n := m) (by omega)
      obtain ⟨raw', y⟩ := g
      simp only [textMembers, List.drop_succ_cons, List.drop_zero] at hgs
      simp only [textMembers, List.cons_append] at hgs ⊢
      change (parseMembers m _).map _ = _
      rw [hgs]
      rfl

theorem parseValue_open {n : ℕ} {cs : List Char} (hblank : skipBlanks cs = cs) (hne : ∀ r, cs ≠ ']' :: r) :
    parseValue (n + 1) ('[' :: cs) = (parseItems n cs).map fun p => (.arr p.1, p.2) := by
  rw [parseValue]
  change (match skipBlanks cs with | ']' :: r => _ | r => _) = _
  rw [hblank]
  split
  · exact absurd rfl (hne _)
  · rfl

theorem parses_num {t : NumberText} (h : t.noLeadingZero = true) : Parses (.num t) := by
  intro n r hr hn
  obtain ⟨c, cs, hc, hhead⟩ := t.text_head
  obtain ⟨m, rfl⟩ : ∃ m, n = m + 1 := ⟨n - 1, by rw [text, hc] at hn; simp at hn; omega⟩
  have hnumber : takeNumber (t.text ++ r) = some (t, r) := takeNumber_text h hr.ends
  have hdigit : ∀ d : Fin 10, digitChar d ≠ 'n' ∧ digitChar d ≠ 't' ∧ digitChar d ≠ 'f' ∧ digitChar d ≠ '"' ∧
      digitChar d ≠ '[' ∧ digitChar d ≠ '{' := by decide
  obtain ⟨h₁, h₂, h₃, h₄, h₅, h₆⟩ : c ≠ 'n' ∧ c ≠ 't' ∧ c ≠ 'f' ∧ c ≠ '"' ∧ c ≠ '[' ∧ c ≠ '{' := by
    rcases hhead with rfl | ⟨d, rfl⟩
    · decide
    · exact hdigit d
  rw [parseValue, skipBlanks_text, text]
  rw [hc, List.cons_append] at hnumber ⊢
  dsimp only
  rw [if_neg h₁, if_neg h₂, if_neg h₃, if_neg h₄, if_neg h₅, if_neg h₆, hnumber]
  rfl

/-- Parsing a text without blanks gives back what it is the text of. -/
theorem parses (hp : p.WellFormed) : Parses p := by
  induction p with
  | null =>
    intro n r hr hn
    obtain ⟨m, rfl⟩ : ∃ m, n = m + 1 := ⟨n - 1, by simp [text] at hn; omega⟩
    rw [parseValue, skipBlanks_text]
    exact congrArg (Option.map _) (takeWord_append "ull".toList r)
  | bool b =>
    intro n r hr hn
    cases b with
    | true =>
      obtain ⟨m, rfl⟩ : ∃ m, n = m + 1 := ⟨n - 1, by simp [text] at hn; omega⟩
      rw [parseValue, skipBlanks_text]
      exact congrArg (Option.map _) (takeWord_append "rue".toList r)
    | false =>
      obtain ⟨m, rfl⟩ : ∃ m, n = m + 1 := ⟨n - 1, by simp [text] at hn; omega⟩
      rw [parseValue, skipBlanks_text]
      exact congrArg (Option.map _) (takeWord_append "alse".toList r)
  | str raw =>
    intro n r hr hn
    cases hp with
    | str hraw =>
      obtain ⟨m, rfl⟩ : ∃ m, n = m + 1 := ⟨n - 1, by simp [text] at hn; omega⟩
      have htext : text (.str raw) ++ r = '"' :: (raw ++ '"' :: r) := by simp [text]
      rw [parseValue, skipBlanks_text, htext]
      change (takeBody _).map _ = _
      rw [hraw]
      rfl
  | num t =>
    cases hp with
    | num ht => exact parses_num ht
  | arr xs ih =>
    intro n r hr hn
    cases hp with
    | arr hxs =>
      obtain ⟨m, rfl⟩ : ∃ m, n = m + 1 := ⟨n - 1, by simp [text] at hn; omega⟩
      cases xs with
      | nil => rfl
      | cons x xs =>
        have hitems := parseItems_text (List.cons_ne_nil x xs) (fun y hy => ih y hy (hxs y hy)) (n := m)
          (by simp [text, textItems] at hn ⊢; omega) r
        have htext : text (.arr (x :: xs)) ++ r = '[' :: (text x ++ (textItems xs ++ ']' :: r)) := by
          simp [text, textItems]
        have hne (r' : List Char) : text x ++ (textItems xs ++ ']' :: r) ≠ ']' :: r' := by
          obtain ⟨c, cs, hc, -, hclose⟩ := text_head x
          rw [hc]
          exact fun h => hclose (List.cons.inj h).1
        simp only [textItems, List.drop_succ_cons, List.drop_zero, List.append_assoc] at hitems
        rw [htext, parseValue_open (skipBlanks_text x _) hne, hitems]
        rfl
  | obj fs ih =>
    intro n r hr hn
    cases hp with
    | obj hk hfs =>
      obtain ⟨m, rfl⟩ : ∃ m, n = m + 1 := ⟨n - 1, by simp [text] at hn; omega⟩
      cases fs with
      | nil => rfl
      | cons f fs =>
        have hmembers := parseMembers_text (List.cons_ne_nil f fs) hk (fun g hg => ih g hg (hfs g hg)) (n := m)
          (by simp [text, textMembers] at hn ⊢; omega) r
        have htext : text (.obj (f :: fs)) ++ r = '{' :: ((textMembers (f :: fs)).drop 1 ++ '}' :: r) := by
          simp [text]
        rw [htext]
        exact congrArg (Option.map fun p => (Parsed.obj p.1, p.2)) hmembers

theorem parseJson_text (hp : p.WellFormed) : parseJson (text p) = some p := by
  have h := parses hp ((text p).length + 1) [] (by simp [Json.Follows]) (Nat.le_succ _)
  rw [List.append_nil] at h
  rw [parseJson, h]
  rfl

end Parsed

/-! ### Printed trees -/

namespace Json

mutual
/-- The tree as it is written. -/
def written (html : Bool) : Json NumberText → Parsed
  | .null => .null
  | .bool b => .bool b
  | .str s => .str (s.toList.flatMap (escapeChar html))
  | .leaf t => .num t
  | .arr xs => .arr (writtenItems html xs)
  | .obj fs => .obj (writtenFields html fs)
def writtenItems (html : Bool) : List (Json NumberText) → List Parsed
  | [] => []
  | x :: xs => written html x :: writtenItems html xs
def writtenFields (html : Bool) : List (String × Json NumberText) → List (List Char × Parsed)
  | [] => []
  | (k, x) :: fs => (k.toList.flatMap (escapeChar html), written html x) :: writtenFields html fs
end

theorem writtenItems_eq (html : Bool) (xs : List (Json NumberText)) :
    writtenItems html xs = xs.map (written html) := by
  induction xs with
  | nil => rfl
  | cons x xs ih => rw [writtenItems, ih, List.map_cons]

theorem writtenFields_eq (html : Bool) (fs : List (String × Json NumberText)) :
    writtenFields html fs = fs.map fun f => (f.1.toList.flatMap (escapeChar html), written html f.2) := by
  induction fs with
  | nil => rfl
  | cons f fs ih => rw [writtenFields, ih, List.map_cons]

theorem text_written (html : Bool) (v : Json NumberText) : (written html v).text = render html v := by
  induction v with
  | null => rfl
  | bool b => cases b <;> rfl
  | str s => simp [written, Parsed.text, render, quote]
  | leaf t => rfl
  | arr xs ih =>
    have hitems : Parsed.textItems (writtenItems html xs) = renderItems html xs := by
      induction xs with
      | nil => rfl
      | cons x xs ihs =>
        rw [List.forall_mem_cons] at ih
        rw [writtenItems, Parsed.textItems, renderItems, ih.1, ihs ih.2]
    rw [written, Parsed.text, render, hitems]
  | obj fs ih =>
    have hmembers : Parsed.textMembers (writtenFields html fs) = renderFields html fs := by
      induction fs with
      | nil => rfl
      | cons f fs ihs =>
        rw [List.forall_mem_cons] at ih
        rw [writtenFields, Parsed.textMembers, renderFields, ih.1, ihs ih.2, quote]
        simp
    rw [written, Parsed.text, render, hmembers]

/-- The number texts of the tree have no leading zeros. -/
def Tidy (v : Json NumberText) : Prop := ∀ t ∈ v.leaves, t.noLeadingZero = true

theorem all_written {S : List Char → Prop} {N : NumberText → Prop} (html : Bool)
    (hS : ∀ cs : List Char, S (cs.flatMap (escapeChar html))) {v : Json NumberText} (hN : ∀ t ∈ v.leaves, N t) :
    (written html v).All S N := by
  induction v with
  | null => exact .null
  | bool b => exact .bool b
  | str s => exact .str (hS s.toList)
  | leaf t => exact .num (hN t (by simp [leaves]))
  | arr xs ih =>
    rw [forall_leaves_arr] at hN
    rw [written, writtenItems_eq]
    exact .arr (List.forall_mem_map.mpr fun x hx => ih x hx (hN x hx))
  | obj fs ih =>
    rw [forall_leaves_obj] at hN
    rw [written, writtenFields_eq]
    exact .obj (List.forall_mem_map.mpr fun f _ => hS f.1.toList)
      (List.forall_mem_map.mpr fun f hf => ih f hf (hN f hf))

theorem eq_of_map_eq_map {α β : Type*} {g : α → β} {xs ys : List α} (hg : ∀ x ∈ xs, ∀ y, g x = g y → x = y)
    (h : xs.map g = ys.map g) : xs = ys := by
  induction xs generalizing ys with
  | nil => exact (List.map_eq_nil_iff.mp h.symm).symm
  | cons x xs ih =>
    obtain ⟨y, ys, rfl⟩ := List.exists_cons_of_ne_nil (show ys ≠ [] by rintro rfl; cases h)
    rw [List.forall_mem_cons] at hg
    obtain ⟨hy, hys⟩ := List.cons.inj h
    rw [hg.1 y hy, ih hg.2 hys]

/-- A tree can be told from how it is written. -/
theorem written_inj {html : Bool} {v w : Json NumberText} (h : written html v = written html w) : v = w := by
  have hescaped {s t : String}
      (h : s.toList.flatMap (escapeChar html) = t.toList.flatMap (escapeChar html)) : s = t := by
    have hback := congrArg unescape h
    rw [unescape_escaped, unescape_escaped] at hback
    exact String.toList_injective hback
  induction v generalizing w with
  | null => cases w <;> first | rfl | cases h
  | bool b | leaf t => cases w <;> cases h; rfl
  | str s =>
    cases w with
    | str t => rw [hescaped (Parsed.str.inj h)]
    | _ => cases h
  | arr xs ih =>
    cases w with
    | arr ys =>
      rw [written, written, writtenItems_eq, writtenItems_eq] at h
      rw [eq_of_map_eq_map (fun x hx y => ih x hx) (Parsed.arr.inj h)]
    | _ => cases h
  | obj fs ih =>
    cases w with
    | obj gs =>
      rw [written, written, writtenFields_eq, writtenFields_eq] at h
      rw [eq_of_map_eq_map (fun f hf g hfg => ?_) (Parsed.obj.inj h)]
      obtain ⟨hkey, hvalue⟩ := Prod.mk.inj hfg
      exact Prod.ext (hescaped hkey) (ih f hf hvalue)
    | _ => cases h

/-- Trees with one text are equal: the parser takes the text back to the tree as it is written. -/
theorem render_inj {html : Bool} {v w : Json NumberText} (hv : v.Tidy) (hw : w.Tidy)
    (h : render html v = render html w) : v = w := by
  have hparse {u : Json NumberText} (hu : u.Tidy) : parseJson (render html u) = some (written html u) := by
    rw [← text_written]
    exact Parsed.parseJson_text (all_written html (body_escaped html) hu)
  exact written_inj (Option.some.inj ((hparse hv).symm.trans (h ▸ hparse hw)))

end Json

end Onprest.Lib
