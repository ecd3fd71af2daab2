import Onprest.Lib.JsonParse

/-! What the inside of a JSON string stands for under RFC 8259, and that the text of a string is what its inside
stands for. -/

namespace Onprest.Lib

/-- The characters of the escapes with a letter. -/
def escapeChars : List (Char × Char) :=
  [('"', '"'), ('\\', '\\'), ('/', '/'), ('b', '\x08'), ('f', '\x0c'), ('n', '\n'), ('r', '\r'), ('t', '\t')]

/-- The inside of a string in pieces: a character, or the number of an escape with four digits. -/
inductive Spelled : List Char → List (Char ⊕ ℕ) → Prop
  | nil : Spelled [] []
  | plain {c : Char} {raw : List Char} {ts : List (Char ⊕ ℕ)} (hq : c ≠ '"') (hb : c ≠ '\\') (hc : 0x20 ≤ c.toNat)
      (h : Spelled raw ts) : Spelled (c :: raw) (.inl c :: ts)
  | short {e c : Char} {raw : List Char} {ts : List (Char ⊕ ℕ)} (he : (e, c) ∈ escapeChars) (h : Spelled raw ts) :
      Spelled ('\\' :: e :: raw) (.inl c :: ts)
  | digits {a b c d : Char} {n : ℕ} {raw : List Char} {ts : List (Char ⊕ ℕ)} (hn : hexValue a b c d = some n)
      (h : Spelled raw ts) : Spelled ('\\' :: 'u' :: a :: b :: c :: d :: raw) (.inr n :: ts)

/-- The characters that the pieces stand for. A high and a low surrogate stand for one character; a surrogate of its
own stands for none. -/
inductive Scalars : List (Char ⊕ ℕ) → List Char → Prop
  | nil : Scalars [] []
  | char (c : Char) {ts : List (Char ⊕ ℕ)} {cs : List Char} (h : Scalars ts cs) : Scalars (.inl c :: ts) (c :: cs)
  | number (c : Char) {ts : List (Char ⊕ ℕ)} {cs : List Char} (h : Scalars ts cs) :
      Scalars (.inr c.toNat :: ts) (c :: cs)
  | pair {c : Char} {n m : ℕ} {ts : List (Char ⊕ ℕ)} {cs : List Char} (hn : isHigh n = true) (hm : isLow m = true)
      (hc : c.toNat = 0x10000 + (n - 0xd800) * 0x400 + (m - 0xdc00)) (h : Scalars ts cs) :
      Scalars (.inr n :: .inr m :: ts) (c :: cs)

/-- The inside of a string stands for a sequence of characters. -/
def Denotes (raw cs : List Char) : Prop := ∃ ts, Spelled raw ts ∧ Scalars ts cs

/-- Among the pieces is a high surrogate without a low one behind it, or a low one without a high one before it. -/
def Unpaired (ts : List (Char ⊕ ℕ)) : Prop :=
  ∃ before n after, ts = before ++ .inr n :: after ∧
    (isHigh n = true ∧ (∀ m, after.head? = some (.inr m) → isLow m = false) ∨
      isLow n = true ∧ ∀ m, before.getLast? = some (.inr m) → isHigh m = false)

/-- The inside of a string has an escape of a surrogate that is not one of a pair. -/
def LoneSurrogate (raw : List Char) : Prop := ∃ ts, Spelled raw ts ∧ Unpaired ts

theorem isHigh_toNat (c : Char) : isHigh c.toNat = false := by
  have h : c.toNat < 0xd800 ∨ 0xdfff < c.toNat ∧ c.toNat < 0x110000 := c.valid
  simp only [isHigh, Bool.and_eq_false_iff, decide_eq_false_iff_not]
  omega

theorem isLow_toNat (c : Char) : isLow c.toNat = false := by
  have h : c.toNat < 0xd800 ∨ 0xdfff < c.toNat ∧ c.toNat < 0x110000 := c.valid
  simp only [isLow, Bool.and_eq_false_iff, decide_eq_false_iff_not]
  omega

variable {n : ℕ} {c : Char} {ts : List (Char ⊕ ℕ)} {cs raw : List Char}

theorem not_isLow_of_isHigh (h : isHigh n = true) : isLow n = false := by
  simp only [isHigh, isLow, Bool.and_eq_true, Bool.and_eq_false_iff, decide_eq_true_eq,
    decide_eq_false_iff_not] at h ⊢
  omega

theorem exists_toNat (h : n.isValidChar) : ∃ c : Char, c.toNat = n :=
  ⟨Char.ofNatAux n h, rfl⟩

/-- The number of an escape with four digits is a character or a surrogate. -/
theorem exists_char (hlt : n < 0x10000) (hhigh : isHigh n = false) (hlow : isLow n = false) :
    ∃ c : Char, c.toNat = n := by
  simp only [isHigh, isLow, Bool.and_eq_false_iff, decide_eq_false_iff_not] at hhigh hlow
  refine exists_toNat ?_
  simp only [Nat.isValidChar]
  omega

/-- A pair of surrogates is a character. -/
theorem exists_pair {m : ℕ} (hn : isHigh n = true) (hm : isLow m = true) :
    ∃ c : Char, c.toNat = 0x10000 + (n - 0xd800) * 0x400 + (m - 0xdc00) := by
  simp only [isHigh, isLow, Bool.and_eq_true, decide_eq_true_eq] at hn hm
  refine exists_toNat ?_
  simp only [Nat.isValidChar]
  omega

theorem hexDigit_lt (h : hexDigit c = some n) : n < 16 := by
  simp only [hexDigit] at h
  split_ifs at h <;> cases h <;> omega

theorem hexValue_lt {a b d : Char} (h : hexValue a b c d = some n) : n < 0x10000 := by
  unfold hexValue at h
  split at h
  · rename_i ha hb hc hd
    have := hexDigit_lt ha
    have := hexDigit_lt hb
    have := hexDigit_lt hc
    have := hexDigit_lt hd
    cases h
    omega
  · cases h

/-- Pieces that stand for characters have no surrogate of its own. -/
theorem Scalars.not_unpaired (h : Scalars ts cs) : ¬ Unpaired ts := by
  -- what is wrong in the pieces behind the front is wrong in them alone
  have hskip (t : Char ⊕ ℕ) (ht : ∀ n, t = .inr n → isHigh n = false ∧ isLow n = false) {ts : List (Char ⊕ ℕ)}
      (h : Unpaired (t :: ts)) : Unpaired ts := by
    obtain ⟨before, n, after, heq, hlone⟩ := h
    cases before with
    | nil =>
      obtain ⟨rfl, rfl⟩ := List.cons.inj heq
      simp [ht n rfl] at hlone
    | cons u before =>
      obtain ⟨rfl, rfl⟩ := List.cons.inj heq
      refine ⟨before, n, after, rfl, hlone.imp id fun hlow => ⟨hlow.1, fun m hm => hlow.2 m ?_⟩⟩
      rw [List.getLast?_cons, hm]
      rfl
  induction h with
  | nil =>
    rintro ⟨before, n, after, heq, -⟩
    simp at heq
  | char c _ ih => exact fun h => ih (hskip (.inl c) nofun h)
  | number c _ ih =>
    refine fun h => ih (hskip (.inr c.toNat) ?_ h)
    rintro _ ⟨⟩
    exact ⟨isHigh_toNat c, isLow_toNat c⟩
  | @pair c n m ts cs hn hm hc _ ih =>
    rintro ⟨before, k, after, heq, hlone⟩
    rcases before with _ | ⟨u, _ | ⟨v, before⟩⟩
    · obtain ⟨hk, rfl⟩ := List.cons.inj heq
      cases hk
      have := hlone.resolve_right fun h => by simp [not_isLow_of_isHigh hn] at h
      exact absurd (this.2 m rfl) (by simp [hm])
    · obtain ⟨rfl, hk⟩ := List.cons.inj heq
      obtain ⟨hk, rfl⟩ := List.cons.inj hk
      cases hk
      rcases hlone with ⟨hhigh, -⟩ | ⟨-, hlow⟩
      · simp [not_isLow_of_isHigh hhigh] at hm
      · exact absurd (hlow n rfl) (by simp [hn])
    · obtain ⟨rfl, hk⟩ := List.cons.inj heq
      obtain ⟨rfl, rfl⟩ := List.cons.inj hk
      refine ih ⟨before, k, after, rfl, hlone.imp id fun hlow => ⟨hlow.1, fun j hj => hlow.2 j ?_⟩⟩
      rw [List.getLast?_cons, List.getLast?_cons, hj]
      rfl

/-- The pieces of a string are determined. -/
theorem Spelled.unique {us : List (Char ⊕ ℕ)} (h : Spelled raw ts) (h' : Spelled raw us) : ts = us := by
  have hletter : ∀ e c c', (e, c) ∈ escapeChars → (e, c') ∈ escapeChars → c = c' := by
    intro e c c' h h'
    have hall : ∀ p ∈ escapeChars, ∀ q ∈ escapeChars, p.1 = q.1 → p.2 = q.2 := by decide
    exact hall _ h _ h' rfl
  have hu : ∀ c, ('u', c) ∉ escapeChars := by simp [escapeChars]
  induction h generalizing us with
  | nil =>
    cases h'
    rfl
  | plain _ hb _ _ ih =>
    cases h' with
    | plain _ _ _ h' => rw [ih h']
    | short | digits => exact absurd rfl hb
  | short he _ ih =>
    cases h' with
    | plain _ hb => exact absurd rfl hb
    | short he' h' => rw [ih h', hletter _ _ _ he he']
    | digits => exact absurd he (hu _)
  | digits hn _ ih =>
    cases h' with
    | plain _ hb => exact absurd rfl hb
    | short he' => exact absurd he' (hu _)
    | digits hn' h' => rw [ih h', Option.some.inj (hn.symm.trans hn')]

theorem Denotes.not_loneSurrogate (h : Denotes raw cs) : ¬ LoneSurrogate raw := by
  rintro ⟨ts, hts, hlone⟩
  obtain ⟨us, hus, hcs⟩ := h
  exact hcs.not_unpaired (hus.unique hts ▸ hlone)

/-- The text of a string is what its inside stands for. -/
theorem Denotes.unescape_eq (h : Denotes raw cs) : unescape raw = cs := by
  obtain ⟨ts, hspelled, h⟩ := h
  have hletter : ∀ p ∈ escapeChars, p.1 ≠ 'u' ∧ shortChar p.1 = p.2 := by decide
  unfold unescape
  induction h generalizing raw with
  | nil =>
    cases hspelled
    rfl
  | char c _ ih =>
    cases hspelled with
    | plain _ hb _ h => rw [unescapeFrom_plain hb, ih h]
    | short he h => rw [unescapeFrom_short (hletter _ he).1, ih h, (hletter _ he).2]
  | number c _ ih =>
    cases hspelled with
    | digits hn h =>
      rw [unescapeFrom, hn, Option.getD_some, isHigh_toNat, isLow_toNat, ih h, Char.ofNat_toNat]
      rfl
  | @pair c n m _ _ hn hm hc _ ih =>
    cases hspelled with
    | digits hn' h =>
      cases h with
      | digits hm' h =>
        have hchar : Char.ofNat ((n - 0xd800) * 0x400 + (m - 0xdc00) + 0x10000) = c := by
          rw [Nat.add_comm, ← Nat.add_assoc, ← hc, Char.ofNat_toNat]
        rw [unescapeFrom, hn', Option.getD_some, if_pos hn, unescapeFrom, hm', Option.getD_some,
          if_pos hm, hchar, ih h]

/-! ### The inside of a string that the grammar takes -/

/-- The front of a text that starts inside of a string. -/
theorem takeBody_cases {cs raw r : List Char} (h : takeBody cs = some (raw, r)) :
    (cs = '"' :: r ∧ raw = []) ∨
      (∃ a b c d n cs' raw', hexValue a b c d = some n ∧ cs = '\\' :: 'u' :: a :: b :: c :: d :: cs' ∧
        raw = '\\' :: 'u' :: a :: b :: c :: d :: raw' ∧ takeBody cs' = some (raw', r)) ∨
      (∃ e c cs' raw', (e, c) ∈ escapeChars ∧ cs = '\\' :: e :: cs' ∧ raw = '\\' :: e :: raw' ∧
        takeBody cs' = some (raw', r)) ∨
      ∃ c cs' raw', c ≠ '"' ∧ c ≠ '\\' ∧ 0x20 ≤ c.toNat ∧ cs = c :: cs' ∧ raw = c :: raw' ∧
        takeBody cs' = some (raw', r) := by
  have hletter : ∀ e, isEscape e = true → ∃ c, (e, c) ∈ escapeChars := by
    intro e he
    have hall : ∀ e ∈ "\"\\/bfnrt".toList, (e, shortChar e) ∈ escapeChars := by simp; decide
    exact ⟨_, hall e (by simpa [isEscape] using he)⟩
  rw [takeBody.eq_def] at h
  split at h
  · cases h
  · cases h
    exact .inl ⟨rfl, rfl⟩
  · split at h
    · rename_i hsome
      obtain ⟨n, hn⟩ := Option.isSome_iff_exists.mp hsome
      obtain ⟨⟨raw', r'⟩, hbody, heq⟩ := Option.map_eq_some_iff.mp h
      cases heq
      exact .inr (.inl ⟨_, _, _, _, n, _, raw', hn, rfl, rfl, hbody⟩)
    · cases h
  · split at h
    · rename_i he
      obtain ⟨⟨raw', r'⟩, hbody, heq⟩ := Option.map_eq_some_iff.mp h
      obtain ⟨c, hc⟩ := hletter _ he
      cases heq
      exact .inr (.inr (.inl ⟨_, c, _, raw', hc, rfl, rfl, hbody⟩))
    · cases h
  · rename_i hq _ _
    split at h
    · cases h
    · rename_i hplain
      simp only [Bool.or_eq_true, decide_eq_true_eq, not_or, not_lt] at hplain
      obtain ⟨⟨raw', r'⟩, hbody, heq⟩ := Option.map_eq_some_iff.mp h
      cases heq
      exact .inr (.inr (.inr ⟨_, _, raw', hq, hplain.1, hplain.2, rfl, rfl, hbody⟩))

end Onprest.Lib
