import Onprest.Lib.Utf8

/-! Where the characters of a byte string start, and what a text that was cut between bytes ends in. -/

namespace Onprest.Lib

/-- A byte that does not continue a character. -/
def runeStart (b : UInt8) : Bool := b &&& 0xC0 != 0x80

/-- The size of the character that a byte starts; 1 for a byte that starts none. -/
def runeSize (b : UInt8) : ℕ :=
  if b.toNat < 0xC2 then 1 else if b.toNat < 0xE0 then 2 else if b.toNat < 0xF0 then 3
    else if b.toNat < 0xF5 then 4 else 1

/-- What may stand behind a first byte. -/
def acceptRange (b : UInt8) : ℕ × ℕ :=
  if b.toNat = 0xE0 then (0xA0, 0xBF) else if b.toNat = 0xED then (0x80, 0x9F)
  else if b.toNat = 0xF0 then (0x90, 0xBF) else if b.toNat = 0xF4 then (0x80, 0x8F) else (0x80, 0xBF)

/-- Whether a byte string is more than the beginning of a character. -/
def fullRune : Bytes → Bool
  | [] => false
  | b :: bs =>
    runeSize b ≤ bs.length + 1 || bs[0]?.any (fun x => x.toNat < (acceptRange b).1 || (acceptRange b).2 < x.toNat) ||
      bs[1]?.any (fun x => x.toNat < 0x80 || 0xBF < x.toNat)

/-- The last position up to `n` where a character starts, or 0. -/
def lastStart (bs : Bytes) : ℕ → ℕ
  | 0 => 0
  | n + 1 => if bs[n + 1]?.any runeStart then n + 1 else lastStart bs n

/-! ### Characters -/

theorem runeStart_iff (b : UInt8) : runeStart b = true ↔ b.toNat < 0x80 ∨ 0xC0 ≤ b.toNat := by
  have h : ∀ n : Fin 256, runeStart (UInt8.ofNat n) = true ↔ n.val < 0x80 ∨ 0xC0 ≤ n.val := by decide +kernel
  simpa using h ⟨b.toNat, b.toNat_lt⟩

/-- The bytes of a character: only the first starts one, none behind it is ASCII, and no beginning of them is full.
-/
structure CharBytes (b : UInt8) (bs : Bytes) : Prop where
  length : bs.length ≤ 3
  start : runeStart b = true
  continues : ∀ x ∈ bs, runeStart x = false
  ascii : bs ≠ [] → 0x80 ≤ b.toNat
  full : ∀ t, t <+: bs → (fullRune (b :: t) = true ↔ t = bs)

theorem continues_of_mod (n : ℕ) : runeStart (UInt8.ofNat (n % 64 + 128)) = false := by
  rw [← Bool.not_eq_true, runeStart_iff, UInt8.toNat_ofNat']
  omega

variable {b : UInt8} {bs p x y : Bytes} {cs : List Char}

/-- A character whose bytes are in their ranges is full at its end only. -/
theorem fullRune_iff (hsize : runeSize b = bs.length + 1)
    (hfirst : ∀ x, bs[0]? = some x → (acceptRange b).1 ≤ x.toNat ∧ x.toNat ≤ (acceptRange b).2)
    (hsecond : ∀ x, bs[1]? = some x → 0x80 ≤ x.toNat ∧ x.toNat ≤ 0xBF) (t : Bytes) (ht : t <+: bs) :
    fullRune (b :: t) = true ↔ t = bs := by
  have hget (i : ℕ) (x : UInt8) (hx : t[i]? = some x) : bs[i]? = some x := by
    obtain ⟨r, rfl⟩ := ht
    rw [List.getElem?_append_left (List.getElem?_eq_some_iff.mp hx).1, hx]
  have hno {i : ℕ} {lo hi : ℕ} (hin : ∀ x, bs[i]? = some x → lo ≤ x.toNat ∧ x.toNat ≤ hi) :
      t[i]?.any (fun x => x.toNat < lo || hi < x.toNat) = false := by
    rcases hx : t[i]? with _ | x
    · rfl
    · have := hin x (hget i x hx)
      simp only [Option.any_some, Bool.or_eq_false_iff, decide_eq_false_iff_not]
      omega
  rw [fullRune, hno hfirst, hno hsecond, hsize]
  simp only [Bool.or_false, decide_eq_true_eq, Nat.add_le_add_iff_right]
  exact ⟨fun hlen => ht.eq_of_length (Nat.le_antisymm ht.length_le hlen), fun heq => heq ▸ Nat.le_refl _⟩

theorem encode_shape (c : Char) : ∃ b bs, String.utf8EncodeChar c = b :: bs ∧ CharBytes b bs := by
  have hvalid : c.val.toNat < 0xD800 ∨ 0xDFFF < c.val.toNat ∧ c.val.toNat < 0x110000 := c.valid
  unfold String.utf8EncodeChar
  generalize c.val.toNat = v at hvalid
  dsimp only
  split_ifs with h₁ h₂ h₃
  all_goals
    refine ⟨_, _, rfl, ⟨by simp, (runeStart_iff _).mpr ?_, ?_, ?_, fullRune_iff ?_ ?_ ?_⟩⟩
    all_goals simp only [runeSize, acceptRange, UInt8.toNat_ofNat', List.length_cons, List.length_nil,
      List.getElem?_cons_zero, List.getElem?_cons_succ, List.getElem?_nil, Option.some.injEq, forall_eq',
      reduceCtorEq, false_imp_iff, implies_true, ne_eq, not_true_eq_false, not_false_eq_true, forall_const,
      List.forall_mem_cons, List.not_mem_nil, continues_of_mod, and_self]
    all_goals first | omega | (split_ifs <;> omega)

/-! ### A text and the beginning of a character behind it -/

/-- What is there of a character that is not there in full. -/
def Partial (p : Bytes) : Prop := ∃ c t, t ≠ [] ∧ String.utf8EncodeChar c = p ++ t

theorem partial_nil : Partial [] := ⟨'a', _, @String.utf8EncodeChar_ne_nil 'a', rfl⟩

theorem Partial.shape (h : Partial p) (hne : p ≠ []) :
    ∃ b bs cs, p = b :: bs ∧ CharBytes b cs ∧ bs <+: cs ∧ bs ≠ cs := by
  obtain ⟨c, t, ht, hc⟩ := h
  obtain ⟨b, cs, hshape, hbytes⟩ := encode_shape c
  obtain ⟨x, bs, rfl⟩ := List.exists_cons_of_ne_nil hne
  rw [hshape, List.cons_append] at hc
  obtain ⟨rfl, rfl⟩ := List.cons.inj hc
  exact ⟨b, bs, bs ++ t, rfl, hbytes, List.prefix_append _ _, fun heq => ht (List.self_eq_append_right.mp heq)⟩

theorem CharBytes.not_newline (h : CharBytes b bs) (hne : bs ≠ []) : 10 ∉ b :: bs := by
  rw [List.mem_cons, not_or]
  refine ⟨?_, fun hmem => ?_⟩
  · rintro rfl
    exact absurd (h.ascii hne) (by decide)
  · exact absurd (h.continues _ hmem) (by decide)

theorem Partial.not_newline (h : Partial p) : 10 ∉ p := by
  rcases eq_or_ne p [] with rfl | hne
  · exact List.not_mem_nil
  · obtain ⟨b, bs, cs, rfl, hbytes, hbs, hlt⟩ := h.shape hne
    have hcs : cs ≠ [] := by
      rintro rfl
      exact hlt (List.prefix_nil.mp hbs)
    exact fun hmem => hbytes.not_newline hcs (((List.prefix_cons_inj b).mpr hbs).subset hmem)

/-- A text that is cut off is the text of some of its characters and the beginning of the next one. -/
theorem exists_partial (h : encodeUtf8 cs = x ++ y) :
    ∃ ds es p, cs = ds ++ es ∧ x = encodeUtf8 ds ++ p ∧ Partial p ∧ encodeUtf8 es = p ++ y := by
  induction cs generalizing x with
  | nil =>
    obtain ⟨rfl, rfl⟩ := List.append_eq_nil_iff.mp h.symm
    exact ⟨[], [], [], rfl, rfl, partial_nil, rfl⟩
  | cons c cs ih =>
    rw [encodeUtf8_cons] at h
    rcases List.append_eq_append_iff.mp h with ⟨t, rfl, ht⟩ | ⟨t, hc, rfl⟩
    · obtain ⟨ds, es, p, rfl, rfl, hp, hes⟩ := ih ht
      exact ⟨c :: ds, es, p, rfl, by simp, hp, hes⟩
    · rcases eq_or_ne t [] with rfl | ht
      · exact ⟨[c], cs, [], rfl, by simpa using hc.symm, partial_nil, rfl⟩
      · exact ⟨[], c :: cs, x, rfl, rfl, ⟨c, t, ht, hc⟩, by rw [encodeUtf8_cons, hc, List.append_assoc]⟩

theorem lastStart_eq {pre bs post : Bytes} {b : UInt8} (hstart : runeStart b = true)
    (hbs : ∀ x ∈ bs, runeStart x = false) {n : ℕ} (hle : pre.length ≤ n) (hn : n ≤ pre.length + bs.length) :
    lastStart (pre ++ (b :: bs ++ post)) n = pre.length := by
  induction n with
  | zero => exact (Nat.le_zero.mp hle).symm
  | succ n ih =>
    rw [lastStart]
    rcases Nat.lt_or_ge n pre.length with hlt | hge
    · obtain heq : pre.length = n + 1 := Nat.le_antisymm hle hlt
      rw [← heq, List.getElem?_append_right (Nat.le_refl _), Nat.sub_self]
      exact if_pos hstart
    · have hat : (pre ++ (b :: bs ++ post))[n + 1]? = bs[n - pre.length]? := by
        rw [List.getElem?_append_right (by omega), List.cons_append,
          show n + 1 - pre.length = (n - pre.length) + 1 by omega, List.getElem?_cons_succ,
          List.getElem?_append_left (by omega)]
      have hlt : n - pre.length < bs.length := by omega
      rw [hat, List.getElem?_eq_getElem hlt, if_neg (by simp [hbs _ (List.getElem_mem hlt)])]
      exact ih hge (by omega)

/-- The character that a position is in. -/
theorem exists_char_at (hp : Partial p) {n : ℕ} (hn : n < (encodeUtf8 cs ++ p).length) :
    ∃ ds es b bs post, cs = ds ++ es ∧ encodeUtf8 es ++ p = b :: bs ++ post ∧ runeStart b = true ∧
      (∀ x ∈ bs, runeStart x = false) ∧ bs.length ≤ 3 ∧ (encodeUtf8 ds).length ≤ n ∧
      n ≤ (encodeUtf8 ds).length + bs.length := by
  induction cs generalizing n with
  | nil =>
    rw [encodeUtf8_nil, List.nil_append] at hn
    obtain ⟨b, bs, cs, rfl, hbytes, hbs, -⟩ := hp.shape (List.ne_nil_of_length_pos (by omega))
    refine ⟨[], [], b, bs, [], rfl, by simp, hbytes.start, fun x hx => hbytes.continues x (hbs.subset hx),
      Nat.le_trans hbs.length_le hbytes.length, Nat.zero_le n, ?_⟩
    rw [List.length_cons] at hn
    rw [encodeUtf8_nil, List.length_nil]
    omega
  | cons c cs ih =>
    obtain ⟨b, bs, hc, hbytes⟩ := encode_shape c
    rcases Nat.lt_or_ge n (String.utf8EncodeChar c).length with hlt | hge
    · refine ⟨[], c :: cs, b, bs, encodeUtf8 cs ++ p, rfl, by rw [encodeUtf8_cons, hc, List.append_assoc],
        hbytes.start, hbytes.continues, hbytes.length, Nat.zero_le n, ?_⟩
      rw [hc, List.length_cons] at hlt
      rw [encodeUtf8_nil, List.length_nil]
      omega
    · rw [encodeUtf8_cons, List.append_assoc, List.length_append] at hn
      obtain ⟨ds, es, b, bs, post, rfl, heq, hstart, hbs, hlen, hle, hn⟩ :=
        @ih (n - (String.utf8EncodeChar c).length) (by omega)
      refine ⟨c :: ds, es, b, bs, post, rfl, heq, hstart, hbs, hlen, ?_, ?_⟩
      all_goals
        rw [encodeUtf8_cons, List.length_append]
        omega

/-- A line feed in a text is a character. -/
theorem exists_newline (hp : Partial p) (h : encodeUtf8 cs ++ p = x ++ 10 :: y) (hx : 10 ∉ x) :
    ∃ ds c es, cs = ds ++ c :: es ∧ String.utf8EncodeChar c = [10] ∧ x = encodeUtf8 ds ∧
      y = encodeUtf8 es ++ p := by
  induction cs generalizing x with
  | nil => exact absurd (by rw [← List.nil_append p, ← encodeUtf8_nil, h]; simp) hp.not_newline
  | cons c cs ih =>
    obtain ⟨b, bs, hc, hbytes⟩ := encode_shape c
    rw [encodeUtf8_cons, List.append_assoc] at h
    rcases List.append_eq_append_iff.mp h with ⟨t, rfl, ht⟩ | ⟨t, ht, hy⟩
    · obtain ⟨ds, d, es, rfl, hd, rfl, rfl⟩ := ih ht fun hmem => hx (List.mem_append_right _ hmem)
      exact ⟨c :: ds, d, es, rfl, hd, rfl, rfl⟩
    · cases t with
      | nil =>
        rw [List.append_nil] at ht
        obtain ⟨ds, d, es, rfl, hd, hds, rfl⟩ := @ih [] hy.symm List.not_mem_nil
        exact ⟨c :: ds, d, es, rfl, hd, by rw [encodeUtf8_cons, ← hds, List.append_nil, ht], rfl⟩
      | cons z t =>
        obtain ⟨rfl, rfl⟩ := List.cons.inj hy
        have hnil : bs = [] := by
          by_contra hne
          exact hbytes.not_newline hne (by rw [← hc, ht]; simp)
        rw [hc, hnil] at ht
        obtain ⟨rfl, hrest⟩ | ⟨x', rfl, hrest⟩ := List.cons_eq_append_iff.mp ht
        · obtain ⟨rfl, rfl⟩ := List.cons.inj hrest
          exact ⟨[], c, cs, rfl, by rw [hc, hnil], rfl, rfl⟩
        · simp at hrest

end Onprest.Lib
