import Mathlib.Data.List.Basic

/-! UTF-8 as a reader of runes sees it: one character at a time from the front of a byte string, up to the first byte
that starts none. -/

namespace Onprest.Lib

abbrev Bytes := List UInt8

def encodeUtf8 (cs : List Char) : Bytes := cs.flatMap String.utf8EncodeChar

@[simp] theorem encodeUtf8_nil : encodeUtf8 [] = [] := rfl

@[simp] theorem encodeUtf8_cons (c : Char) (cs : List Char) :
    encodeUtf8 (c :: cs) = String.utf8EncodeChar c ++ encodeUtf8 cs := rfl

@[simp] theorem encodeUtf8_append (cs ds : List Char) : encodeUtf8 (cs ++ ds) = encodeUtf8 cs ++ encodeUtf8 ds :=
  List.flatMap_append

theorem length_encodeUtf8_le (cs : List Char) : (encodeUtf8 cs).length ≤ 4 * cs.length := by
  induction cs with
  | nil => simp
  | cons c cs ih =>
    have hsize := c.utf8Size_le_four
    rw [encodeUtf8_cons, List.length_append, String.length_utf8EncodeChar, List.length_cons]
    omega

/-- The first character of a byte string and the bytes behind it. -/
def readRune (bs : Bytes) : Option (Char × Bytes) :=
  (bs.toByteArray.utf8DecodeChar? 0).map fun c => (c, bs.drop c.utf8Size)

theorem readRune_encode (c : Char) (bs : Bytes) : readRune (String.utf8EncodeChar c ++ bs) = some (c, bs) := by
  have hdecode : (String.utf8EncodeChar c ++ bs).toByteArray.utf8DecodeChar? 0 = some c := by
    rw [List.toByteArray_append]
    exact ByteArray.utf8DecodeChar?_utf8EncodeChar_append
  rw [readRune, hdecode, Option.map_some, ← String.length_utf8EncodeChar, List.drop_left]

variable {bs rest : Bytes} {c : Char}

theorem length_of_readRune (h : readRune bs = some (c, rest)) : rest.length < bs.length := by
  rw [readRune, Option.map_eq_some_iff] at h
  obtain ⟨d, hd, heq⟩ := h
  obtain ⟨rfl, rfl⟩ := Prod.mk.inj heq
  have hpos : 0 < bs.length := by
    by_contra hnil
    rw [Nat.not_lt, Nat.le_zero, List.length_eq_zero_iff] at hnil
    subst hnil
    simp [ByteArray.utf8DecodeChar?] at hd
  have hsize := d.utf8Size_pos
  rw [List.length_drop]
  omega

theorem eq_of_readRune (h : readRune bs = some (c, rest)) : bs = String.utf8EncodeChar c ++ rest := by
  rw [readRune, Option.map_eq_some_iff] at h
  obtain ⟨d, hd, heq⟩ := h
  obtain ⟨rfl, rfl⟩ := Prod.mk.inj heq
  obtain ⟨l, hl⟩ := ByteArray.exists_of_utf8DecodeChar?_eq_some hd
  have hbs : bs = String.utf8EncodeChar d ++ l.data.toList := by
    have hdata := congrArg (fun b => b.data.toList) hl
    simpa using hdata
  rw [hbs, ← String.length_utf8EncodeChar, List.drop_left]

/-- The characters of a byte string up to its end or to the first byte that starts none, and whether it ended. -/
def runes (bs : Bytes) : List Char × Bool :=
  match _h : readRune bs with
  | some (c, rest) => (c :: (runes rest).1, (runes rest).2)
  | none => ([], bs.isEmpty)
termination_by bs.length
decreasing_by
  all_goals exact length_of_readRune _h

theorem runes_encode (cs : List Char) : runes (encodeUtf8 cs) = (cs, true) := by
  induction cs with
  | nil =>
    rw [runes]
    split
    · rename_i h
      exact absurd (length_of_readRune h) (by simp)
    · rfl
  | cons c cs ih =>
    rw [runes, encodeUtf8_cons]
    split
    · rename_i h
      rw [readRune_encode, Option.some.injEq, Prod.mk.injEq] at h
      obtain ⟨rfl, rfl⟩ := h
      rw [ih]
    · rename_i h
      rw [readRune_encode] at h
      cases h

/-! ### Any byte string -/

/-- The bytes of a character, or of a byte that starts none. -/
def runeBytes : Char ⊕ UInt8 → Bytes
  | .inl c => String.utf8EncodeChar c
  | .inr b => [b]

/-- The characters of a byte string, with the bytes between them that start none. -/
def decodeRunes (bs : Bytes) : List (Char ⊕ UInt8) :=
  match _h : readRune bs with
  | some (c, rest) => .inl c :: decodeRunes rest
  | none =>
    match bs with
    | [] => []
    | b :: rest => .inr b :: decodeRunes rest
termination_by bs.length
decreasing_by
  · exact length_of_readRune _h
  · simp

theorem flatMap_decodeRunes (bs : Bytes) : (decodeRunes bs).flatMap runeBytes = bs := by
  fun_induction decodeRunes bs with
  | case1 bs c rest hread ih =>
    rw [List.flatMap_cons, ih]
    exact (eq_of_readRune hread).symm
  | case2 hread => rfl
  | case3 b rest hread ih =>
    rw [List.flatMap_cons, ih]
    rfl

theorem runeBytes_ne_nil (r : Char ⊕ UInt8) : runeBytes r ≠ [] := by
  cases r with
  | inl c => exact String.utf8EncodeChar_ne_nil
  | inr b => exact List.cons_ne_nil b []

end Onprest.Lib
