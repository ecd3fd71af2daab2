import Mathlib.Data.List.Basic
import Mathlib.Tactic.IntervalCases

/-! Standard base64 with padding and strict decoding: line breaks are skipped, the unused bits of the
last digit must be zero, and nothing may follow the padding. -/

namespace Onprest.Lib.Base64

/-- The digits of the standard alphabet. -/
def alphabet : List Char :=
  "ABCDEFGHIJKLMNOPQRSTUVWXYZabcdefghijklmnopqrstuvwxyz0123456789+/".toList

@[irreducible] def digit (n : ℕ) : Char := alphabet.getD (n % 64) 'A'

def digitValue (c : Char) : Option ℕ := alphabet.idxOf? c

/-- The number three bytes stand for, most significant first. -/
def pack (a b c : ℕ) : ℕ := a * 65536 + b * 256 + c

/-- The four digits of a group. -/
def digits (n : ℕ) : List Char := [digit (n / 262144), digit (n / 4096), digit (n / 64), digit n]

def encode : List UInt8 → List Char
  | [] => []
  | [a] => (digits (pack a.toNat 0 0)).take 2 ++ ['=', '=']
  | [a, b] => (digits (pack a.toNat b.toNat 0)).take 3 ++ ['=']
  | a :: b :: c :: rest => digits (pack a.toNat b.toNat c.toNat) ++ encode rest

/-- The three bytes of four digits. -/
def unpack (n : ℕ) : List UInt8 :=
  [UInt8.ofNat (n / 65536), UInt8.ofNat (n / 256), UInt8.ofNat n]

/-- The number four digits stand for. -/
def group (w x y z : Char) : Option ℕ := do
  let w ← digitValue w
  let x ← digitValue x
  let y ← digitValue y
  let z ← digitValue z
  return w * 262144 + x * 4096 + y * 64 + z

/-- The bytes of a padded last group: `k` of them, with the unused bits zero. -/
def decodeLast (w x y z : Char) (k : ℕ) : Option (List UInt8) := do
  let n ← group w x y z
  if n % 256 ^ (3 - k) = 0 then some ((unpack n).take k) else none

def decodeGroups : List Char → Option (List UInt8)
  | [] => some []
  | w :: x :: y :: z :: rest =>
    if z = '=' then
      if rest ≠ [] then none
      else if y = '=' then decodeLast w x 'A' 'A' 1
      else decodeLast w x y 'A' 2
    else do
      let n ← group w x y z
      let tail ← decodeGroups rest
      return unpack n ++ tail
  | _ => none

def decode (text : List Char) : Option (List UInt8) :=
  decodeGroups (text.filter fun c => c != '\n' && c != '\r')

/-- The number of digits and padding characters of `n` encoded bytes. -/
def encodedLen (n : ℕ) : ℕ := (n + 2) / 3 * 4

theorem digitValue_digit (n : ℕ) : digitValue (digit n) = some (n % 64) := by
  have h : n % 64 < 64 := Nat.mod_lt n (by decide)
  have hall : ∀ k < 64, digitValue (alphabet.getD k 'A') = some k := by decide +kernel
  rw [digit]
  exact hall _ h

theorem digit_ne_special (n : ℕ) : digit n ≠ '=' ∧ digit n ≠ '\n' ∧ digit n ≠ '\r' := by
  have h : n % 64 < 64 := Nat.mod_lt n (by decide)
  have hall : ∀ k < 64, alphabet.getD k 'A' ≠ '=' ∧ alphabet.getD k 'A' ≠ '\n' ∧
      alphabet.getD k 'A' ≠ '\r' := by decide +kernel
  rw [digit]
  exact hall _ h

theorem group_digits (n : ℕ) (h : n < 16777216) :
    group (digit (n / 262144)) (digit (n / 4096)) (digit (n / 64)) (digit n) = some n := by
  simp only [group, digitValue_digit, Option.bind_eq_bind, Option.bind_some, Option.pure_def,
    Option.some.injEq]
  omega

theorem pack_lt (a b c : UInt8) : pack a.toNat b.toNat c.toNat < 16777216 := by
  have ha := a.toNat_lt
  have hb := b.toNat_lt
  have hc := c.toNat_lt
  unfold pack
  omega

theorem unpack_pack (a b c : UInt8) : unpack (pack a.toNat b.toNat c.toNat) = [a, b, c] := by
  have hbyte : ∀ (x : UInt8) (n : ℕ), n % 256 = x.toNat → UInt8.ofNat n = x := by
    intro x n hn
    apply UInt8.toNat_inj.mp
    rw [UInt8.toNat_ofNat', hn]
  have ha := a.toNat_lt
  have hb := b.toNat_lt
  have hc := c.toNat_lt
  unfold unpack pack
  rw [hbyte a _ (by omega), hbyte b _ (by omega), hbyte c _ (by omega)]

variable {n : ℕ} {w x y : Char}

theorem digit_eq_zero (h : n % 64 = 0) : digit n = 'A' := by
  rw [digit, h]
  rfl

theorem decodeGroups_full {z : Char} {rest : List Char} {tail : List UInt8} (hz : z ≠ '=')
    (hgroup : group w x y z = some n) (htail : decodeGroups rest = some tail) :
    decodeGroups (w :: x :: y :: z :: rest) = some (unpack n ++ tail) := by
  simp [decodeGroups, hz, hgroup, htail]

theorem decodeGroups_two (hy : y ≠ '=') (hgroup : group w x y 'A' = some n) (hzero : n % 256 = 0) :
    decodeGroups [w, x, y, '='] = some ((unpack n).take 2) := by
  simp [decodeGroups, decodeLast, hy, hgroup, hzero]

theorem decodeGroups_one (hgroup : group w x 'A' 'A' = some n) (hzero : n % 65536 = 0) :
    decodeGroups [w, x, '=', '='] = some ((unpack n).take 1) := by
  simp [decodeGroups, decodeLast, hgroup, hzero]

theorem decodeGroups_encode (bs : List UInt8) : decodeGroups (encode bs) = some bs := by
  induction bs using encode.induct with
  | case1 => rfl
  | case2 a =>
    have hlt : pack a.toNat 0 0 < 16777216 := pack_lt a 0 0
    have hunpack : unpack (pack a.toNat 0 0) = [a, 0, 0] := unpack_pack a 0 0
    have hzero : pack a.toNat 0 0 % 65536 = 0 := by simp [pack]
    have hgroup := group_digits _ hlt
    rw [digit_eq_zero (n := pack a.toNat 0 0 / 64) (by omega),
      digit_eq_zero (n := pack a.toNat 0 0) (by omega)] at hgroup
    refine (decodeGroups_one hgroup hzero).trans ?_
    rw [hunpack]
    rfl
  | case3 a b =>
    have hlt : pack a.toNat b.toNat 0 < 16777216 := pack_lt a b 0
    have hunpack : unpack (pack a.toNat b.toNat 0) = [a, b, 0] := unpack_pack a b 0
    have hzero : pack a.toNat b.toNat 0 % 256 = 0 := by
      simp only [pack]
      omega
    have hgroup := group_digits _ hlt
    rw [digit_eq_zero (n := pack a.toNat b.toNat 0) (by omega)] at hgroup
    have hdigit := (digit_ne_special (pack a.toNat b.toNat 0 / 64)).1
    refine (decodeGroups_two hdigit hgroup hzero).trans ?_
    rw [hunpack]
    rfl
  | case4 a b c rest ih =>
    have hgroup := group_digits _ (pack_lt a b c)
    have hdigit := (digit_ne_special (pack a.toNat b.toNat c.toNat)).1
    refine (decodeGroups_full hdigit hgroup ih).trans ?_
    rw [unpack_pack]
    rfl

theorem filter_encode (bs : List UInt8) :
    (encode bs).filter (fun c => c != '\n' && c != '\r') = encode bs := by
  induction bs using encode.induct with
  | case1 => rfl
  | case2 a | case3 a b => simp [encode, digits, digit_ne_special]
  | case4 a b c rest ih => simpa [encode, digits, digit_ne_special] using ih

/-- Strict decoding inverts encoding. -/
theorem decode_encode (bs : List UInt8) : decode (encode bs) = some bs := by
  rw [decode, filter_encode, decodeGroups_encode]

theorem encode_length (bs : List UInt8) : (encode bs).length = encodedLen bs.length := by
  induction bs using encode.induct with
  | case1 => rfl
  | case2 a | case3 a b => simp [encode, digits, encodedLen]
  | case4 a b c rest ih =>
    simp only [encode, digits, List.length_append, List.length_cons, List.length_nil, ih, encodedLen]
    omega

theorem encodedLen_mono {m : ℕ} (h : m ≤ n) : encodedLen m ≤ encodedLen n := by
  unfold encodedLen
  omega

end Onprest.Lib.Base64
