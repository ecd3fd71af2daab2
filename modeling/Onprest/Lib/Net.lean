import Mathlib.Data.List.Basic
import Mathlib.Data.BitVec

/-! Internet addresses as Go's `net` package has them: the 16-byte form, its textual forms, networks, and
the address of a `host:port` pair. Strings are byte strings. -/

namespace Onprest.Lib.Net

abbrev Text := List UInt8

/-- The byte string of an ASCII literal. -/
def ascii (s : String) : Text := s.toList.map fun c => UInt8.ofNat c.toNat

def byte (c : Char) : UInt8 := UInt8.ofNat c.toNat

/-! ### Trimming -/

/-- The length of the white space rune at the start of a text, 0 if there is none. -/
def spaceLength : Text → ℕ
  | a :: b :: c :: _ =>
    if a = 0x20 ∨ 9 ≤ a ∧ a ≤ 13 then 1
    else if a = 0xc2 ∧ (b = 0x85 ∨ b = 0xa0) then 2
    else if isSpace3 a b c then 3
    else 0
  | [a, b] => if a = 0x20 ∨ 9 ≤ a ∧ a ≤ 13 then 1 else if a = 0xc2 ∧ (b = 0x85 ∨ b = 0xa0) then 2 else 0
  | [a] => if a = 0x20 ∨ 9 ≤ a ∧ a ≤ 13 then 1 else 0
  | [] => 0
where
  /-- The white space runes of three bytes: U+1680, U+2000 to U+200A, U+2028, U+2029, U+202F, U+205F and
  U+3000. -/
  isSpace3 (a b c : UInt8) : Bool :=
    a = 0xe1 && b = 0x9a && c = 0x80 ||
    a = 0xe2 && b = 0x80 && (0x80 ≤ c && c ≤ 0x8a || c = 0xa8 || c = 0xa9 || c = 0xaf) ||
    a = 0xe2 && b = 0x81 && c = 0x9f || a = 0xe3 && b = 0x80 && c = 0x80

/-- The same at the end of a text, which is given reversed. -/
def spaceLengthRev : Text → ℕ
  | c :: b :: a :: _ =>
    if c = 0x20 ∨ 9 ≤ c ∧ c ≤ 13 then 1
    else if b = 0xc2 ∧ (c = 0x85 ∨ c = 0xa0) then 2
    else if spaceLength.isSpace3 a b c then 3
    else 0
  | [c, b] => if c = 0x20 ∨ 9 ≤ c ∧ c ≤ 13 then 1 else if b = 0xc2 ∧ (c = 0x85 ∨ c = 0xa0) then 2 else 0
  | [c] => if c = 0x20 ∨ 9 ≤ c ∧ c ≤ 13 then 1 else 0
  | [] => 0

def dropSpace (len : Text → ℕ) : ℕ → Text → Text
  | 0, s => s
  | n + 1, s => if len s = 0 then s else dropSpace len n (s.drop (len s))

def trimSpace (s : Text) : Text :=
  let s := dropSpace spaceLength s.length s
  (dropSpace spaceLengthRev s.length s.reverse).reverse

/-! ### Addresses -/

/-- An address in its 16-byte form. -/
abbrev IP := BitVec 128

def IP.ofOctets (os : List ℕ) : IP := os.foldl (fun acc o => acc * 256 + BitVec.ofNat 128 o) 0

/-- The IPv4 address `o` in its IPv4-mapped form. -/
def IP.ofIPv4 (os : List ℕ) : IP := IP.ofOctets (List.replicate 10 0 ++ [255, 255] ++ os)

def IP.to4 (ip : IP) : Option (BitVec 32) := if ip >>> 32 = 0xffff then some (ip.setWidth 32) else none

def isDigit (c : UInt8) : Bool := byte '0' ≤ c && c ≤ byte '9'

def hexValue (c : UInt8) : Option ℕ :=
  if isDigit c then some (c.toNat - (byte '0').toNat)
  else if byte 'a' ≤ c && c ≤ byte 'f' then some (c.toNat - (byte 'a').toNat + 10)
  else if byte 'A' ≤ c && c ≤ byte 'F' then some (c.toNat - (byte 'A').toNat + 10)
  else none

/-- One octet of an IPv4 address: digits without a leading zero, at most 255. -/
def parseOctet (s : Text) : Option ℕ :=
  if s ≠ [] ∧ s.all isDigit = true ∧ (s.head? = some (byte '0') → s.length = 1) then
    let v := s.foldl (fun acc c => acc * 10 + (c.toNat - (byte '0').toNat)) 0
    if v ≤ 255 then some v else none
  else none

def parseIPv4Fields (s : Text) : Option (List ℕ) :=
  let parts := s.splitOn (byte '.')
  if parts.length = 4 then parts.mapM parseOctet else none

/-- The loop of `parseIPv6`: hexadecimal groups up to the end of the text or an embedded IPv4 address,
with the position of an ellipsis. The argument bounds the groups to come. -/
def parseIPv6Groups : ℕ → List ℕ → Option ℕ → Text → Option (List ℕ × Option ℕ × Text)
  | 0, os, ellipsis, s => some (os, ellipsis, s)
  | n + 1, os, ellipsis, s =>
    let digits := s.takeWhile fun c => (hexValue c).isSome
    if digits = [] ∨ 4 < digits.length then none
    else
      let v := digits.foldl (fun acc c => acc * 16 + (hexValue c).getD 0) 0
      let os' := os ++ [v / 256, v % 256]
      match s.dropWhile fun c => (hexValue c).isSome with
      | [] => some (os', ellipsis, [])
      | c :: rest =>
        if c = byte '.' then
          if ellipsis = none ∧ os.length ≠ 12 ∨ 16 < os.length + 4 then none
          else (parseIPv4Fields s).map fun o4 => (os ++ o4, ellipsis, [])
        else if c ≠ byte ':' ∨ rest = [] then none
        else if rest.head? = some (byte ':') then
          if ellipsis.isSome then none
          else if rest.tail = [] then some (os', some os'.length, [])
          else parseIPv6Groups n os' (some os'.length) rest.tail
        else parseIPv6Groups n os' ellipsis rest

def parseIPv6 (s : Text) : Option IP :=
  let leading := s.take 2 = ascii "::"
  if leading ∧ s.length = 2 then some 0
  else
    match parseIPv6Groups 8 [] (if leading then some 0 else none) (if leading then s.drop 2 else s) with
    | some (os, ellipsis, []) =>
      match ellipsis with
      | some e =>
        if os.length < 16 then
          some (IP.ofOctets (os.take e ++ List.replicate (16 - os.length) 0 ++ os.drop e))
        else none
      | none => if os.length = 16 then some (IP.ofOctets os) else none
    | _ => none

/-- `net.ParseIP`: a dotted IPv4 or an IPv6 address, without a zone. -/
def parseIP (s : Text) : Option IP :=
  match s.find? fun c => c = byte '.' || c = byte ':' || c = byte '%' with
  | some c =>
    if c = byte '.' then (parseIPv4Fields s).map IP.ofIPv4
    else if c = byte ':' ∧ byte '%' ∉ s then parseIPv6 s
    else none
  | none => none

def IP.octet (ip : IP) (i : ℕ) : ℕ := (ip >>> (8 * (15 - i))).toNat % 256

def IP.group (ip : IP) (i : ℕ) : ℕ := (ip >>> (16 * (7 - i))).toNat % 65536

def decimal (n : ℕ) : Text := (Nat.toDigits 10 n).map byte

def hexadecimal (n : ℕ) : Text := (Nat.toDigits 16 n).map byte

/-- The longest run of at least two zero groups, the first of them if there are several: its start and
its end. -/
def zeroRun (groups : List ℕ) : Option (ℕ × ℕ) :=
  (List.range groups.length).foldl
    (fun best i =>
      let n := ((groups.drop i).takeWhile (· = 0)).length
      if 2 ≤ n ∧ (best.map fun b => b.2 - b.1).getD 0 < n then some (i, i + n) else best) none

def joinGroups (groups : List ℕ) : Text := [byte ':'].intercalate (groups.map hexadecimal)

/-- `IP.String`. -/
def IP.string (ip : IP) : Text :=
  match ip.to4 with
  | some _ => [byte '.'].intercalate ([12, 13, 14, 15].map fun i => decimal (ip.octet i))
  | none =>
    let groups := (List.range 8).map ip.group
    match zeroRun groups with
    | some (i, j) => joinGroups (groups.take i) ++ ascii "::" ++ joinGroups (groups.drop j)
    | none => joinGroups groups

/-! ### Networks -/

/-- A network, with an address and a mask of the same form. -/
inductive IPNet
  | v4 (ip mask : BitVec 32)
  | v6 (ip mask : IP)
deriving DecidableEq

/-- `IPNet.Contains`: an IPv4-mapped address or network counts as an IPv4 one. -/
def IPNet.contains (n : IPNet) (ip : IP) : Bool :=
  match n with
  | .v4 net mask =>
    match ip.to4 with
    | some ip4 => net &&& mask = ip4 &&& mask
    | none => false
  | .v6 net mask =>
    match net.to4, ip.to4 with
    | some net4, some ip4 => net4 &&& mask.setWidth 32 = ip4 &&& mask.setWidth 32
    | none, none => net &&& mask = ip &&& mask
    | _, _ => false

/-! ### Host and port -/

/-- `net.SplitHostPort`. -/
def splitHostPort (hostport : Text) : Option (Text × Text) :=
  -- the port starts after the last colon
  if byte ':' ∉ hostport then none
  else
    let port := (hostport.reverse.takeWhile (· ≠ byte ':')).reverse
    let i := hostport.length - port.length - 1
    if hostport.head? = some (byte '[') then
      let stop := (hostport.takeWhile (· ≠ byte ']')).length
      if stop + 1 = i ∧ byte '[' ∉ hostport.drop 1 ∧ byte ']' ∉ hostport.drop (stop + 1) then
        some ((hostport.take stop).drop 1, port)
      else none
    else
      let host := hostport.take i
      if byte ':' ∈ host ∨ byte '[' ∈ hostport ∨ byte ']' ∈ hostport then none else some (host, port)

/-! ### Texts of addresses -/

theorem intercalate_cons_ne_nil {sep x : Text} {xs : List Text} (hx : x ≠ []) : sep.intercalate (x :: xs) ≠ [] := by
  cases xs with
  | nil => simpa [List.intercalate] using hx
  | cons y ys => simp [List.intercalate, hx]

theorem IP.string_ne_nil (ip : IP) : ip.string ≠ [] := by
  unfold IP.string
  split
  · exact intercalate_cons_ne_nil (by simp [decimal, Nat.toDigits_ne_nil])
  · simp only
    split
    · simp [ascii]
    · exact intercalate_cons_ne_nil (by simp [hexadecimal, Nat.toDigits_ne_nil])

end Onprest.Lib.Net
