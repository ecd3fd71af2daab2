import Mathlib.Data.FinEnum
import Onprest.Lib.BigEndian
import Onprest.Lib.Except
import Onprest.Lib.Utf8

/-! WebSocket frames as bytes: how one side writes a frame, how the other reads it, and how a text message is put
together from its fragments. -/

namespace Onprest.Ws
open Lib

def maxMessageSize : ℕ := 16 * 2 ^ 20

/-- `io.ReadFull`. -/
def readFull (n : ℕ) (bs : Bytes) : Except String (Bytes × Bytes) :=
  if n ≤ bs.length then .ok (bs.take n, bs.drop n)
  else if bs = [] then .error "EOF"
  else .error "unexpected EOF"

/-- A masking key. -/
structure Mask where
  a : UInt8
  b : UInt8
  c : UInt8
  d : UInt8
deriving DecidableEq

namespace Mask

def bytes (m : Mask) : Bytes := [m.a, m.b, m.c, m.d]

def ofBytes (bs : Bytes) : Mask := ⟨bs.getD 0 0, bs.getD 1 0, bs.getD 2 0, bs.getD 3 0⟩

/-- The byte of the key for one position of the payload. -/
def byte (m : Mask) (i : ℕ) : UInt8 := m.bytes.getD (i % 4) 0

def apply (m : Mask) (payload : Bytes) : Bytes := payload.mapIdx fun i x => x ^^^ m.byte i

@[simp] theorem length_apply (m : Mask) (payload : Bytes) : (m.apply payload).length = payload.length := by
  simp [apply]

/-- Masking twice with one key is the payload. -/
@[simp] theorem apply_apply (m : Mask) (payload : Bytes) : m.apply (m.apply payload) = payload := by
  apply List.ext_getElem
  · simp
  · intro i h₁ h₂
    simp only [apply, List.getElem_mapIdx]
    rw [UInt8.xor_assoc, UInt8.xor_self, UInt8.xor_zero]

end Mask

/-! ### Reading a frame -/

/-- The payload length, whose first seven bits are `l`. -/
def readLength (l : UInt8) (bs : Bytes) : Except String (ℕ × Bytes) :=
  if l = 126 then do
    let (b, bs) ← readFull 2 bs
    let n := BigEndian.value b
    if n < 126 then .error "non-canonical websocket frame length" else .ok (n, bs)
  else if l = 127 then do
    let (b, bs) ← readFull 8 bs
    let n := BigEndian.value b
    -- the top bit must be clear
    if 2 ^ 63 ≤ n ∨ n ≤ 65535 then .error "invalid websocket frame length" else .ok (n, bs)
  else .ok (l.toNat, bs)

/-- The payload of the given length, unmasked if a key stands before it. -/
def readPayload (masked : Bool) (n : ℕ) (bs : Bytes) : Except String (Bytes × Bytes) :=
  if masked then do
    let (key, bs) ← readFull 4 bs
    let (payload, bs) ← readFull n bs
    .ok ((Mask.ofBytes key).apply payload, bs)
  else readFull n bs

/-- What stands in a frame: the final bit, the opcode and the payload. -/
structure WireFrame where
  fin : Bool
  op : UInt8
  payload : Bytes
deriving DecidableEq

/-- `readFrame`: the frame and what is left to read. -/
def readFrame (isClient : Bool) (bs : Bytes) : Except String (WireFrame × Bytes) :=
  match bs with
  | [] => .error "EOF"
  | [_] => .error "unexpected EOF"
  | h₀ :: h₁ :: bs =>
    let fin := h₀ &&& 0x80 != 0
    if h₀ &&& 0x70 ≠ 0 then .error "websocket extensions are not supported"
    else
      let op := h₀ &&& 0x0f
      let masked := h₁ &&& 0x80 != 0
      if masked = isClient then
        if isClient then .error "server websocket frame must not be masked"
        else .error "client websocket frame must be masked"
      else do
        let (n, bs) ← readLength (h₁ &&& 0x7f) bs
        if op ≥ 8 ∧ (fin = false ∨ n > 125) then .error "invalid websocket control frame"
        else if n > maxMessageSize then .error "websocket frame too large"
        else do
          let (payload, bs) ← readPayload masked n bs
          .ok (⟨fin, op, payload⟩, bs)

/-! ### Writing a frame -/

/-- The shortest form of a payload length: seven bits and the bytes that extend them. -/
def lengthCode (n : ℕ) : UInt8 := if n < 126 then UInt8.ofNat n else if n ≤ 65535 then 126 else 127

def lengthExtension (n : ℕ) : Bytes :=
  if n < 126 then [] else if n ≤ 65535 then BigEndian.bytes 2 n else BigEndian.bytes 8 n

def flagBit (b : Bool) : UInt8 := if b then 0x80 else 0

/-- A frame as a client, which masks it, or a server writes it. -/
def WireFrame.bytes (isClient : Bool) (mask : Mask) (f : WireFrame) : Bytes :=
  (flagBit f.fin ||| f.op) :: (flagBit isClient ||| lengthCode f.payload.length) ::
    (lengthExtension f.payload.length ++ if isClient then mask.bytes ++ mask.apply f.payload else f.payload)

/-- `writeFrameStart`: the bytes of the one frame of a message or of a control frame; `mask` is the random key. -/
def writeFrameStart (isClient : Bool) (mask : Mask) (op : UInt8) (payload : Bytes) :
    Except String Bytes :=
  if op ≥ 8 ∧ payload.length > 125 then .error "websocket control payload too large"
  else .ok (WireFrame.bytes isClient mask ⟨true, op, payload⟩)

/-! ### What is read is what was written -/

/-- What a reader takes: a short enough payload, and control frames in one piece and short. -/
structure WireFrame.Valid (f : WireFrame) : Prop where
  opcode : f.op < 16
  control : 8 ≤ f.op → f.fin = true ∧ f.payload.length ≤ 125
  size : f.payload.length ≤ maxMessageSize

theorem readFull_append (bs rest : Bytes) : readFull bs.length (bs ++ rest) = .ok (bs, rest) := by
  unfold readFull
  rw [if_pos (by simp)]
  simp

variable {n : ℕ} {bs rest : Bytes} {isClient : Bool} {f : WireFrame}

theorem readFull_eq_ok {got : Bytes} : readFull n bs = .ok (got, rest) ↔ bs = got ++ rest ∧ got.length = n := by
  constructor
  · intro h
    unfold readFull at h
    split_ifs at h with hn
    cases h
    exact ⟨(List.take_append_drop n bs).symm, List.length_take_of_le hn⟩
  · rintro ⟨rfl, rfl⟩
    exact readFull_append got rest

theorem flagBit_fin : ∀ (b : Bool) (op : UInt8), op < 16 →
    ((flagBit b ||| op) &&& 0x80 != 0) = b ∧ (flagBit b ||| op) &&& 0x70 = 0 ∧ (flagBit b ||| op) &&& 0x0f = op := by
  decide +kernel

theorem flagBit_mask : ∀ (b : Bool) (l : UInt8), l < 128 →
    ((flagBit b ||| l) &&& 0x80 != 0) = b ∧ (flagBit b ||| l) &&& 0x7f = l := by
  decide +kernel

theorem eq_flagBit_fin : ∀ h : UInt8, h &&& 0x70 = 0 →
    flagBit (h &&& 0x80 != 0) ||| (h &&& 0x0f) = h ∧ h &&& 0x0f < 16 := by
  decide +kernel

theorem eq_flagBit_mask : ∀ h : UInt8, flagBit (h &&& 0x80 != 0) ||| (h &&& 0x7f) = h ∧ h &&& 0x7f < 128 := by
  decide +kernel

theorem readLength_eq_ok {l : UInt8} (hl : l < 128) :
    readLength l bs = .ok (n, rest) ↔ l = lengthCode n ∧ bs = lengthExtension n ++ rest ∧ n < 2 ^ 63 := by
  unfold readLength lengthCode lengthExtension
  constructor
  · intro h
    split_ifs at h with h₁ h₂
    · obtain ⟨⟨b, bs'⟩, hb, hn⟩ := except_bind_eq_ok.mp h
      obtain ⟨rfl, hlen⟩ := readFull_eq_ok.mp hb
      dsimp only at hn
      split_ifs at hn with hlong
      cases hn
      have hlt := BigEndian.value_lt b
      have hbytes := BigEndian.bytes_value b
      rw [hlen] at hlt hbytes
      rw [if_neg hlong, if_neg hlong, if_pos (by omega), if_pos (by omega), hbytes]
      exact ⟨h₁, rfl, by omega⟩
    · obtain ⟨⟨b, bs'⟩, hb, hn⟩ := except_bind_eq_ok.mp h
      obtain ⟨rfl, hlen⟩ := readFull_eq_ok.mp hb
      dsimp only at hn
      split_ifs at hn with hlong
      cases hn
      have hbytes := BigEndian.bytes_value b
      rw [hlen] at hbytes
      rw [if_neg (by omega), if_neg (by omega), if_neg (by omega), if_neg (by omega), hbytes]
      exact ⟨h₂, rfl, by omega⟩
    · cases h
      have hsmall : l.toNat < 126 := by
        rw [UInt8.lt_iff_toNat_lt] at hl
        have h₁' : l.toNat ≠ 126 := fun h => h₁ (UInt8.toNat.inj h)
        have h₂' : l.toNat ≠ 127 := fun h => h₂ (UInt8.toNat.inj h)
        have : (128 : UInt8).toNat = 128 := rfl
        omega
      rw [if_pos hsmall, if_pos hsmall, UInt8.ofNat_toNat]
      exact ⟨rfl, rfl, by omega⟩
  · rintro ⟨rfl, rfl, hn⟩
    clear hl
    by_cases h₁ : n < 126
    · have hto : (UInt8.ofNat n).toNat = n := by
        rw [UInt8.toNat_ofNat']
        omega
      have hne (k : UInt8) (hk : 126 ≤ k.toNat) : UInt8.ofNat n ≠ k := by
        rintro rfl
        omega
      rw [if_pos h₁, if_pos h₁, if_neg (hne 126 (by decide)), if_neg (hne 127 (by decide)), hto]
      rfl
    · rw [if_neg h₁, if_neg h₁]
      by_cases h₂ : n ≤ 65535
      · have hread := readFull_append (BigEndian.bytes 2 n) rest
        rw [BigEndian.length_bytes] at hread
        rw [if_pos h₂, if_pos h₂, if_pos rfl, hread]
        change (if BigEndian.value (BigEndian.bytes 2 n) < 126 then _ else _) = _
        rw [BigEndian.value_bytes (by omega), if_neg h₁]
      · have hread := readFull_append (BigEndian.bytes 8 n) rest
        rw [BigEndian.length_bytes] at hread
        rw [if_neg h₂, if_neg h₂, if_neg (by decide), if_pos rfl, hread]
        change (if 2 ^ 63 ≤ BigEndian.value (BigEndian.bytes 8 n) ∨
          BigEndian.value (BigEndian.bytes 8 n) ≤ 65535 then _
          else _) = _
        rw [BigEndian.value_bytes (by omega), if_neg (by omega)]

theorem Mask.bytes_ofBytes (h : bs.length = 4) : (Mask.ofBytes bs).bytes = bs := by
  match bs, h with
  | [a, b, c, d], _ => rfl

theorem readPayload_eq_ok {masked : Bool} {payload : Bytes} :
    readPayload masked n bs = .ok (payload, rest) ↔ payload.length = n ∧
      ∃ mask : Mask, bs = (if masked then mask.bytes ++ mask.apply payload else payload) ++ rest := by
  cases masked with
  | false =>
    have : Nonempty Mask := ⟨⟨0, 0, 0, 0⟩⟩
    simp only [readPayload, Bool.false_eq_true, if_false, readFull_eq_ok, exists_const]
    exact and_comm
  | true =>
    simp only [readPayload, if_true]
    constructor
    · intro h
      obtain ⟨⟨key, bs'⟩, hkey, hrest⟩ := except_bind_eq_ok.mp h
      obtain ⟨⟨got, bs''⟩, hgot, hrest⟩ := except_bind_eq_ok.mp hrest
      obtain ⟨rfl, hlen⟩ := readFull_eq_ok.mp hkey
      obtain ⟨rfl, hlen'⟩ := readFull_eq_ok.mp hgot
      cases hrest
      refine ⟨by rw [Mask.length_apply, hlen'], Mask.ofBytes key, ?_⟩
      rw [Mask.apply_apply, Mask.bytes_ofBytes hlen, List.append_assoc]
    · rintro ⟨rfl, mask, rfl⟩
      have hkey : readFull 4 (mask.bytes ++ (mask.apply payload ++ rest)) =
          .ok (mask.bytes, mask.apply payload ++ rest) :=
        readFull_append mask.bytes _
      have hgot := readFull_append (mask.apply payload) rest
      rw [Mask.length_apply] at hgot
      refine except_bind_eq_ok.mpr ⟨_, by rw [List.append_assoc]; exact hkey, except_bind_eq_ok.mpr ⟨_, hgot, ?_⟩⟩
      have hof : Mask.ofBytes mask.bytes = mask := rfl
      rw [hof, Mask.apply_apply]

theorem lengthCode_lt (n : ℕ) : lengthCode n < 128 := by
  unfold lengthCode
  split_ifs with h
  · rw [UInt8.lt_iff_toNat_lt, UInt8.toNat_ofNat']
    change n % 2 ^ 8 < 128
    omega
  · decide
  · decide

/-- A reader takes exactly the frames that the other side can write, in their one form. -/
theorem readFrame_eq_ok :
    readFrame isClient bs = .ok (f, rest) ↔ f.Valid ∧ ∃ mask, bs = f.bytes (!isClient) mask ++ rest := by
  constructor
  · intro h
    match bs with
    | [] => cases h
    | [_] => cases h
    | h₀ :: h₁ :: bs =>
      rw [readFrame] at h
      dsimp only at h
      split_ifs at h with hrsv hmask hmask'
      obtain ⟨⟨n, bs'⟩, hlen, hbody⟩ := except_bind_eq_ok.mp h
      dsimp only at hbody
      split_ifs at hbody with hcontrol hsize
      obtain ⟨⟨payload, bs''⟩, hpayload, hdone⟩ := except_bind_eq_ok.mp hbody
      cases hdone
      obtain ⟨hmasked, hcode⟩ := eq_flagBit_mask h₁
      obtain ⟨hfirst, hop⟩ := eq_flagBit_fin h₀ (not_not.mp hrsv)
      obtain ⟨hl, rfl, -⟩ := (readLength_eq_ok hcode).mp hlen
      obtain ⟨rfl, mask, rfl⟩ := readPayload_eq_ok.mp hpayload
      have hrole : (h₁ &&& 0x80 != 0) = !isClient := Bool.eq_not.mpr hmask
      refine ⟨⟨hop, fun h8 => ?_, not_lt.mp hsize⟩, mask, ?_⟩
      · have hc := not_and.mp hcontrol h8
        rw [not_or, Bool.not_eq_false, not_lt] at hc
        exact hc
      · rw [hl, hrole] at hmasked
        rw [WireFrame.bytes, hmasked, hfirst, hrole]
        simp only [List.cons_append, List.append_assoc]
  · rintro ⟨hf, mask, rfl⟩
    have hlen := lengthCode_lt f.payload.length
    obtain ⟨hfin, hrsv, hop⟩ := flagBit_fin f.fin f.op hf.opcode
    obtain ⟨hmask, hl⟩ := flagBit_mask (!isClient) _ hlen
    have hlength (bs) : readLength (lengthCode f.payload.length) (lengthExtension f.payload.length ++ bs) =
        .ok (f.payload.length, bs) := by
      refine (readLength_eq_ok hlen).mpr ⟨rfl, rfl, ?_⟩
      have := hf.size
      rw [maxMessageSize] at this
      omega
    have hpayload : readPayload (!isClient) f.payload.length
        ((if !isClient then mask.bytes ++ mask.apply f.payload else f.payload) ++ rest) = .ok (f.payload, rest) :=
      readPayload_eq_ok.mpr ⟨rfl, mask, rfl⟩
    have hcontrol : ¬ (f.op ≥ 8 ∧ (f.fin = false ∨ f.payload.length > 125)) := by
      rintro ⟨h8, h | h⟩
      · rw [(hf.control h8).1] at h
        cases h
      · exact absurd (hf.control h8).2 (not_le.mpr h)
    rw [WireFrame.bytes, List.cons_append, List.cons_append, List.append_assoc, readFrame]
    dsimp only
    rw [hfin, hrsv, hop, hmask, hl, if_neg (not_not.mpr rfl), if_neg (by cases isClient <;> decide), hlength]
    change (if _ then _ else _) = _
    rw [if_neg hcontrol, if_neg (not_lt.mpr hf.size), hpayload]
    rfl

/-! ### Text messages -/

/-- A connection: its role, and for each frame that reading a message writes its key and what the transport returns.
-/
structure Conn where
  isClient : Bool
  mask : ℕ → Mask
  transport : ℕ → Bytes → Except String Unit

/-- `writeFrame`, after `n` frames were written. -/
def Conn.writeFrame (c : Conn) (n : ℕ) (op : UInt8) (payload : Bytes) : Except String Unit := do
  let bytes ← writeFrameStart c.isClient (c.mask n) op payload
  c.transport n bytes

/-- What reading a message does besides returning it. -/
inductive ReadEffect
  | pong (payload : Bytes)
  | handled
  | close (payload : Bytes)
deriving DecidableEq

/-- The message with what is left to read, and the effects in their order. -/
structure ReadText where
  effects : List ReadEffect
  result : Except String (Bytes × Bytes)

def ReadText.fail (e : String) : ReadText := ⟨[], .error e⟩

def ReadText.after (e : ReadEffect) (r : ReadText) : ReadText := { r with effects := e :: r.effects }

theorem length_lt_of_readFrame (h : readFrame isClient bs = .ok (f, rest)) : rest.length < bs.length := by
  obtain ⟨-, mask, rfl⟩ := readFrame_eq_ok.mp h
  rw [WireFrame.bytes, List.length_append]
  simp only [List.length_cons]
  omega

/-- A round of the loop of `ReadText` at a frame, after `n` frames were written; `again` is the next round. -/
def takeFrame (c : Conn) (again : ℕ → Bool → Bytes → ReadText) (n : ℕ) (fragmented : Bool)
    (message : Bytes) (f : WireFrame) (rest : Bytes) : ReadText :=
  if f.op = 0 then
    if fragmented = false then .fail "unexpected websocket continuation frame"
    else if message.length + f.payload.length > maxMessageSize then .fail "websocket message too large"
    else if f.fin then ⟨[], .ok (message ++ f.payload, rest)⟩
    else again n fragmented (message ++ f.payload)
  else if f.op = 1 then
    if fragmented then .fail "new websocket data frame during fragmented message"
    else if f.fin then ⟨[], .ok (f.payload, rest)⟩
    else again n true (message ++ f.payload)
  else if f.op = 2 then .fail "binary websocket messages are not supported"
  else if f.op = 8 then
    if f.payload.length = 1 then .fail "invalid websocket close payload"
    else .after (.close f.payload) (.fail "EOF")
  else if f.op = 9 then
    match c.writeFrame n 10 f.payload with
    | .error e => .fail e
    | .ok () => .after (.pong f.payload) (again (n + 1) fragmented message)
  else if f.op = 10 then .after .handled (again n fragmented message)
  else .fail ("unsupported websocket opcode " ++ toString f.op.toNat)

/-- The loop of `ReadText`. -/
def readTextFrom (c : Conn) (n : ℕ) (fragmented : Bool) (message : Bytes) (bs : Bytes) : ReadText :=
  match _h : readFrame c.isClient bs with
  | .error e => .fail e
  | .ok (f, rest) =>
    takeFrame c (fun n fragmented message => readTextFrom c n fragmented message rest) n fragmented message f rest
termination_by bs.length
decreasing_by exact length_lt_of_readFrame (by assumption)

/-- `ReadText`. -/
def readText (c : Conn) (bs : Bytes) : ReadText := readTextFrom c 0 false [] bs

/-- What the other side sends before the last fragment of a message. -/
inductive Part
  | fragment (payload : Bytes)
  | ping (payload : Bytes)
  | pong (payload : Bytes)

/-- The opcode of a fragment: the first one opens the message, the others continue it. -/
def dataOp (started : Bool) : UInt8 := if started then 0 else 1

namespace Part

/-- The frame of a part; `started` says that a fragment came before. -/
def frame (started : Bool) : Part → WireFrame
  | .fragment p => ⟨false, dataOp started, p⟩
  | .ping p => ⟨true, 9, p⟩
  | .pong p => ⟨true, 10, p⟩

def started (started : Bool) : Part → Bool
  | .fragment _ => true
  | _ => started

/-- The text a part adds. -/
def text : Part → Bytes
  | .fragment p => p
  | _ => []

def effects : Part → List ReadEffect
  | .fragment _ => []
  | .ping p => [.pong p]
  | .pong _ => [.handled]

/-- The frames written after a part, when `n` were written before. -/
def written (n : ℕ) : Part → ℕ
  | .ping _ => n + 1
  | _ => n

/-- The payload that a part asks to be sent back. -/
def pinged : Part → List Bytes
  | .ping p => [p]
  | _ => []

def Short : Part → Prop
  | .fragment _ => True
  | .ping p => p.length ≤ 125
  | .pong p => p.length ≤ 125

end Part

/-- The frames of a message: its parts and its last fragment, each with the key it is masked with. -/
def messageBytes (isClient : Bool) (started : Bool) (parts : List (Part × Mask)) (last : Bytes) (key : Mask) :
    Bytes :=
  match parts with
  | [] => WireFrame.bytes isClient key ⟨true, dataOp started, last⟩
  | (p, k) :: parts => (p.frame started).bytes isClient k ++ messageBytes isClient (p.started started) parts last key

theorem readTextFrom_of_readFrame {c : Conn} {n : ℕ} {fragmented : Bool} {message : Bytes}
    (h : readFrame c.isClient bs = .ok (f, rest)) : readTextFrom c n fragmented message bs =
      takeFrame c (fun n fragmented message => readTextFrom c n fragmented message rest) n fragmented
        message f rest := by
  rw [readTextFrom]
  split
  · rename_i e he
    rw [h] at he
    cases he
  · rename_i f' rest' hok
    obtain ⟨rfl, rfl⟩ := Prod.mk.inj (Except.ok.inj (h.symm.trans hok))
    rfl

section
variable {c : Conn} {n : ℕ} {started : Bool} {message : Bytes}

theorem data_valid (fin : Bool) {payload : Bytes} (hsize : payload.length ≤ maxMessageSize) :
    WireFrame.Valid ⟨fin, dataOp started, payload⟩ := by
  have hop : ∀ b : Bool, dataOp b < 16 ∧ ¬ 8 ≤ dataOp b := by decide
  exact ⟨(hop started).1, fun h => absurd h (hop started).2, hsize⟩

variable {p : Part} {rest : Bytes}

theorem Part.valid (hshort : p.Short) (hsize : p.text.length ≤ maxMessageSize) : (p.frame started).Valid := by
  have hmax : 125 ≤ maxMessageSize := by decide
  have hop : (9 : UInt8) < 16 ∧ (10 : UInt8) < 16 := by decide
  cases p with
  | fragment p => exact data_valid false hsize
  | ping p => exact ⟨hop.1, fun _ => ⟨rfl, hshort⟩, hshort.trans hmax⟩
  | pong p => exact ⟨hop.2, fun _ => ⟨rfl, hshort⟩, hshort.trans hmax⟩

/-- One part is taken in. -/
theorem readTextFrom_part (htransport : ∀ n bs, c.transport n bs = .ok ()) (hfirst : started = false → message = [])
    {k : Mask} (hshort : p.Short) (hsize : message.length + p.text.length ≤ maxMessageSize) :
    readTextFrom c n started message ((p.frame started).bytes (!c.isClient) k ++ rest) =
      ⟨p.effects ++ (readTextFrom c (p.written n) (p.started started) (message ++ p.text) rest).effects,
        (readTextFrom c (p.written n) (p.started started) (message ++ p.text) rest).result⟩ := by
  have hread : readFrame c.isClient ((p.frame started).bytes (!c.isClient) k ++ rest) =
      .ok (p.frame started, rest) :=
    readFrame_eq_ok.mpr ⟨Part.valid hshort (by omega), k, rfl⟩
  rw [readTextFrom_of_readFrame hread, takeFrame]
  cases p with
  | fragment p =>
    cases started with
    | false => rfl
    | true =>
      have hle : ¬ message.length + p.length > maxMessageSize := not_lt.mpr hsize
      simp [Part.frame, dataOp, Part.effects, Part.started, Part.written, Part.text, hle]
  | ping p =>
    have hwrite : c.writeFrame n 10 p = .ok () := by
      have hstart : writeFrameStart c.isClient (c.mask n) 10 p = .ok _ :=
        if_neg fun h => absurd hshort (not_le.mpr h.2)
      rw [Conn.writeFrame, hstart]
      exact htransport n _
    simp [Part.frame, Part.effects, Part.started, Part.written, Part.text, hwrite, ReadText.after]
  | pong p => simp [Part.frame, Part.effects, Part.started, Part.written, Part.text, ReadText.after]

/-- The parts of a message are taken in one after the other, and the last fragment ends it. -/
theorem readTextFrom_message (htransport : ∀ n bs, c.transport n bs = .ok ())
    (hfirst : started = false → message = [])
    {parts : List (Part × Mask)} {last : Bytes} {key : Mask} (hshort : ∀ p ∈ parts, p.1.Short)
    (hsize : (message ++ parts.flatMap (fun p => p.1.text) ++ last).length ≤ maxMessageSize) :
    readTextFrom c n started message (messageBytes (!c.isClient) started parts last key ++ rest) =
      ⟨parts.flatMap fun p => p.1.effects, .ok (message ++ parts.flatMap (fun p => p.1.text) ++ last, rest)⟩ := by
  induction parts generalizing n started message with
  | nil =>
    simp only [List.flatMap_nil, List.append_nil, List.length_append] at hsize ⊢
    have hread : readFrame c.isClient (WireFrame.bytes (!c.isClient) key ⟨true, dataOp started, last⟩ ++ rest) =
        .ok (⟨true, dataOp started, last⟩, rest) := by
      exact readFrame_eq_ok.mpr ⟨data_valid true (by omega), key, rfl⟩
    rw [messageBytes, readTextFrom_of_readFrame hread, takeFrame]
    cases started with
    | false => simp [dataOp, hfirst rfl]
    | true =>
      have hle : ¬ message.length + last.length > maxMessageSize := not_lt.mpr hsize
      simp [dataOp, hle]
  | cons x parts ih =>
    obtain ⟨p, k⟩ := x
    rw [List.forall_mem_cons] at hshort
    simp only [List.flatMap_cons, List.length_append] at hsize
    have hnext : p.started started = false → message ++ p.text = [] := by
      cases p with
      | fragment p => exact nofun
      | ping p | pong p => simpa [Part.started, Part.text] using hfirst
    have hpart : message.length + p.text.length ≤ maxMessageSize := by omega
    rw [messageBytes, List.append_assoc, readTextFrom_part htransport hfirst hshort.1 hpart,
      ih hnext hshort.2 (by simp only [List.length_append]; omega)]
    simp only [List.flatMap_cons, List.append_assoc]

end

/-- The masked payload, byte by byte. -/
theorem WireFrame.getElem?_bytes (mask : Mask) {x : UInt8} {i : ℕ} (h : f.payload[i]? = some x) :
    (f.bytes true mask)[2 + (lengthExtension f.payload.length).length + 4 + i]? = some (x ^^^ mask.byte i) := by
  have happend (key : Bytes) : (lengthExtension f.payload.length ++ (mask.bytes ++ key))[
      (lengthExtension f.payload.length).length + 4 + i]? = key[i]? := by
    rw [List.getElem?_append_right (by omega), List.getElem?_append_right (by simp [Mask.bytes]; omega)]
    simp only [Mask.bytes, List.length_cons, List.length_nil]
    congr 1
    omega
  rw [WireFrame.bytes, show 2 + (lengthExtension f.payload.length).length + 4 + i =
    (lengthExtension f.payload.length).length + 4 + i + 1 + 1 by omega]
  simp only [List.getElem?_cons_succ, if_true, happend, Mask.apply, List.getElem?_mapIdx, h, Option.map_some]

/-- What one side writes the other reads; a message is the concatenation of its fragments, with pings and pongs
anywhere between them; a frame that is read has the shortest length, the masking of its role and, as a control frame,
at most 125 bytes in one piece; and each byte of a masked payload is that of the payload with that of the key in
turn. -/
theorem framing_round_trips :
    (∀ (isClient : Bool) (mask : Mask) (op : UInt8) (payload bytes rest : Bytes), op < 16 →
      payload.length ≤ maxMessageSize → writeFrameStart isClient mask op payload = .ok bytes →
      readFrame (!isClient) (bytes ++ rest) = .ok (⟨true, op, payload⟩, rest)) ∧
    (∀ (c : Conn) (parts : List (Part × Mask)) (last : Bytes) (key : Mask) (rest : Bytes),
      (∀ n bs, c.transport n bs = .ok ()) → (∀ p ∈ parts, p.1.Short) →
      (parts.flatMap (fun p => p.1.text) ++ last).length ≤ maxMessageSize →
      readText c (messageBytes (!c.isClient) false parts last key ++ rest) =
        ⟨parts.flatMap fun p => p.1.effects, .ok (parts.flatMap (fun p => p.1.text) ++ last, rest)⟩) ∧
    (∀ (isClient : Bool) (bs rest : Bytes) (f : WireFrame), readFrame isClient bs = .ok (f, rest) →
      f.Valid ∧ ∃ mask, bs = f.bytes (!isClient) mask ++ rest) ∧
    ∀ (mask : Mask) (f : WireFrame) (i : ℕ) (x : UInt8), f.payload[i]? = some x →
      (f.bytes true mask)[2 + (lengthExtension f.payload.length).length + 4 + i]? = some (x ^^^ mask.byte i) := by
  refine ⟨?_, ?_, fun isClient bs rest f h => readFrame_eq_ok.mp h, fun mask f i x h => f.getElem?_bytes mask h⟩
  · intro isClient mask op payload bytes rest hop hsize hwrite
    unfold writeFrameStart at hwrite
    split_ifs at hwrite with hcontrol
    cases hwrite
    refine readFrame_eq_ok.mpr ⟨⟨hop, fun h => ⟨rfl, ?_⟩, hsize⟩, mask, by rw [Bool.not_not]⟩
    exact not_lt.mp (not_and.mp hcontrol h)
  · intro c parts last key rest htransport hshort hsize
    exact readTextFrom_message htransport (fun _ => rfl) hshort hsize

theorem framing_round_trips_hi :
    let mask : Mask := ⟨1, 2, 3, 4⟩
    let c : Conn := ⟨false, fun _ => mask, fun _ _ => .ok ()⟩
    let bytes := [129, 130, 1, 2, 3, 4, 105, 107]
    (writeFrameStart true mask 1 [104, 105] = .ok bytes ∧ readFrame false (bytes ++ [7]) =
      .ok (⟨true, 1, [104, 105]⟩, [7])) ∧
    readText c (messageBytes true false [(.fragment [104], mask), (.ping [1], mask)] [105] mask ++ [7]) =
      ⟨[.pong [1]], .ok ([104, 105], [7])⟩ ∧
    (WireFrame.Valid ⟨true, 9, [1]⟩ ∧ ∃ mask, [137, 1, 1] = WireFrame.bytes false mask ⟨true, 9, [1]⟩ ++ []) ∧
    (WireFrame.bytes true mask ⟨true, 1, [104, 105]⟩)[7]? = some (105 ^^^ 2) := by
  intro mask c bytes
  obtain ⟨hframe, htext, hstrict, hmasked⟩ := framing_round_trips
  refine ⟨⟨by decide, hframe true mask 1 [104, 105] bytes [7] (by decide) (by decide) (by decide)⟩, ?_, ?_, ?_⟩
  · exact htext c [(.fragment [104], mask), (.ping [1], mask)] [105] mask [7] (fun _ _ => rfl)
      (by simp [Part.Short]) (by decide)
  · exact hstrict true [137, 1, 1] [] ⟨true, 9, [1]⟩ (by decide)
  · exact hmasked mask ⟨true, 1, [104, 105]⟩ 1 105 rfl

/-! ### What is read was written -/

section
variable {c : Conn} {n : ℕ} {started : Bool} {message bs msg rest : Bytes} {effects : List ReadEffect}

theorem ReadText.eq_of_after {e : ReadEffect} {r : ReadText} {result : Except String (Bytes × Bytes)}
    (h : r.after e = ⟨effects, result⟩) : ∃ es, effects = e :: es ∧ r = ⟨es, result⟩ := by
  cases h
  exact ⟨r.effects, rfl, rfl⟩

/-- The frames of a message that was read, from a frame of it on. -/
structure Spelled (c : Conn) (n : ℕ) (started : Bool) (message bs : Bytes) (effects : List ReadEffect)
    (msg rest : Bytes) (parts : List (Part × Mask)) (last : Bytes) (key : Mask) : Prop where
  bytes : bs = messageBytes (!c.isClient) started parts last key ++ rest
  text : msg = message ++ parts.flatMap (fun p => p.1.text) ++ last
  size : msg.length ≤ maxMessageSize
  effects : effects = parts.flatMap fun p => p.1.effects
  short : ∀ p ∈ parts, p.1.Short
  answered : ∀ i p, (parts.flatMap fun p => p.1.pinged)[i]? = some p → c.writeFrame (n + i) 10 p = .ok ()

theorem Spelled.cons {p : Part} {k : Mask} {es : List ReadEffect} {parts : List (Part × Mask)} {last : Bytes}
    {key : Mask} (h : Spelled c (p.written n) (p.started started) (message ++ p.text) bs es msg rest parts last key)
    (hshort : p.Short) (hanswered : ∀ q, p = .ping q → c.writeFrame n 10 q = .ok ()) :
    Spelled c n started message ((p.frame started).bytes (!c.isClient) k ++ bs) (p.effects ++ es) msg rest
      ((p, k) :: parts) last key where
  bytes := by rw [h.bytes, messageBytes, List.append_assoc]
  text := by rw [h.text, List.flatMap_cons, List.append_assoc message]
  size := h.size
  effects := by rw [h.effects, List.flatMap_cons]
  short := List.forall_mem_cons.mpr ⟨hshort, h.short⟩
  answered i q hi := by
    have hrest := h.answered
    rw [List.flatMap_cons] at hi
    cases p with
    | fragment p => exact hrest i q hi
    | pong p => exact hrest i q hi
    | ping p =>
      cases i with
      | zero => exact hanswered q (congrArg Part.ping (Option.some.inj hi))
      | succ i =>
        rw [Nat.add_comm i, ← Nat.add_assoc]
        exact hrest i q hi

/-- A loop that returns a message has read its frames and nothing else. -/
theorem exists_spelled (hfirst : started = false → message = [])
    (h : readTextFrom c n started message bs = ⟨effects, .ok (msg, rest)⟩) :
    ∃ parts last key, Spelled c n started message bs effects msg rest parts last key := by
  induction hlen : bs.length using Nat.strong_induction_on generalizing n started message bs effects with
  | _ len ih =>
  subst hlen
  cases hread : readFrame c.isClient bs with
  | error e =>
    rw [readTextFrom] at h
    split at h
    · cases h
    · rename_i hok
      rw [hread] at hok
      cases hok
  | ok x =>
    obtain ⟨⟨fin, op, payload⟩, bs'⟩ := x
    have hlt := length_lt_of_readFrame hread
    rw [readTextFrom_of_readFrame hread, takeFrame] at h
    obtain ⟨hvalid, k, rfl⟩ := readFrame_eq_ok.mp hread
    have hlast (hop : op = dataOp started) (hfin : fin = true)
        (hsize : (message ++ payload).length ≤ maxMessageSize) : ∃ parts last key, Spelled c n started message
          (WireFrame.bytes (!c.isClient) k ⟨fin, op, payload⟩ ++ bs') []
            (message ++ payload) bs' parts last key := by
      subst hop hfin
      exact ⟨[], payload, k, rfl, by simp, hsize, rfl, by simp, by simp⟩
    have hnext (p : Part) (es : List ReadEffect) (hframe : p.frame started = ⟨fin, op, payload⟩)
        (hmessage : p.started started = false → message ++ p.text = []) (hshort : p.Short)
        (hanswered : ∀ q, p = .ping q → c.writeFrame n 10 q = .ok ())
        (hrest : readTextFrom c (p.written n) (p.started started) (message ++ p.text) bs' = ⟨es, .ok (msg, rest)⟩) :
        ∃ parts last key, Spelled c n started message (WireFrame.bytes (!c.isClient) k ⟨fin, op, payload⟩ ++ bs')
          (p.effects ++ es) msg rest parts last key := by
      obtain ⟨parts, last, key, hspelled⟩ := ih _ hlt hmessage hrest rfl
      rw [← hframe]
      exact ⟨_, last, key, hspelled.cons hshort hanswered⟩
    dsimp only at h
    split_ifs at h with h0 hfrag hsize hfin h1 hfrag hfin h2 h8 hlen h9 h10
    · cases h
    · cases h
    · cases h
      rw [Bool.not_eq_false] at hfrag
      exact hlast (by rw [hfrag]; exact h0) hfin (by simpa using hsize)
    · rw [Bool.not_eq_false] at hfrag
      subst hfrag h0
      refine hnext (.fragment payload) effects ?_ nofun trivial nofun h
      simpa [Part.frame, dataOp] using hfin
    · cases h
    · cases h
      rw [Bool.not_eq_true] at hfrag
      have hempty := hfirst hfrag
      subst hempty hfrag
      exact hlast h1 hfin hvalid.size
    · rw [Bool.not_eq_true] at hfrag
      subst hfrag h1
      refine hnext (.fragment payload) effects ?_ nofun trivial nofun h
      simpa [Part.frame, dataOp] using hfin
    · cases h
    · cases h
    · cases h
    · subst h9
      obtain ⟨rfl, hshort⟩ := hvalid.control (show (8 : UInt8) ≤ 9 by decide)
      cases hwrite : c.writeFrame n 10 payload with
      | error e =>
        rw [hwrite] at h
        cases h
      | ok _ =>
        rw [hwrite] at h
        obtain ⟨es, rfl, hrest⟩ := ReadText.eq_of_after h
        refine hnext (.ping payload) es rfl ?_ hshort ?_ ?_
        · simpa [Part.started, Part.text] using hfirst
        · rintro q ⟨⟩
          exact hwrite
        · simpa [Part.started, Part.written, Part.text] using hrest
    · subst h10
      obtain ⟨rfl, hshort⟩ := hvalid.control (show (8 : UInt8) ≤ 10 by decide)
      obtain ⟨es, rfl, hrest⟩ := ReadText.eq_of_after h
      refine hnext (.pong payload) es rfl ?_ hshort nofun ?_
      · simpa [Part.started, Part.text] using hfirst
      · simpa [Part.started, Part.written, Part.text] using hrest
    · cases h

/-- A message that is returned stood in the bytes as one sequence of frames, whole and within the limit, and every
ping before its end has been answered. -/
theorem readText_spells_message (h : readText c bs = ⟨effects, .ok (msg, rest)⟩) :
    ∃ parts last key, Spelled c 0 false [] bs effects msg rest parts last key :=
  exists_spelled (fun _ => rfl) h

end

theorem readText_spells_message_hi :
    let mask : Mask := ⟨1, 2, 3, 4⟩
    let bs := messageBytes true false [(.fragment [104], mask), (.ping [1], mask)] [105] mask ++ [7]
    ∃ parts last key, Spelled ⟨false, fun _ => mask, fun _ _ => .ok ()⟩ 0 false [] bs [.pong [1]] [104,
      105] [7] parts last key :=
  readText_spells_message (readTextFrom_message (fun _ _ => rfl) (fun _ => rfl) (by simp [Part.Short]) (by decide))

end Onprest.Ws
