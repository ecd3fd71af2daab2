import Onprest.Lib.Base64

/-! The part of the internal input/transfer protocol that the transfer engine reads and writes. -/

namespace Onprest.Protocol
open Lib

def chunkBytes : ℕ := 65536
def transferWindow : ℤ := 4
def connectionWindow : ℤ := 32

/-- The frame kinds of the protocol table; `unsupported` is any other type text. -/
inductive FrameType
  | requestBegin | requestAccept | inputOpen | inputAccept | inputReady | requestCommit
  | transferOpen | transferChunk | transferEnd | transferCancel | ack
  | unsupported (name : String)
deriving DecidableEq, Repr

/-- The fields of a frame that the transfer engine and its callbacks use. -/
structure Frame where
  type : FrameType
  id : String := ""
  transferID : String := ""
  sequence : ℤ := 0
  dataBase64 : List Char := []
  size : ℤ := 0
  sha256 : String := ""
deriving DecidableEq, Repr

/-- The frames that grant initial credit; the session handles them outside the transfer engine. -/
def Frame.isGrant (f : Frame) : Bool := f.type = .inputAccept || f.type = .transferOpen

def validID (id : String) : Bool :=
  id ≠ "" && id.utf8ByteSize ≤ 256 && !id.toList.contains '\x00'

/-- Decode the chunk body, accepting only the canonical encoding of 1 to `chunkBytes` bytes. -/
def Frame.chunk (f : Frame) : Option (List UInt8) :=
  if f.dataBase64.length > Base64.encodedLen chunkBytes then none
  else
    match Base64.decode f.dataBase64 with
    | none => none
    | some b =>
      if b.length = 0 || b.length > chunkBytes || Base64.encode b ≠ f.dataBase64 then none else some b

variable {f : Frame} {b : List UInt8}

/-- A chunk frame written by the engine carries its bytes unchanged. -/
theorem Frame.chunk_encode (hdata : f.dataBase64 = Base64.encode b) (hne : b ≠ []) (hlen : b.length ≤ chunkBytes) :
    f.chunk = some b := by
  have hbound : (Base64.encode b).length ≤ Base64.encodedLen chunkBytes := by
    rw [Base64.encode_length]
    exact Base64.encodedLen_mono hlen
  have hpos : b.length ≠ 0 := by simpa using hne
  rw [Frame.chunk, hdata, if_neg (by omega), Base64.decode_encode]
  simp [hpos, hlen]

end Onprest.Protocol
