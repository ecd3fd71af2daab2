import Mathlib.Algebra.GroupWithZero.Nat
import Mathlib.Data.Int.Notation
import Onprest.Filesystem.Disk

/-! Publishing and removing the temporary files below a pinned directory. Between the calls no other process changes
the directory, so that an exchange displaces the file that was inspected just before; the directory is open, so the
branches of a closed one are left out. -/

namespace Onprest.Filesystem

open Onprest.Lib.Crash
open Onprest.Lib.Crash.Prog

inductive Code
  | validationFailed | conflict | sourceChanged
  deriving DecidableEq, Repr

/-- What `errors.Is` and `errors.As` find in an error of this package. -/
inductive Cause
  | coded (c : Code)
  | invalid | permission | notExist | exist | unsupported | canceled | os
  deriving DecidableEq, Repr

/-- An error is the join of its causes. -/
abbrev Err := List Cause

abbrev Fs := Prog Disk Err

/-- What the platform decides: the user of the process, and whether an existing destination can be replaced
atomically. -/
structure Host where
  euid : String
  replaceSupported : Bool

structure FileIdentity where
  identity : Identity
  size : ℤ
  owner : String
  mode : ℕ
  modified : ℕ
  changed : ℕ
  deriving DecidableEq, Repr

/-- The change time is left out: an exchange changes it. -/
def FileIdentity.matchesDisplaced (v i : FileIdentity) : Bool :=
  v.identity = i.identity && v.owner = i.owner && v.mode = i.mode && v.size = i.size && v.modified = i.modified

def changed (e : Err) : Err := .coded .sourceChanged :: e

/-! ### Names -/

def tempStart : Name := ".onprest-".toList
def tempEnd : Name := ".tmp".toList

def hexDigit (c : Char) : Bool := '0' ≤ c && c ≤ '9' || 'a' ≤ c && c ≤ 'f'

def validTempName (s : Name) : Bool :=
  tempStart.isPrefixOf s && s.length = tempStart.length + 32 + tempEnd.length && tempEnd.isSuffixOf s &&
    ((s.drop tempStart.length).take 32).all hexDigit

def isControl (c : Char) : Bool := c.toNat < 0x20 || 0x7f ≤ c.toNat && c.toNat < 0xa0

def byteLength (s : Name) : ℕ := (s.map Char.utf8Size).sum

def validateBasename (s : Name) : Bool :=
  1 ≤ byteLength s && byteLength s ≤ 255 && s ≠ ['.'] && s ≠ ['.', '.'] && !s.contains '/' && !s.contains '\\' &&
    !s.any isControl

/-- Upper case as far as the reserved names depend on it: the dotless i is the only other letter that
becomes one of theirs. -/
def toUpper (c : Char) : Char := if c = 'ı' then 'I' else c.toUpper

def reservedBases : List Name :=
  ["CON", "PRN", "AUX", "NUL", "CONIN$", "CONOUT$"].map String.toList ++
    ["COM", "LPT"].flatMap fun p =>
      ["1", "2", "3", "4", "5", "6", "7", "8", "9", "¹", "²", "³"].map fun n => p.toList ++ n.toList

/-- A name under which a file may be published. -/
def saveName (s : Name) : Except Err Unit :=
  if !validateBasename s then .error [.coded .validationFailed]
  else if tempStart.isPrefixOf (s.map Char.toLower) || s.any (":<>\"|?*".toList.contains ·) ||
      s.getLast? = some '.' || s.getLast? = some ' ' then
    .error [.coded .validationFailed, .invalid]
  else if reservedBases.contains ((s.takeWhile (· ≠ '.')).map toUpper) then
    .error [.coded .validationFailed, .invalid]
  else .ok ()

/-! ### Calls to the system -/

/-- A call that changes nothing. -/
def ask {α : Type} (f : Disk → Except Err α) : Fs α := step (fun _ k => (f k, k)) (fun _ k => ([.os], k))

/-- A call that changes one thing or reports an error. -/
def change (f : ℕ → Disk → Except Err Disk) : Fs Unit :=
  step (fun n k => match f n k with
    | .ok k' => (.ok (), k')
    | .error e => (.error e, k))
    (fun _ k => ([.os], k))

def ctxErr : Fs Unit := step (fun _ k => (.ok (), k)) (fun _ k => ([.canceled], k))

/-- Closing a handle, or any other call that can only fail. -/
def close : Fs Unit := ask fun _ => .ok ()

def openBelow (d : Identity) (name : Name) : Fs Identity :=
  ask fun k => match k.now d name with
    | some i => .ok i
    | none => .error [.notExist]

def privateTemp (h : Host) (f : File) : Bool := f.owner = h.euid && f.mode % 64 = 0

def File.identify (f : File) (i : Identity) : FileIdentity :=
  { identity := i, size := f.content.length, owner := f.owner, mode := f.mode, modified := f.modified,
    changed := f.changed }

def inspectRegular (h : Host) (i : Identity) (isPrivate : Bool) : Fs FileIdentity :=
  ask fun k => match k.files i with
    | none => .error [.os]
    | some f =>
      if !f.regular || f.links ≠ 1 then .error [.permission]
      else if isPrivate && !privateTemp h f then .error [.permission]
      else .ok (f.identify i)

def renameExclusive (d : Identity) (a b : Name) : Fs Unit :=
  change fun n k => match k.now d a with
    | none => .error [.notExist]
    | some i => if (k.now d b).isSome then .error [.exist] else .ok ((k.exchange d a b).stamp [i] n)

def renameExchange (d : Identity) (a b : Name) : Fs Unit :=
  change fun n k => match k.now d a, k.now d b with
    | some i, some j => .ok ((k.exchange d a b).stamp [i, j] n)
    | _, _ => .error [.notExist]

def syncDirectory (d : Identity) : Fs Unit := change fun _ k => .ok (k.syncFolder d)

def unlinkBelow (d : Identity) (name : Name) (f : Identity) : Fs Unit := do
  let current ← openBelow d name
  close
  if f ≠ current then fail [.permission]
  else change fun _ k => .ok (k.unlink d name)

/-! ### The directory's operations -/

/-- The file under a name is the temporary file, complete. -/
def verify (h : Host) (d : Identity) (name : Name) (temporary : FileIdentity) : Fs Unit := do
  match ← attempt (openBelow d name) with
  | .error e => fail (changed e)
  | .ok f =>
    match ← attempt (do let v ← inspectRegular h f true; close; pure v) with
    | .error e => fail (changed (e ++ [.permission]))
    | .ok actual =>
      if actual.identity ≠ temporary.identity ∨ actual.owner ≠ temporary.owner ∨ actual.size ≠ temporary.size then
        fail (changed [.permission])
      else pure ()

def publishBelow (h : Host) (d : Identity) (temp name : Name) (overwrite : Bool) (expected : Option FileIdentity) :
    Fs (Bool × Option Err) :=
  match overwrite, expected with
  | true, some x => do
    if !h.replaceSupported then pure (false, some [.unsupported])
    else
      match ← attempt (do let f ← openBelow d name; let v ← inspectRegular h f false; close; pure v) with
      | .error e => pure (false, some (changed e))
      | .ok v =>
        if v ≠ x then pure (false, some (changed [.permission]))
        else
          match ← attempt (renameExchange d temp name) with
          | .error e => pure (false, some e)
          | .ok () =>
            match ← attempt (openBelow d temp) with
            | .error e => pure (true, some (changed e))
            | .ok f =>
              match ← attempt (do let v ← inspectRegular h f false; close; pure v) with
              | .error e => pure (true, some (changed (e ++ [.permission])))
              | .ok v =>
                if v.matchesDisplaced x then pure (true, none) else pure (true, some (changed [.permission]))
  | _, _ => do
    match ← attempt (renameExclusive d temp name) with
    | .error e => pure (false, some (if .exist ∈ e then .coded .conflict :: e else e))
    | .ok () => pure (true, none)

/-- What is checked of a file that was installed without an error. -/
def confirm (h : Host) (d : Identity) (name : Name) (temporary : FileIdentity) : Option Err → Fs (Option Err)
  | some e => pure (some e)
  | none => do
    match ← attempt (do verify h d name temporary; syncDirectory d) with
    | .error e => pure (some e)
    | .ok () => pure none

/-- The pin of an installed file is closed last. -/
def releasePin (installed : Bool) (e : Option Err) : Fs (Bool × Option Err) := do
  if !installed then pure (false, e)
  else
    match ← attempt close with
    | .error p => pure (true, some (e.getD [] ++ p))
    | .ok () => pure (true, e)

/-- Whether the file was installed under its name, and the error. -/
def publish (h : Host) (d : Identity) (temp name : Name) (overwrite : Bool) (temporary : FileIdentity)
    (expected : Option FileIdentity) : Fs (Bool × Option Err) := do
  match ← attempt (do
      ctxErr
      if !validTempName temp then fail [.invalid]
      else do
        ofExcept (saveName name)
        verify h d temp temporary
        close) with
  | .error e => pure (false, some e)
  | .ok () =>
    let (installed, e) ← publishBelow h d temp name overwrite expected
    releasePin installed (← confirm h d name temporary e)

/-- The file under a temporary name is one of those it may be. -/
def tempMatches (v : FileIdentity) (identities : List FileIdentity) : Bool :=
  identities.any fun i =>
    v.identity = i.identity && v.owner = i.owner &&
      (some i.identity = identities.head?.map FileIdentity.identity || v.matchesDisplaced i)

/-- The checks of `RemoveTemp` on what it found. -/
def removable (v : FileIdentity) (identities : List FileIdentity) (emptyOnly : Bool) : Bool :=
  (!emptyOnly || v.size = 0) && (identities.isEmpty || tempMatches v identities)

def removeTemp (h : Host) (d : Identity) (name : Name) (identities : List FileIdentity)
    (emptyOnly : Bool) : Fs Unit := do
  if !validTempName name then fail [.invalid]
  else
    match ← attempt (openBelow d name) with
    | .error e => if e = [.notExist] then close else fail e
    | .ok f =>
      let v ← inspectRegular h f (emptyOnly || identities.isEmpty)
      if !removable v identities emptyOnly then fail [.permission]
      else do
        close
        if some v.identity = identities.head?.map FileIdentity.identity then do
          let _ ← inspectRegular h f true
        unlinkBelow d name f
        close
        close

end Onprest.Filesystem
