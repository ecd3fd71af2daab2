import Mathlib.Algebra.BigOperators.Group.List.Basic
import Mathlib.Algebra.GroupWithZero.Nat
import Mathlib.Data.List.Infix
import Mathlib.Tactic.SplitIfs
import Onprest.Lib.Utf8Start

/-! `diagnostics.go`: the standard streams and log calls of a worker as log records. The sink is the list of the
records it was given. -/

namespace Onprest.Wasm
open Lib

inductive Level
  | debug | info | warn | error
deriving DecidableEq, Repr

inductive Event
  | wasmStdout | wasmStderr | wasmLog | logTruncated | invalidLogLevel | wasmFailed | wasmStderrTail
deriving DecidableEq, Repr

structure Record where
  level : Level
  event : Event
  message : Bytes
  detail : Bytes := []
deriving DecidableEq, Repr

structure Diagnostics where
  raw : ℕ := 0
  truncated : Bool := false
  stdout : Bytes := []
  stderr : Bytes := []
  tail : Bytes := []
  records : List Record := []
deriving DecidableEq, Repr

def text (s : String) : Bytes := encodeUtf8 s.toList

/-- `16<<10`. -/
def maxMessage : ℕ := 16384

/-- The constant `Chunk`. -/
def maxTail : ℕ := 65536

def utf8Cut (b : Bytes) (n : ℕ) : ℕ :=
  if b.length ≤ n then b.length else if lastStart b n = 0 then 1 else lastStart b n

def completeUTF8Prefix (b : Bytes) (n : ℕ) : ℕ :=
  if n = 0 then 0
  else if fullRune ((b.take n).drop (lastStart b (n - 1))) then n else lastStart b (n - 1)

/-- The characters with each run of bytes that start none replaced; the flag says that the last byte was one. -/
def replaceInvalid : Bool → List (Char ⊕ UInt8) → List Char
  | _, [] => []
  | _, .inl c :: rs => c :: replaceInvalid false rs
  | true, .inr _ :: rs => replaceInvalid true rs
  | false, .inr _ :: rs => '�' :: replaceInvalid true rs

/-- `strings.ToValidUTF8` with the replacement character. -/
def toValidUTF8 (b : Bytes) : Bytes := encodeUtf8 (replaceInvalid false (decodeRunes b))

variable {b p : Bytes} {cs : List Char}

theorem utf8Cut_pos (h : b ≠ []) (n : ℕ) : 0 < utf8Cut b n := by
  rw [utf8Cut]
  split_ifs with hle hzero
  · exact List.length_pos_of_ne_nil h
  · exact Nat.one_pos
  · exact Nat.pos_of_ne_zero hzero

/-- The records of one message. -/
def pieces (m : Bytes) : List Bytes :=
  if maxMessage < m.length then m.take (utf8Cut m maxMessage) :: pieces (m.drop (utf8Cut m maxMessage)) else [m]
termination_by m.length
decreasing_by
  rename_i h
  have hpos := utf8Cut_pos (List.ne_nil_of_length_pos (Nat.zero_lt_of_lt h)) maxMessage
  rw [List.length_drop]
  omega

/-- One round of the loop of `flush`: the bytes of the message and those that stay, unless the loop returns. -/
def flushRound (buf : Bytes) (final : Bool) : Option (Bytes × Bytes) :=
  let cut (n consume : ℕ) : Option (Bytes × Bytes) :=
    if maxMessage < n then some (buf.take (utf8Cut buf maxMessage), buf.drop (utf8Cut buf maxMessage))
    else some (buf.take n, buf.drop consume)
  match buf.findIdx? (· = 10) with
  | some n => cut n (n + 1)
  | none =>
    if buf.length < maxMessage ∧ final = false then none
    else if final then cut buf.length buf.length
    else if completeUTF8Prefix buf buf.length = 0 then none
    else cut (completeUTF8Prefix buf buf.length) (completeUTF8Prefix buf buf.length)

theorem lastStart_le (b : Bytes) (n : ℕ) : lastStart b n ≤ n := by
  induction n with
  | zero => exact Nat.le_refl 0
  | succ n ih =>
    rw [lastStart]
    split_ifs
    · exact Nat.le_refl _
    · exact Nat.le_succ_of_le ih

theorem utf8Cut_le {n : ℕ} (hn : n ≠ 0) : utf8Cut b n ≤ n := by
  have := lastStart_le b n
  rw [utf8Cut]
  split_ifs <;> omega

theorem completeUTF8Prefix_le (b : Bytes) (n : ℕ) : completeUTF8Prefix b n ≤ n := by
  have := lastStart_le b (n - 1)
  rw [completeUTF8Prefix]
  split_ifs <;> omega

/-- What a round can do: give a line, give what is before the size limit, or give all it may. -/
inductive Round (buf : Bytes) (final : Bool) : Bytes → Bytes → Prop
  | line {x y : Bytes} (h : buf = x ++ 10 :: y) (hx : 10 ∉ x) (hlen : x.length ≤ maxMessage) :
      Round buf final x y
  | cut (hlen : maxMessage < buf.length) (hno : 10 ∉ buf.take maxMessage) :
      Round buf final (buf.take (utf8Cut buf maxMessage)) (buf.drop (utf8Cut buf maxMessage))
  | whole {n : ℕ} (hno : 10 ∉ buf) (hn : n = if final then buf.length else completeUTF8Prefix buf buf.length)
      (hpos : n ≠ 0)
      (hlen : n ≤ maxMessage) : Round buf final (buf.take n) (buf.drop n)

theorem flushRound_eq (hne : buf ≠ []) (h : flushRound buf final = some (m, rest)) : Round buf final m rest := by
  rw [flushRound] at h
  dsimp only at h
  rcases hidx : buf.findIdx? (· = 10) with _ | n
  · have hno : 10 ∉ buf := fun hmem => by simpa using List.findIdx?_eq_none_iff.mp hidx 10 hmem
    rw [hidx] at h
    have hcomplete := completeUTF8Prefix_le buf buf.length
    have hall : buf.length ≠ 0 := (List.length_pos_of_ne_nil hne).ne'
    dsimp only at h
    split_ifs at h with hwait hfinal hlong hzero hlong
    · cases h
      exact .cut hlong fun hmem => hno (List.mem_of_mem_take hmem)
    · cases h
      exact .whole hno (by rw [if_pos hfinal]) hall (not_lt.mp hlong)
    · cases h
      exact .cut (hlong.trans_le hcomplete) fun hmem => hno (List.mem_of_mem_take hmem)
    · cases h
      exact .whole hno (by rw [if_neg hfinal]) hzero (not_lt.mp hlong)
  · obtain ⟨hlt, hat, hbefore⟩ := List.findIdx?_eq_some_iff_getElem.mp hidx
    have hat : buf[n] = 10 := by simpa using hat
    have hno : 10 ∉ buf.take n := fun hmem => by
      obtain ⟨i, hi, heq⟩ := List.mem_take_iff_getElem.mp hmem
      have := hbefore i (by omega)
      simp [heq] at this
    rw [hidx] at h
    dsimp only at h
    split_ifs at h with hlong
    · cases h
      refine .cut (hlong.trans hlt) fun hmem => hno ?_
      rw [← Nat.min_eq_left hlong.le, ← List.take_take] at hmem
      exact List.mem_of_mem_take hmem
    · cases h
      refine .line ?_ hno (by rw [List.length_take]; omega)
      rw [← hat, ← List.drop_eq_getElem_cons hlt, List.take_append_drop]

variable {buf m rest : Bytes} {final : Bool}

/-- A round takes its message, and a line feed, out of the buffer. -/
theorem Round.length (h : Round buf final m rest) : m.length + rest.length ≤ buf.length := by
  cases h with
  | line h => simp [h]
  | cut | whole => rw [List.length_take, List.length_drop]; omega

/-- Every round consumes something. -/
theorem Round.decreases (hne : buf ≠ []) (h : Round buf final m rest) : rest.length < buf.length := by
  have hpos := List.length_pos_of_ne_nil hne
  cases h with
  | line h =>
    simp [h]
    omega
  | cut =>
    have := utf8Cut_pos hne maxMessage
    rw [List.length_drop]
    omega
  | whole _ _ hzero =>
    rw [List.length_drop]
    omega

theorem flushRound_final (buf : Bytes) : flushRound buf true ≠ none := by
  rw [flushRound]
  dsimp only
  rcases hidx : buf.findIdx? (· = 10) with _ | n
  · rw [hidx]
    simp only [reduceCtorEq, and_false, if_false, if_true]
    split_ifs <;> exact Option.some_ne_none _
  · rw [hidx]
    dsimp only
    split_ifs <;> exact Option.some_ne_none _

/-- `flush`: the messages, cut into records, and what stays in the buffer. -/
def flush (buf : Bytes) (final : Bool) : List Bytes × Bytes :=
  if _hne : buf = [] then ([], [])
  else
    match _h : flushRound buf final with
    | none => ([], buf)
    | some (m, rest) => (pieces (toValidUTF8 m) ++ (flush rest final).1, (flush rest final).2)
termination_by buf.length
decreasing_by all_goals exact (flushRound_eq _hne _h).decreases _hne

/-- A property of what `flush` starts with and gives, from its rounds. -/
theorem flush_induct {motive : Bytes → List Bytes → Bytes → Prop} (final : Bool) (hnil : motive [] [] [])
    (hwait : ∀ buf, buf ≠ [] → final = false → motive buf [] buf)
    (hround : ∀ buf m rest ms left, Round buf final m rest → motive rest ms left →
      motive buf (pieces (toValidUTF8 m) ++ ms) left) (buf : Bytes) :
    motive buf (flush buf final).1 (flush buf final).2 := by
  induction hlen : buf.length using Nat.strongRecOn generalizing buf with
  | _ n ih =>
    subst hlen
    rw [flush]
    split_ifs with hne
    · rw [hne]
      exact hnil
    · split
      · rename_i hnone
        refine hwait buf hne (Bool.eq_false_iff.mpr ?_)
        rintro rfl
        exact flushRound_final buf hnone
      · rename_i m rest hsome
        have hr := flushRound_eq hne hsome
        exact hround _ _ _ _ _ hr (ih _ (hr.decreases hne) rest rfl)

/-! ### Records -/

namespace Diagnostics

def record (d : Diagnostics) (r : Record) : Diagnostics := { d with records := d.records ++ [r] }

/-- The records of a flush. -/
def emit (d : Diagnostics) (level : Level) (event : Event) (ms : List Bytes) : Diagnostics :=
  { d with records := d.records ++ ms.map fun m => { level := level, event := event, message := m } }

def reserve (d : Diagnostics) (n : ℕ) : ℕ × Diagnostics :=
  let accepted := min n (2 ^ 20 - d.raw)
  let d := { d with raw := d.raw + accepted }
  if accepted < n ∧ d.truncated = false then
    (accepted, { d with truncated := true }.record
      { level := .warn, event := .logTruncated, message := text "Wasm diagnostics exceeded the raw byte budget" })
  else (accepted, d)

/-- The last bytes of stderr that are kept for a failure. -/
def lastBytes (b : Bytes) : Bytes := b.drop (b.length - maxTail)

def buffer (d : Diagnostics) (stderr : Bool) : Bytes := if stderr then d.stderr else d.stdout

/-- `flush` of `b` as the buffer of a stream. -/
def flushStream (d : Diagnostics) (stderr : Bool) (b : Bytes) (final : Bool) : Diagnostics :=
  let (ms, rest) := flush b final
  if stderr then { d with stderr := rest }.emit .warn .wasmStderr ms
  else { d with stdout := rest }.emit .info .wasmStdout ms

def stream (d : Diagnostics) (stderr : Bool) (b : Bytes) : Diagnostics :=
  let d := if stderr then { d with tail := lastBytes (d.tail ++ b) } else d
  let (n, d) := d.reserve b.length
  d.flushStream stderr (d.buffer stderr ++ b.take n) false

/-- `log`; `none` is a level that is no level. -/
def log (d : Diagnostics) (level : Option Level) (message : Bytes) : Diagnostics :=
  let (n, d) := d.reserve message.length
  if n = 0 ∧ 0 < message.length then d
  else
    match level with
    | none => d.record { level := .warn, event := .invalidLogLevel, message := text "invalid diagnostic log level" }
    | some level => d.emit level .wasmLog (flush (message.take n) true).1

/-- The records of the tail of stderr. -/
def tailPieces (tail : Bytes) : List Bytes :=
  if _h : tail = [] then []
  else tail.take (utf8Cut tail maxMessage) :: tailPieces (tail.drop (utf8Cut tail maxMessage))
termination_by tail.length
decreasing_by
  have hpos := utf8Cut_pos _h maxMessage
  have hlen := List.length_pos_of_ne_nil _h
  rw [List.length_drop]
  omega

def finish (d : Diagnostics) (reason : Bytes) : Diagnostics :=
  let d := d.flushStream false d.stdout true
  let d := d.flushStream true d.stderr true
  if reason = [] then d
  else
    let reason := toValidUTF8 reason
    let reason := if maxMessage < reason.length then reason.take (utf8Cut reason maxMessage) else reason
    let d := d.record
      { level := .error, event := .wasmFailed, message := text "Wasm worker failed", detail := reason }
    { d with records := d.records ++ (tailPieces (toValidUTF8 d.tail)).map fun m =>
        { level := .error, event := .wasmStderrTail, message := text "Wasm worker stderr tail", detail := m } }

end Diagnostics

/-- What a worker does with its diagnostics. -/
inductive Output
  | write (stderr : Bool) (b : Bytes)
  | log (level : Option Level) (message : Bytes)
deriving DecidableEq, Repr

namespace Output

def bytes : Output → Bytes
  | write _ b => b
  | log _ message => message

/-- The bytes for one of the streams. -/
def on (stderr : Bool) : Output → Bytes
  | write s b => if s = stderr then b else []
  | log _ _ => []

end Output

namespace Diagnostics

def output (d : Diagnostics) : Output → Diagnostics
  | .write stderr b => d.stream stderr b
  | .log level message => d.log level message

def run (d : Diagnostics) (os : List Output) : Diagnostics := os.foldl output d

/-- The messages of an event. -/
def messages (d : Diagnostics) (event : Event) : List Bytes :=
  (d.records.filter (·.event = event)).map (·.message)

/-- The details with which a failed worker's stderr is logged again. -/
def tailDetails (d : Diagnostics) : List Bytes :=
  (d.records.filter (·.event = .wasmStderrTail)).map (·.detail)

/-- The bytes logged for the output of the worker as it is taken, without the details of a failure. -/
def logged (d : Diagnostics) : ℕ :=
  ([.wasmStdout, .wasmStderr, .wasmLog].map fun e => (d.messages e).flatten.length).sum

def eventOf (stderr : Bool) : Event := if stderr then .wasmStderr else .wasmStdout

end Diagnostics

/-! ### Any bytes -/

/-- A text that a record can hold. -/
def Loggable (m : Bytes) : Prop := m.length ≤ maxMessage ∧ ∃ cs, m = encodeUtf8 cs

/-- A cut falls between characters. -/
theorem utf8Cut_encode (hp : Partial p) (h : maxMessage < (encodeUtf8 cs ++ p).length) :
    ∃ ds es, cs = ds ++ es ∧ utf8Cut (encodeUtf8 cs ++ p) maxMessage = (encodeUtf8 ds).length := by
  obtain ⟨ds, es, b, bs, post, rfl, heq, hstart, hbs, hlen, hle, hn⟩ := exists_char_at hp h
  refine ⟨ds, es, rfl, ?_⟩
  have hlast : lastStart (encodeUtf8 (ds ++ es) ++ p) maxMessage = (encodeUtf8 ds).length := by
    rw [encodeUtf8_append, List.append_assoc, heq]
    exact lastStart_eq hstart hbs hle hn
  have hpos : (encodeUtf8 ds).length ≠ 0 := by
    unfold maxMessage at hn
    omega
  rw [utf8Cut, if_neg (Nat.not_le.mpr h), hlast, if_neg hpos]

theorem Loggable.take (h : maxMessage < (encodeUtf8 cs).length) :
    Loggable ((encodeUtf8 cs).take (utf8Cut (encodeUtf8 cs) maxMessage)) ∧
      ∃ es, (encodeUtf8 cs).drop (utf8Cut (encodeUtf8 cs) maxMessage) = encodeUtf8 es := by
  obtain ⟨ds, es, rfl, hcut⟩ := utf8Cut_encode partial_nil (by rwa [List.append_nil])
  rw [List.append_nil] at hcut
  refine ⟨⟨?_, ds, ?_⟩, es, ?_⟩
  · rw [List.length_take]
    exact (Nat.min_le_left _ _).trans (utf8Cut_le (by decide))
  · rw [hcut, encodeUtf8_append, List.take_left]
  · rw [hcut, encodeUtf8_append, List.drop_left]

theorem pieces_sound (cs : List Char) : ∀ m ∈ pieces (encodeUtf8 cs), Loggable m := by
  induction hlen : (encodeUtf8 cs).length using Nat.strongRecOn generalizing cs with
  | _ n ih =>
    subst hlen
    rw [pieces]
    split_ifs with hlong
    · obtain ⟨hsound, es, hes⟩ := Loggable.take hlong
      rw [List.forall_mem_cons, hes]
      refine ⟨hsound, ih _ ?_ es rfl⟩
      have hpos := utf8Cut_pos (List.ne_nil_of_length_pos (Nat.zero_lt_of_lt hlong)) maxMessage
      rw [← hes, List.length_drop]
      omega
    · exact List.forall_mem_singleton.mpr ⟨Nat.not_lt.mp hlong, cs, rfl⟩

theorem pieces_flatten (m : Bytes) : (pieces m).flatten = m := by
  fun_induction pieces m with
  | case1 m hlong ih => rw [List.flatten_cons, ih, List.take_append_drop]
  | case2 m hshort => simp

theorem tailPieces_sound (cs : List Char) : ∀ m ∈ Diagnostics.tailPieces (encodeUtf8 cs), Loggable m := by
  induction hlen : (encodeUtf8 cs).length using Nat.strongRecOn generalizing cs with
  | _ n ih =>
    subst hlen
    rw [Diagnostics.tailPieces]
    split_ifs with hnil
    · exact List.forall_mem_nil _
    · rcases Nat.lt_or_ge maxMessage (encodeUtf8 cs).length with hlong | hshort
      · obtain ⟨hsound, es, hes⟩ := Loggable.take hlong
        rw [List.forall_mem_cons, hes]
        refine ⟨hsound, ih _ ?_ es rfl⟩
        have hpos := utf8Cut_pos hnil maxMessage
        rw [← hes, List.length_drop]
        omega
      · rw [utf8Cut, if_pos hshort, List.take_length, List.drop_length, Diagnostics.tailPieces, dif_pos rfl]
        exact List.forall_mem_singleton.mpr ⟨hshort, cs, rfl⟩

theorem length_replaceInvalid (bad : Bool) (rs : List (Char ⊕ UInt8)) :
    (encodeUtf8 (replaceInvalid bad rs)).length ≤ 3 * (rs.flatMap runeBytes).length := by
  fun_induction replaceInvalid bad rs with
  | case1 => simp
  | case2 _ c rs ih => simp only [encodeUtf8_cons, List.flatMap_cons, runeBytes, List.length_append]; omega
  | case3 b rs ih => simp only [List.flatMap_cons, runeBytes, List.length_append, List.length_singleton]; omega
  | case4 b rs ih =>
    have hsize : (String.utf8EncodeChar '�').length = 3 := by decide
    simp only [encodeUtf8_cons, List.flatMap_cons, runeBytes, List.length_append, List.length_singleton, hsize]
    omega

theorem length_toValidUTF8 (b : Bytes) : (toValidUTF8 b).length ≤ 3 * b.length := by
  have h := length_replaceInvalid false (decodeRunes b)
  rwa [flatMap_decodeRunes] at h

/-- What a flush gives: texts that a record can hold, at most three bytes for each byte it takes. -/
theorem flush_sound (buf : Bytes) (final : Bool) :
    (∀ m ∈ (flush buf final).1, Loggable m) ∧
      (flush buf final).1.flatten.length + 3 * (flush buf final).2.length ≤ 3 * buf.length := by
  refine flush_induct (motive := fun buf ms left => (∀ m ∈ ms, Loggable m) ∧
    ms.flatten.length + 3 * left.length ≤ 3 * buf.length)
    final (by simp) (fun buf _ _ => by simp) (fun buf m rest ms left hround ih => ?_) buf
  obtain ⟨hsound, hlen⟩ := ih
  have hround := hround.length
  have hvalid := length_toValidUTF8 m
  refine ⟨fun x hx => ?_, ?_⟩
  · rcases List.mem_append.mp hx with hx | hx
    · exact pieces_sound _ x hx
    · exact hsound x hx
  · rw [List.flatten_append, pieces_flatten, List.length_append]
    omega

/-! ### Valid text -/

theorem decodeRunes_encode (cs : List Char) : decodeRunes (encodeUtf8 cs) = cs.map .inl := by
  induction cs with
  | nil => decide +kernel
  | cons c cs ih =>
    rw [decodeRunes, encodeUtf8_cons]
    split
    · rename_i h
      rw [readRune_encode, Option.some.injEq, Prod.mk.injEq] at h
      obtain ⟨rfl, rfl⟩ := h
      rw [ih, List.map_cons]
    · rename_i h
      rw [readRune_encode] at h
      cases h

theorem toValidUTF8_encode (cs : List Char) : toValidUTF8 (encodeUtf8 cs) = encodeUtf8 cs := by
  have hchars : ∀ cs : List Char, replaceInvalid false (cs.map .inl) = cs := by
    intro cs
    induction cs with
    | nil => rfl
    | cons c cs ih => rw [List.map_cons, replaceInvalid, ih]
  rw [toValidUTF8, decodeRunes_encode, hchars]

/-- The beginning of a character is held back. -/
theorem completeUTF8Prefix_encode (hp : Partial p) :
    completeUTF8Prefix (encodeUtf8 cs ++ p) (encodeUtf8 cs ++ p).length = (encodeUtf8 cs).length := by
  rcases eq_or_ne p [] with rfl | hne
  · rw [List.append_nil]
    rcases cs.eq_nil_or_concat' with rfl | ⟨ds, c, rfl⟩
    · rfl
    · obtain ⟨b, bs, hc, hbytes⟩ := encode_shape c
      have htext : encodeUtf8 (ds ++ [c]) = encodeUtf8 ds ++ (b :: bs ++ []) := by simp [hc]
      have hlast : lastStart (encodeUtf8 (ds ++ [c])) ((encodeUtf8 (ds ++ [c])).length - 1) =
          (encodeUtf8 ds).length := by
        rw [htext]
        exact lastStart_eq hbytes.start hbytes.continues (by simp) (by simp)
      rw [completeUTF8Prefix, if_neg (by simp [hc]), hlast, List.take_length, if_pos]
      rw [htext, List.drop_left, List.append_nil]
      exact (hbytes.full bs List.prefix_rfl).mpr rfl
  · obtain ⟨b, bs, full, rfl, hbytes, hbs, hlt⟩ := hp.shape hne
    have hlast : lastStart (encodeUtf8 cs ++ b :: bs) ((encodeUtf8 cs ++ b :: bs).length - 1) =
        (encodeUtf8 cs).length := by
      have h := @lastStart_eq (encodeUtf8 cs) bs [] b hbytes.start (fun x hx => hbytes.continues x (hbs.subset hx))
        ((encodeUtf8 cs ++ b :: bs).length - 1) (by simp) (by simp)
      rwa [List.append_nil] at h
    rw [completeUTF8Prefix, if_neg (by simp), hlast, List.take_length, List.drop_left, if_neg]
    rw [hbytes.full bs hbs]
    exact hlt

/-- A round on valid text gives whole characters. -/
theorem Round.valid (hp : Partial p) (hfinal : final = true → p = []) (h : Round (encodeUtf8 cs ++ p) final m rest) :
    ∃ ds es, cs = ds ++ es ∧ rest = encodeUtf8 es ++ p ∧ m = (encodeUtf8 ds).filter (· ≠ 10) ∧ Loggable m := by
  have hkeep {x : Bytes} (hx : 10 ∉ x) : x.filter (· ≠ 10) = x :=
    List.filter_eq_self.mpr fun y hy => by
      simp only [ne_eq, decide_not, Bool.not_eq_true', decide_eq_false_iff_not]
      rintro rfl
      exact hx hy
  cases h with
  | line h hx hlen =>
    obtain ⟨ds, c, es, rfl, hc, rfl, rfl⟩ := exists_newline hp h hx
    refine ⟨ds ++ [c], es, by simp, rfl, ?_, hlen, ds, rfl⟩
    rw [encodeUtf8_append, List.filter_append, hkeep hx, encodeUtf8_cons, hc]
    simp
  | cut hlen hno =>
    obtain ⟨ds, es, rfl, hcut⟩ := utf8Cut_encode hp hlen
    have hle := utf8Cut_le (b := encodeUtf8 (ds ++ es) ++ p) (by decide : maxMessage ≠ 0)
    rw [encodeUtf8_append, List.append_assoc] at hcut hno hle ⊢
    rw [hcut] at hle ⊢
    rw [List.take_left, List.drop_left]
    refine ⟨ds, es, rfl, rfl, (hkeep fun hmem => hno ?_).symm, hle, ds, rfl⟩
    rw [List.take_append]
    exact List.mem_append_left _ (by rwa [List.take_of_length_le hle])
  | @whole n hno hn hpos hlen =>
    obtain rfl : n = (encodeUtf8 cs).length := by
      rw [hn]
      split_ifs with hf
      · rw [hfinal hf, List.append_nil]
      · exact completeUTF8Prefix_encode hp
    rw [List.take_left, List.drop_left]
    exact ⟨cs, [], by simp, by simp, (hkeep fun hmem => hno (List.mem_append_left _ hmem)).symm, hlen, cs, rfl⟩

/-- A flush of valid text gives it without its line feeds, up to what stays in the buffer. -/
theorem flush_valid (hp : Partial p) (hfinal : final = true → p = []) (cs : List Char) :
    ∃ ds es, cs = ds ++ es ∧ (flush (encodeUtf8 cs ++ p) final).2 = encodeUtf8 es ++ p ∧
      (flush (encodeUtf8 cs ++ p) final).1.flatten = (encodeUtf8 ds).filter (· ≠ 10) ∧
      (final = true → encodeUtf8 es = []) := by
  refine flush_induct (motive := fun buf ms left => ∀ cs, buf = encodeUtf8 cs ++ p → ∃ ds es, cs = ds ++ es ∧
    left = encodeUtf8 es ++ p ∧ ms.flatten = (encodeUtf8 ds).filter (· ≠ 10) ∧ (final = true → encodeUtf8 es = []))
    final ?_ ?_ ?_ _ cs rfl
  · exact fun cs hcs => ⟨[], cs, rfl, hcs, rfl, fun _ => (List.append_eq_nil_iff.mp hcs.symm).1⟩
  · exact fun buf _ hwait cs hcs => ⟨[], cs, rfl, hcs, rfl, fun hf => by rw [hwait] at hf; cases hf⟩
  · rintro buf m rest ms left hround ih cs rfl
    obtain ⟨ds, es, rfl, hrest, hm, hlen, xs, hxs⟩ := hround.valid hp hfinal
    obtain ⟨ds', es', rfl, hleft, hms, hend⟩ := ih es hrest
    refine ⟨ds ++ ds', es', by simp, hleft, ?_, hend⟩
    have hpieces : pieces (toValidUTF8 m) = [m] := by
      rw [hxs, toValidUTF8_encode, ← hxs, pieces, if_neg (Nat.not_lt.mpr hlen)]
    rw [hpieces, List.flatten_append, hms, encodeUtf8_append, List.filter_append, List.flatten_singleton, ← hm]

/-! ### Whole runs -/

namespace Diagnostics
variable {d : Diagnostics}

/-- What holds whatever the worker writes, when `n` bytes are reserved that no buffer has. -/
structure Kept (d : Diagnostics) (n : ℕ) : Prop where
  budget : d.raw ≤ 2 ^ 20
  output : d.logged + 3 * (d.stdout.length + d.stderr.length + n) ≤ 3 * d.raw
  records : ∀ r ∈ d.records, Loggable r.message ∧ Loggable r.detail

theorem sound_nil : Loggable [] := ⟨Nat.zero_le _, [], rfl⟩

theorem sound_text (s : String) (h : 4 * s.toList.length ≤ maxMessage) : Loggable (text s) :=
  ⟨(length_encodeUtf8_le _).trans h, _, rfl⟩

@[simp] theorem messages_record (r : Record) (e : Event) :
    (d.record r).messages e = d.messages e ++ if r.event = e then [r.message] else [] := by
  rw [messages, record, List.filter_append, List.map_append]
  by_cases h : r.event = e <;> simp [messages, h]

@[simp] theorem messages_emit (level : Level) (event : Event) (ms : List Bytes) (e : Event) :
    (d.emit level event ms).messages e = d.messages e ++ if event = e then ms else [] := by
  rw [messages, emit, List.filter_append, List.map_append]
  by_cases h : event = e <;> simp [messages, h, List.filter_map, Function.comp_def]

theorem logged_emit (level : Level) {event : Event} (ms : List Bytes)
    (he : event ∈ [.wasmStdout, .wasmStderr, .wasmLog]) :
    (d.emit level event ms).logged = d.logged + ms.flatten.length := by
  simp only [List.mem_cons, List.not_mem_nil, or_false] at he
  rcases he with rfl | rfl | rfl <;> simp [logged] <;> omega

variable {n : ℕ}

variable {rs : List Record}

/-- Records of other events are no messages of a stream. -/
theorem messages_append {e : Event} (h : ∀ r ∈ rs, r.event ≠ e) :
    { d with records := d.records ++ rs }.messages e = d.messages e := by
  have hnil : rs.filter (·.event = e) = [] := List.filter_eq_nil_iff.mpr (by simpa using h)
  rw [messages, List.filter_append, List.map_append, hnil, List.map_nil, List.append_nil, messages]

/-- Records that are none of the worker's output. -/
theorem Kept.append (h : d.Kept n) (hsound : ∀ r ∈ rs, Loggable r.message ∧ Loggable r.detail)
    (hrs : ∀ r ∈ rs, r.event ∉ [.wasmStdout, .wasmStderr, .wasmLog]) :
    Kept { d with records := d.records ++ rs } n := by
  have hne {e : Event} (he : e ∈ [.wasmStdout, .wasmStderr, .wasmLog]) (r) (hr : r ∈ rs) : r.event ≠ e :=
    fun heq => hrs r hr (heq ▸ he)
  have hlogged : { d with records := d.records ++ rs }.logged = d.logged := by
    simp only [logged, List.map_cons, List.map_nil, messages_append (hne (by decide : Event.wasmStdout ∈ _)),
      messages_append (hne (by decide : Event.wasmStderr ∈ _)),
      messages_append (hne (by decide : Event.wasmLog ∈ _))]
  refine ⟨h.budget, hlogged ▸ h.output, fun r hr => ?_⟩
  rcases List.mem_append.mp hr with hr | hr
  · exact h.records r hr
  · exact hsound r hr

theorem Kept.record (h : d.Kept n) {r : Record} (hr : Loggable r.message ∧ Loggable r.detail)
    (he : r.event ∉ [.wasmStdout, .wasmStderr, .wasmLog]) : (d.record r).Kept n :=
  h.append (List.forall_mem_singleton.mpr hr) (List.forall_mem_singleton.mpr he)

/-- The records of a flush. -/
theorem Kept.emit (h : d.Kept n) {level : Level} {event : Event} {ms : List Bytes} (hms : ∀ m ∈ ms, Loggable m)
    (he : event ∈ [.wasmStdout, .wasmStderr, .wasmLog]) (hlen : ms.flatten.length ≤ 3 * n) :
    (d.emit level event ms).Kept 0 := by
  refine ⟨h.budget, ?_, fun r hr => ?_⟩
  · have := h.output
    rw [logged_emit level ms he]
    simp only [Diagnostics.emit]
    omega
  · rcases List.mem_append.mp hr with hr | hr
    · exact h.records r hr
    · obtain ⟨m, hm, rfl⟩ := List.mem_map.mp hr
      exact ⟨hms m hm, sound_nil⟩

/-- Bytes that are reserved, or move from the reserved ones to a buffer. -/
theorem Kept.update (h : d.Kept n) {d' : Diagnostics} {k : ℕ} (hrecords : d'.records = d.records)
    (hraw : d'.raw ≤ 2 ^ 20)
    (hlen : d'.stdout.length + d'.stderr.length + k + d.raw ≤ d.stdout.length + d.stderr.length + n + d'.raw) :
    d'.Kept k := by
  have hlogged : d'.logged = d.logged := by simp only [logged, messages, hrecords]
  have houtput := h.output
  exact ⟨hraw, by omega, hrecords ▸ h.records⟩

/-- The truncation is said once. -/
theorem reserve_cases (d : Diagnostics) (n : ℕ) :
    ∃ t, (d.reserve n).2 = { d with raw := d.raw + (d.reserve n).1, truncated := t } ∨
      (d.reserve n).2 = { d with raw := d.raw + (d.reserve n).1, truncated := t }.record
        { level := .warn, event := .logTruncated
          message := text "Wasm diagnostics exceeded the raw byte budget" } := by
  rw [reserve]
  dsimp only
  split_ifs
  · exact ⟨true, .inr rfl⟩
  · exact ⟨d.truncated, .inl rfl⟩

theorem reserve_fst (d : Diagnostics) (n : ℕ) : (d.reserve n).1 = min n (2 ^ 20 - d.raw) := by
  rw [reserve]
  dsimp only
  split_ifs <;> rfl

theorem Kept.reserve (h : d.Kept 0) (n : ℕ) : Kept (d.reserve n).2 (d.reserve n).1 := by
  have hn := reserve_fst d n
  obtain ⟨t, hd⟩ := reserve_cases d n
  have hbudget := h.budget
  have hkept : Kept { d with raw := d.raw + (d.reserve n).1, truncated := t } (d.reserve n).1 :=
    h.update rfl (by dsimp only; omega) (by dsimp only; omega)
  rcases hd with hd | hd
  · exact hd ▸ hkept
  · rw [hd]
    exact hkept.record ⟨sound_text _ (by decide), sound_nil⟩ (by decide)

/-- The flush of a stream takes the reserved bytes. -/
theorem Kept.flushStream (h : d.Kept n) {stderr : Bool}
    (hb : b.length ≤ (d.buffer stderr).length + n) (final : Bool) : (d.flushStream stderr b final).Kept 0 := by
  obtain ⟨hsound, hlen⟩ := flush_sound b final
  cases stderr with
  | true =>
    have hkept : Kept { d with stderr := (flush b final).2 } (b.length - (flush b final).2.length) :=
      h.update rfl h.budget (by simp only [buffer, if_true] at hb ⊢; omega)
    exact hkept.emit hsound (by decide) (by omega)
  | false =>
    have hkept : Kept { d with stdout := (flush b final).2 } (b.length - (flush b final).2.length) :=
      h.update rfl h.budget (by simp only [buffer, Bool.false_eq_true, if_false] at hb ⊢; omega)
    exact hkept.emit hsound (by decide) (by omega)

theorem Kept.mono (h : d.Kept n) : d.Kept 0 := h.update rfl h.budget (by omega)

/-- One step of the worker. -/
theorem Kept.step (h : d.Kept 0) (o : Output) : (d.output o).Kept 0 := by
  cases o with
  | write stderr b =>
    rw [Diagnostics.output, stream]
    dsimp only
    generalize htail : (if stderr then { d with tail := lastBytes (d.tail ++ b) } else d) = d'
    have hkept : d'.Kept 0 := by
      rw [← htail]
      split_ifs
      · exact h.update rfl h.budget (Nat.le_refl _)
      · exact h
    exact (hkept.reserve _).flushStream (by rw [List.length_append, List.length_take]; omega) false
  | log level message =>
    have hkept := h.reserve message.length
    have hn := reserve_fst d message.length
    rw [Diagnostics.output, log]
    dsimp only
    split_ifs
    · exact hkept.mono
    · cases level with
      | none => exact hkept.mono.record ⟨sound_text _ (by decide), sound_nil⟩ (by decide)
      | some level =>
        obtain ⟨hsound, hlen⟩ := flush_sound (message.take (d.reserve message.length).1) true
        rw [List.length_take] at hlen
        exact hkept.emit hsound (by decide) (by omega)

theorem Kept.run (h : d.Kept 0) (os : List Output) : (d.run os).Kept 0 := by
  induction os generalizing d with
  | nil => exact h
  | cons o os ih => exact ih (h.step o)

theorem kept_init : ({} : Diagnostics).Kept 0 := ⟨Nat.zero_le _, Nat.zero_le _, List.forall_mem_nil _⟩

/-- The flushes at the end. -/
def flushed (d : Diagnostics) : Diagnostics := (d.flushStream false d.stdout true).flushStream true d.stderr true

/-- At the end the buffers are flushed; what is recorded besides is none of the worker's output. -/
theorem finish_eq (d : Diagnostics) (reason : Bytes) :
    ∃ rs : List Record, d.finish reason = { d.flushed with records := d.flushed.records ++ rs } ∧
      ∀ r ∈ rs, (Loggable r.message ∧ Loggable r.detail) ∧ r.event ∉ [.wasmStdout, .wasmStderr, .wasmLog] := by
  rw [finish]
  dsimp only
  split_ifs with hnil hlong
  · exact ⟨[], by simp [flushed, flushStream, emit], List.forall_mem_nil _⟩
  all_goals
    refine ⟨_ :: _, by rw [record, List.append_assoc, List.singleton_append]; rfl,
      List.forall_mem_cons.mpr ⟨⟨⟨sound_text "Wasm worker failed" (by decide), ?_⟩, by simp⟩, fun r hr => ?_⟩⟩
  · exact (Loggable.take hlong).1
  · obtain ⟨m, hm, rfl⟩ := List.mem_map.mp hr
    exact ⟨⟨sound_text _ (by decide), tailPieces_sound _ m hm⟩, by simp⟩
  · exact ⟨Nat.not_lt.mp hlong, _, rfl⟩
  · obtain ⟨m, hm, rfl⟩ := List.mem_map.mp hr
    exact ⟨⟨sound_text _ (by decide), tailPieces_sound _ m hm⟩, by simp⟩

theorem Kept.flushed (h : d.Kept 0) : d.flushed.Kept 0 :=
  (h.flushStream (Nat.le_refl d.stdout.length) true).flushStream (Nat.le_refl d.stderr.length) true

theorem Kept.finish (h : d.Kept 0) (reason : Bytes) : (d.finish reason).Kept 0 := by
  obtain ⟨rs, hrs, hother⟩ := finish_eq d reason
  rw [hrs]
  exact h.flushed.append (fun r hr => (hother r hr).1) fun r hr => (hother r hr).2

/-! ### Within the budget -/

theorem buffer_flushStream (stderr k : Bool) (b : Bytes) (final : Bool) :
    (d.flushStream stderr b final).buffer k = if stderr = k then (flush b final).2 else d.buffer k := by
  cases stderr <;> cases k <;> rfl

theorem messages_flushStream (stderr k : Bool) (b : Bytes) (final : Bool) :
    (d.flushStream stderr b final).messages (eventOf k) =
      d.messages (eventOf k) ++ if stderr = k then (flush b final).1 else [] := by
  cases stderr <;> cases k <;> exact messages_emit _ _ _ _

theorem reserve_of_le (h : d.raw + n ≤ 2 ^ 20) : d.reserve n = (n, { d with raw := d.raw + n }) := by
  have hn : min n (2 ^ 20 - d.raw) = n := by omega
  rw [reserve]
  simp only [hn, Nat.lt_irrefl, false_and, if_false]

theorem finish_messages (k : Bool) (reason : Bytes) :
    (d.finish reason).messages (eventOf k) = d.messages (eventOf k) ++ (flush (d.buffer k) true).1 := by
  obtain ⟨rs, hrs, hother⟩ := finish_eq d reason
  have hevent (r) (hr : r ∈ rs) : r.event ≠ eventOf k := fun heq => (hother r hr).2 (by rw [heq]; cases k <;> decide)
  rw [hrs, messages_append hevent, flushed, messages_flushStream, messages_flushStream]
  cases k <;> simp [buffer]

/-- What a write does to the streams. -/
theorem stream_of_le {stderr : Bool} {b : Bytes} (h : d.raw + b.length ≤ 2 ^ 20) (k : Bool) :
    (d.stream stderr b).raw = d.raw + b.length ∧
    (d.stream stderr b).buffer k = (if stderr = k then (flush (d.buffer k ++ b) false).2 else d.buffer k) ∧
    (d.stream stderr b).messages (eventOf k) =
      d.messages (eventOf k) ++ if stderr = k then (flush (d.buffer k ++ b) false).1 else [] := by
  have hstream : ∃ tail, d.stream stderr b =
      flushStream { d with raw := d.raw + b.length, tail := tail } stderr (d.buffer stderr ++ b) false := by
    rw [stream]
    cases stderr with
    | true =>
      simp only [if_true]
      rw [reserve_of_le (by exact h), List.take_length]
      exact ⟨_, rfl⟩
    | false =>
      simp only [Bool.false_eq_true, if_false]
      rw [reserve_of_le (by exact h), List.take_length]
      exact ⟨d.tail, rfl⟩
  obtain ⟨tail, hstream⟩ := hstream
  rw [hstream, buffer_flushStream, messages_flushStream]
  refine ⟨by cases stderr <;> rfl, ?_, ?_⟩
  all_goals
    split_ifs with hk
    · subst hk
      rfl
    · rfl

/-- What a log call does to the streams. -/
theorem log_of_le {level : Option Level} {message : Bytes} (h : d.raw + message.length ≤ 2 ^ 20) (k : Bool) :
    (d.log level message).raw = d.raw + message.length ∧ (d.log level message).buffer k = d.buffer k ∧
      (d.log level message).messages (eventOf k) = d.messages (eventOf k) := by
  rw [log, reserve_of_le h]
  dsimp only
  split_ifs
  · exact ⟨rfl, rfl, rfl⟩
  · cases level with
    | none => exact ⟨rfl, rfl, by rw [messages_record]; cases k <;> exact List.append_nil _⟩
    | some level => exact ⟨rfl, rfl, by rw [messages_emit]; cases k <;> exact List.append_nil _⟩

/-- Valid text within the budget is logged as it is, however it is split. -/
theorem messages_of_valid (k : Bool) (reason : Bytes) (os : List Output) (cs : List Char)
    (hbudget : d.raw + (os.flatMap Output.bytes).length ≤ 2 ^ 20)
    (htext : d.buffer k ++ os.flatMap (Output.on k) = encodeUtf8 cs) :
    (((d.run os).finish reason).messages (eventOf k)).flatten =
      (d.messages (eventOf k)).flatten ++ (encodeUtf8 cs).filter (· ≠ 10) := by
  induction os generalizing d cs with
  | nil =>
    obtain ⟨ds, es, rfl, -, hms, hend⟩ := flush_valid partial_nil (fun _ => rfl) cs
    rw [List.append_nil] at hms
    rw [run, List.foldl_nil, finish_messages, List.flatten_append, ← List.append_nil (d.buffer k),
      ← List.flatMap_nil, htext, hms, encodeUtf8_append, hend rfl, List.append_nil]
  | cons o os ih =>
    rw [List.flatMap_cons, List.length_append] at hbudget
    rw [List.flatMap_cons] at htext
    rw [show d.run (o :: os) = (d.output o).run os from rfl]
    cases o with
    | write stderr b =>
      simp only [Output.bytes] at hbudget
      obtain ⟨hraw, hbuffer, hmessages⟩ := @stream_of_le d stderr b (by omega) k
      rw [output]
      by_cases hk : stderr = k
      · simp only [Output.on, if_pos hk] at htext hbuffer hmessages
        rw [← List.append_assoc] at htext
        obtain ⟨ds, es, p, rfl, hb, hp, hes⟩ := exists_partial htext.symm
        obtain ⟨ds₁, ds₂, rfl, hrest, hms, -⟩ := flush_valid hp (nofun : false = true → p = []) ds
        rw [hb] at hbuffer hmessages
        rw [ih (ds₂ ++ es) (by omega) (by rw [hbuffer, hrest, List.append_assoc, ← hes, encodeUtf8_append]),
          hmessages, List.flatten_append, hms]
        simp [List.append_assoc]
      · simp only [Output.on, if_neg hk, List.nil_append, List.append_nil] at htext hbuffer hmessages
        rw [ih cs (by omega) (by rw [hbuffer, htext]), hmessages]
    | log level message =>
      simp only [Output.bytes] at hbudget
      obtain ⟨hraw, hbuffer, hmessages⟩ := @log_of_le d level message (by omega) k
      rw [output, ih cs (by omega) (by rw [hbuffer]; exact htext), hmessages]

/-! ### The tail of stderr -/

/-- The last bytes of `x` are kept, and none was logged as such. -/
structure Tail (d : Diagnostics) (x : Bytes) : Prop where
  tail : d.tail = lastBytes x
  details : d.tailDetails = []

theorem tail_init : ({} : Diagnostics).Tail [] := ⟨rfl, rfl⟩

theorem lastBytes_append (x b : Bytes) : lastBytes (lastBytes x ++ b) = lastBytes (x ++ b) := by
  unfold lastBytes
  generalize maxTail = n
  rw [← List.drop_append_of_le_length (Nat.sub_le _ _), List.drop_drop]
  congr 1
  simp only [List.length_drop, List.length_append]
  omega

theorem Tail.append {x : Bytes} (h : d.Tail x) (hrs : ∀ r ∈ rs, r.event ≠ .wasmStderrTail) :
    Tail { d with records := d.records ++ rs } x := by
  refine ⟨h.tail, ?_⟩
  have hnil : rs.filter (·.event = .wasmStderrTail) = [] := List.filter_eq_nil_iff.mpr (by simpa using hrs)
  rw [tailDetails, List.filter_append, hnil, List.append_nil]
  exact h.details

theorem Tail.reserve {x : Bytes} (h : d.Tail x) (n : ℕ) : (d.reserve n).2.Tail x := by
  obtain ⟨t, hd | hd⟩ := reserve_cases d n
  · rw [hd]
    exact ⟨h.tail, h.details⟩
  · rw [hd]
    exact Tail.append ⟨h.tail, h.details⟩ (by simp)

theorem Tail.flushStream {x : Bytes} (h : d.Tail x) (stderr : Bool) (b : Bytes) (final : Bool) :
    (d.flushStream stderr b final).Tail x := by
  cases stderr <;> exact Tail.append ⟨h.tail, h.details⟩ (by simp)

theorem Tail.step {x : Bytes} (h : d.Tail x) (o : Output) : (d.output o).Tail (x ++ o.on true) := by
  cases o with
  | write stderr b =>
    rw [Diagnostics.output, stream]
    dsimp only
    generalize htail : (if stderr then { d with tail := lastBytes (d.tail ++ b) } else d) = d'
    have hd : d'.Tail (x ++ (Output.write stderr b).on true) := by
      rw [← htail, Output.on]
      split_ifs
      · refine ⟨?_, by rw [tailDetails]; exact h.details⟩
        dsimp only
        rw [h.tail, lastBytes_append]
      · rwa [List.append_nil]
    exact (hd.reserve _).flushStream ..
  | log level message =>
    have hreserve := h.reserve message.length
    simp only [Output.on, List.append_nil, Diagnostics.output, log]
    split_ifs
    · exact hreserve
    · cases level with
      | none | some level => exact hreserve.append (by simp)

theorem Tail.run {x : Bytes} (h : d.Tail x) (os : List Output) :
    (d.run os).Tail (x ++ os.flatMap (Output.on true)) := by
  induction os generalizing d x with
  | nil =>
    rw [List.flatMap_nil, List.append_nil]
    exact h
  | cons o os ih =>
    rw [List.flatMap_cons, ← List.append_assoc]
    exact ih (h.step o)

theorem tailPieces_flatten (m : Bytes) : (tailPieces m).flatten = m := by
  fun_induction tailPieces m with
  | case1 => rfl
  | case2 m hne ih => rw [List.flatten_cons, ih, List.take_append_drop]

theorem Tail.finish {x : Bytes} (h : d.Tail x) (reason : Bytes) :
    (d.finish reason).tailDetails.flatten = if reason = [] then [] else toValidUTF8 (lastBytes x) := by
  have hflushed : d.flushed.Tail x := (h.flushStream ..).flushStream ..
  have hpieces (r : Record) (hr : r.event ≠ .wasmStderrTail) (t : Bytes) :
      tailDetails { d.flushed.record r with records := (d.flushed.record r).records ++ (tailPieces t).map fun m =>
        { level := .error, event := .wasmStderrTail, message := text "Wasm worker stderr tail", detail := m } } =
      tailPieces t := by
    have hnone : (d.flushed.record r).Tail x := hflushed.append (by simpa using hr)
    rw [tailDetails, List.filter_append, List.map_append]
    rw [show ((d.flushed.record r).records.filter _).map _ = [] from hnone.details]
    simp [List.filter_map, Function.comp_def]
  rw [← h.tail, Diagnostics.finish]
  dsimp only
  split_ifs with hnil
  · exact congrArg List.flatten hflushed.details
  all_goals
    rw [← tailPieces_flatten (toValidUTF8 d.tail)]
    exact congrArg List.flatten (hpieces _ (by simp) _)

/-- The output of a worker is logged exactly and within bounds: at most 1 MiB of it is taken and logged in at most
three times as many bytes, and for a failed worker the last 64 KiB of stderr are logged besides; each record is valid
and bounded, each round of `flush` consumes something, and valid text within the budget comes out as it is without
its line feeds. -/
theorem diagnostics_logged (os : List Output) (reason : Bytes) :
    (({} : Diagnostics).run os).raw ≤ 2 ^ 20 ∧
    ((({} : Diagnostics).run os).finish reason).logged ≤ 3 * (({} : Diagnostics).run os).raw ∧
    ((({} : Diagnostics).run os).finish reason).tailDetails.flatten =
      (if reason = [] then [] else toValidUTF8 (lastBytes (os.flatMap (Output.on true)))) ∧
    ((({} : Diagnostics).run os).finish reason).tailDetails.flatten.length ≤ 3 * 2 ^ 16 ∧
    (∀ r ∈ ((({} : Diagnostics).run os).finish reason).records, Loggable r.message ∧ Loggable r.detail) ∧
    (∀ buf final m rest, buf ≠ [] → flushRound buf final = some (m, rest) → rest.length < buf.length) ∧
    ∀ k cs, (os.flatMap Output.bytes).length ≤ 2 ^ 20 → os.flatMap (Output.on k) = encodeUtf8 cs →
      (((({} : Diagnostics).run os).finish reason).messages (eventOf k)).flatten =
        (encodeUtf8 cs).filter (· ≠ 10) := by
  have hkept := kept_init.run os
  have hfinish := hkept.finish reason
  have hraw : ((({} : Diagnostics).run os).finish reason).raw = (({} : Diagnostics).run os).raw := by
    obtain ⟨rs, hrs, -⟩ := finish_eq (({} : Diagnostics).run os) reason
    rw [hrs]
    rfl
  have htail : ((({} : Diagnostics).run os).finish reason).tailDetails.flatten =
      if reason = [] then [] else toValidUTF8 (lastBytes (os.flatMap (Output.on true))) :=
    (tail_init.run os).finish reason
  refine ⟨hkept.budget, ?_, htail, ?_, hfinish.records,
    fun buf final m rest hne h => (flushRound_eq hne h).decreases hne, fun k cs hbudget htext => ?_⟩
  · have houtput := hfinish.output
    omega
  · rw [htail]
    split_ifs
    · exact Nat.zero_le _
    · refine (length_toValidUTF8 _).trans (Nat.mul_le_mul_left 3 ?_)
      rw [lastBytes, List.length_drop, maxTail]
      omega
  · have h := @messages_of_valid {} k reason os cs (by simpa using hbudget) (by cases k <;> exact htext)
    rwa [show ({} : Diagnostics).messages (eventOf k) = [] from rfl] at h

/-- A byte that is no text is logged as a character of three bytes. -/
theorem run_invalid (n : ℕ) (h : 2 * n ≤ 2 ^ 20) :
    ({} : Diagnostics).run (List.replicate n (.write false [0xFF, 10])) =
      { raw := 2 * n
        records := List.replicate n { level := .info, event := .wasmStdout, message := [0xEF, 0xBF, 0xBD] } } := by
  induction n with
  | zero => rfl
  | succ n ih =>
    have hflush : flush [0xFF, 10] false = ([[0xEF, 0xBF, 0xBD]], []) := by decide +kernel
    have ih := ih (by omega)
    rw [run] at ih
    rw [List.replicate_succ', run, List.foldl_append, ih]
    simp only [List.foldl_cons, List.foldl_nil, output, stream, Bool.false_eq_true, if_false,
      List.length_cons, List.length_nil, Nat.zero_add]
    rw [reserve_of_le (by simp only; omega)]
    simp only [buffer, Bool.false_eq_true, if_false, List.nil_append, List.take_succ_cons, List.take_zero,
      flushStream, hflush, emit, List.map_cons, List.map_nil, List.replicate_succ']
    rfl

/-- A letter written `n` times is logged, and its last bytes again when the worker fails. -/
theorem run_letters (n : ℕ) (hn : maxTail ≤ n) (hbudget : n ≤ 2 ^ 20) (reason : Bytes) (hreason : reason ≠ []) :
    let d := (({} : Diagnostics).run [.write true (List.replicate n 97)]).finish reason
    n ≤ d.logged ∧ d.tailDetails.flatten.length = maxTail := by
  have hletters (m : ℕ) : List.replicate m 97 = encodeUtf8 (List.replicate m 'a') := by
    induction m with
    | zero => rfl
    | succ m ih => rw [List.replicate_succ, ih, List.replicate_succ, encodeUtf8_cons]; rfl
  have hmessages := @messages_of_valid {} true reason [.write true (List.replicate n 97)] (List.replicate n 'a')
    (by simpa [Output.bytes] using hbudget) (by simp [buffer, Output.on, hletters])
  have htail := (tail_init.run [.write true (List.replicate n 97)]).finish reason
  rw [← hletters, List.filter_replicate_of_pos (by decide)] at hmessages
  rw [if_neg hreason] at htail
  refine ⟨?_, ?_⟩
  · have hlength := congrArg List.length hmessages
    simp only [logged, List.map_cons, List.sum_cons]
    rw [List.length_append, List.length_replicate, eventOf, if_pos rfl] at hlength
    omega
  · rw [htail]
    simp only [List.flatMap_cons, List.flatMap_nil, List.nil_append, List.append_nil, Output.on, if_true, lastBytes,
      List.drop_replicate, List.length_replicate]
    rw [hletters, toValidUTF8_encode, ← hletters, List.length_replicate]
    omega

/-- More than 1 MiB is logged for 1 MiB of lines that are no text, and for 1 MiB of text on stderr by a worker that
fails. -/
theorem diagnostics_logged_fails :
    (∃ os : List Output, (∀ o ∈ os, ∃ b, o = .write false b) ∧ 2 ^ 20 < (({} : Diagnostics).run os).logged) ∧
    ∃ (b : Bytes) (d : Diagnostics), b.length = 2 ^ 20 ∧
      d = (({} : Diagnostics).run [.write true b]).finish (text "exit") ∧
      2 ^ 20 ≤ d.logged ∧ d.tailDetails.flatten.length = 2 ^ 16 := by
  constructor
  · refine ⟨List.replicate (2 ^ 19) (.write false [0xFF, 10]), fun o ho => ⟨_, List.eq_of_mem_replicate ho⟩, ?_⟩
    rw [run_invalid (2 ^ 19) (by decide)]
    generalize hn : 2 ^ 19 = n
    simp [logged, messages, List.filter_replicate, List.map_replicate]
    omega
  · exact ⟨List.replicate (2 ^ 20) 97, _, List.length_replicate, rfl,
      run_letters (2 ^ 20) (by decide) le_rfl _ (by decide)⟩

end Diagnostics
end Onprest.Wasm
