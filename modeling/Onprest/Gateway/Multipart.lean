import Mathlib.Algebra.Group.Nat.Defs
import Mathlib.Data.List.Infix
import Mathlib.Tactic.SplitIfs
import Onprest.Lib.Utf8

/-! `multipartGuard`: the check of multipart framing in front of `multipart.Reader`. The guard recognizes delimiter
lines byte by byte; below it is compared with a reader that has whole lines. The field `prefix` is only written and
is left out. -/

namespace Onprest.Gateway
open Lib

/-- `invalidInput()` and `inputLimit(413)`. -/
inductive GuardError
  | invalid | limit
deriving DecidableEq, Repr

structure MultipartGuard where
  line : ℕ := 0
  headerBytes : ℕ := 0
  framing : ℕ := 0
  headers : Bool := false
  closed : Bool := false
  first : Bool := true
  previous : UInt8 := 0
  failure : Option GuardError := none
  dashMatch : ℤ := 0
  tailBytes : ℕ := 0
  tailFinal : Bool := false
  tailBad : Bool := false
  tailDash : Bool := false
  tailCR : Bool := false
deriving DecidableEq, Repr

/-- What a call of `Read` returns besides its bytes: the end of the input, an error of the guard, or one of the
source. -/
inductive ReadError
  | eof
  | guard (e : GuardError)
  | source
deriving DecidableEq, Repr

def dash (boundary : Bytes) : Bytes := 45 :: 45 :: boundary

namespace MultipartGuard

def classify (boundary : Bytes) (g : MultipartGuard) (b : UInt8) : MultipartGuard :=
  if g.dashMatch < 0 ∨ g.tailBad = true then g
  else if g.dashMatch < (dash boundary).length then
    if (dash boundary)[g.dashMatch.toNat]? = some b then { g with dashMatch := g.dashMatch + 1 }
    else { g with dashMatch := -1 }
  else if g.tailCR = true ∧ b ≠ 10 then { g with tailBytes := g.tailBytes + 1, tailBad := true }
  else if g.tailBytes + 1 = 1 ∧ b = 45 then { g with tailBytes := g.tailBytes + 1, tailDash := true }
  else if g.tailDash then
    { g with tailBytes := g.tailBytes + 1, tailDash := false, tailFinal := b = 45, tailBad := b ≠ 45 }
  else if b = 32 ∨ b = 9 ∨ b = 10 then { g with tailBytes := g.tailBytes + 1 }
  else if b = 13 then { g with tailBytes := g.tailBytes + 1, tailCR := true }
  else { g with tailBytes := g.tailBytes + 1, tailBad := true }

/-- Whether the line was a delimiter, and a closing one. -/
def delimiter (boundary : Bytes) (g : MultipartGuard) : Bool × Bool :=
  if g.dashMatch ≠ (dash boundary).length ∨ g.tailBad = true ∨ g.tailDash = true ∨
    g.previous ≠ 13 then (false, false)
  else (true, g.tailFinal)

def fail (g : MultipartGuard) (e : GuardError) : MultipartGuard × Bool := ({ g with failure := some e }, false)

/-- The end of a line that is neither refused nor the first and closing. -/
def endLine (g : MultipartGuard) : MultipartGuard × Bool :=
  if 2 ^ 20 < g.framing then g.fail .limit else ({ g with line := 0, previous := 10 }, true)

/-- The round of the loop at a line feed, after `classify`. -/
def lineFeed (boundary : Bytes) (g : MultipartGuard) : MultipartGuard × Bool :=
  let (delimiter, final) := g.delimiter boundary
  let g := { g with
    dashMatch := 0, tailBytes := 0, tailFinal := false, tailBad := false, tailDash := false, tailCR := false }
  if g.first then
    if delimiter && final then ({ g with first := false, closed := true, line := 0, previous := 10 }, true)
    else if !delimiter then g.fail .invalid
    else endLine { g with first := false, headers := true, headerBytes := 0, framing := g.framing + g.line }
  else if g.headers then
    if g.previous ≠ 13 then g.fail .invalid
    else if g.line = 2 then endLine { g with headers := false }
    else endLine g
  else if delimiter then
    endLine { g with framing := g.framing + g.line, headers := !final, closed := final, headerBytes := 0 }
  else endLine g

/-- The count of a byte of a header. -/
def countHeader (g : MultipartGuard) : MultipartGuard :=
  if g.headers then { g with headerBytes := g.headerBytes + 1, framing := g.framing + 1 } else g

/-- One round of the loop of `Read`, and whether the byte is passed on. -/
def feed (boundary : Bytes) (g : MultipartGuard) (b : UInt8) : MultipartGuard × Bool :=
  if g.closed then g.fail .invalid
  else
    let g := (classify boundary { g with line := g.line + 1 } b).countHeader
    if g.headers = true ∧ (8192 < g.headerBytes ∨ 2 ^ 20 < g.framing) then g.fail .limit
    else if b = 10 then g.lineFeed boundary
    else ({ g with previous := b }, true)

/-- The loop of `Read`, and the bytes it passes on. -/
def feedAll (boundary : Bytes) : MultipartGuard → Bytes → MultipartGuard × Bytes
  | g, [] => (g, [])
  | g, b :: bs =>
    match g.feed boundary b with
    | (g, true) => ((feedAll boundary g bs).1, b :: (feedAll boundary g bs).2)
    | (g, false) => (g, [])

/-- `Read`, when the source gives `chunk` and `e`. -/
def read (boundary : Bytes) (g : MultipartGuard) (chunk : Bytes) (e : Option ReadError) :
    (Bytes × Option ReadError) × MultipartGuard :=
  match g.failure with
  | some f => (([], some (.guard f)), g)
  | none =>
    let (g, passed) := g.feedAll boundary chunk
    match g.failure with
    | some f => ((passed, some (.guard f)), g)
    | none => ((passed, if e = some .eof ∧ g.closed = false then some (.guard .invalid) else e), g)

/-- The calls of `Read` until one returns an error, given the answers of the source. -/
def readAll (boundary : Bytes) : MultipartGuard → List (Bytes × Option ReadError) →
    Bytes × Option ReadError
  | _, [] => ([], none)
  | g, (chunk, e) :: answers =>
    match g.read boundary chunk e with
    | ((passed, none), g) => (passed ++ (readAll boundary g answers).1, (readAll boundary g answers).2)
    | ((passed, some e), _) => (passed, some e)

end MultipartGuard

/-! ### Whole lines -/

/-- A delimiter line, or a closing one. -/
def IsDelimiter (boundary : Bytes) (final : Bool) (line : Bytes) : Prop :=
  ∃ pad : Bytes, (∀ c ∈ pad, c = 32 ∨ c = 9) ∧
    line = [45, 45] ++ boundary ++ (if final then [45, 45] else []) ++ pad ++ [13, 10]

inductive Place
  | start | header | body | closed
deriving DecidableEq, Repr

/-- Where a stream stands: the bytes of the line that is not ended, those of the header of the part before it, and
those of the delimiter lines and headers before it. Within a header every line belongs to the header, whatever it
looks like, and a delimiter line counts once it is ended. -/
structure Framing where
  place : Place := .start
  line : Bytes := []
  header : ℕ := 0
  total : ℕ := 0

namespace Framing
open Classical in
/-- The end of a line. -/
noncomputable def lineFeed (boundary : Bytes) (f : Framing) : Framing :=
  match f.place with
  | .start | .body =>
    if IsDelimiter boundary true f.line then { place := .closed, total := f.total + f.line.length }
    else if IsDelimiter boundary false f.line then { place := .header, total := f.total + f.line.length }
    else { f with line := [] }
  | .header =>
    { place := if f.line = [13, 10] then .body else .header, header := f.header + f.line.length
      total := f.total + f.line.length }
  | .closed => { f with line := [] }

noncomputable def feed (boundary : Bytes) (f : Framing) (b : UInt8) : Framing :=
  if b = 10 then lineFeed boundary { f with line := f.line ++ [b] } else { f with line := f.line ++ [b] }

noncomputable def of (boundary : Bytes) (s : Bytes) : Framing := s.foldl (feed boundary) {}

/-- The bytes of the header of the current part. -/
def headerBytes (f : Framing) : ℕ := f.header + if f.place = .header then f.line.length else 0

/-- The bytes of the delimiter lines and headers. -/
def framingBytes (f : Framing) : ℕ := f.total + if f.place = .header then f.line.length else 0

theorem of_concat (boundary s : Bytes) (b : UInt8) :
    of boundary (s ++ [b]) = (of boundary s).feed boundary b := by
  simp [of]

end Framing

/-! ### Recognition of a line -/

/-- What may stand between the boundary and the padding. -/
def closingDashes (final : Bool) : Bytes := if final then [45, 45] else []

variable {final : Bool} {pad pad' u w : Bytes} {c : UInt8}

theorem isDelimiter_iff {boundary line : Bytes} :
    IsDelimiter boundary final line ↔
      ∃ pad : Bytes, (∀ c ∈ pad, c = 32 ∨ c = 9) ∧
        line = dash boundary ++ (closingDashes final ++ pad ++ [13, 10]) := by
  simp [IsDelimiter, dash, closingDashes]

theorem pad_unique (hpad : ∀ x ∈ pad, x = 32 ∨ x = 9) (hpad' : ∀ x ∈ pad', x = 32 ∨ x = 9) (hc : ¬ (c = 32 ∨ c = 9))
    (h : pad ++ c :: u = pad' ++ 13 :: w) : c = 13 ∧ u = w := by
  induction pad generalizing pad' with
  | nil =>
    cases pad' with
    | nil => simpa using h
    | cons x pad' =>
      obtain ⟨rfl, -⟩ := List.cons.inj h
      exact absurd (hpad' _ List.mem_cons_self) hc
  | cons y pad ih =>
    rw [List.forall_mem_cons] at hpad
    cases pad' with
    | nil =>
      obtain ⟨rfl, -⟩ := List.cons.inj h
      exact absurd hpad.1 (by decide)
    | cons x pad' => exact ih hpad.2 (fun z hz => hpad' z (List.mem_cons_of_mem _ hz)) (List.cons.inj h).2

/-- The first byte behind the padding decides whether a line is a delimiter. -/
theorem tail_unique {final' : Bool} (hpad : ∀ x ∈ pad, x = 32 ∨ x = 9) (hpad' : ∀ x ∈ pad', x = 32 ∨ x = 9)
    (hc : ¬ (c = 32 ∨ c = 9)) (hdash : final = false → pad = [] → c ≠ 45)
    (h : closingDashes final ++ pad ++ c :: u = closingDashes final' ++ pad' ++ 13 :: w) :
    final = final' ∧ c = 13 ∧ u = w := by
  have hhead {pad : Bytes} (hpad : ∀ x ∈ pad, x = 32 ∨ x = 9) {c : UInt8} {r t : Bytes}
      (h : pad ++ c :: r = 45 :: t) : pad = [] ∧ c = 45 := by
    cases pad with
    | nil => exact ⟨rfl, (List.cons.inj h).1⟩
    | cons x pad =>
      obtain ⟨rfl, -⟩ := List.cons.inj h
      exact absurd (hpad _ List.mem_cons_self) (by decide)
  cases final with
  | false =>
    cases final' with
    | false => exact ⟨rfl, pad_unique hpad hpad' hc h⟩
    | true =>
      obtain ⟨hnil, hc'⟩ := hhead hpad h
      exact absurd hc' (hdash rfl hnil)
  | true =>
    cases final' with
    | false => exact absurd (hhead hpad' h.symm).2 (by decide)
    | true => exact ⟨rfl, pad_unique hpad hpad' hc (List.cons.inj (List.cons.inj h).2).2⟩

/-- What the flags `dashMatch`, `tailBytes`, `tailFinal`, `tailBad`, `tailDash` and `tailCR` say about the line so
far. -/
inductive Seen (boundary : Bytes) (matched : ℤ) : ℕ → Bool → Bool → Bool → Bool → Bytes → Prop
  | matching {line : Bytes} (hm : matched = line.length) (h : line <+: dash boundary) :
      Seen boundary matched 0 false false false false line
  | other {line : Bytes} {n : ℕ} {final bad hyphen cr : Bool} (hm : matched = -1) (h : ¬ line <+: dash boundary)
      (h' : ¬ dash boundary <+: line) : Seen boundary matched n final bad hyphen cr line
  | bad {tail : Bytes} {n : ℕ} {final hyphen cr : Bool} (hm : matched = (dash boundary).length)
      (h : ∀ u final, ¬ IsDelimiter boundary final (dash boundary ++ tail ++ u)) :
      Seen boundary matched n final true hyphen cr (dash boundary ++ tail)
  | hyphen (hm : matched = (dash boundary).length) :
      Seen boundary matched 1 false false true false (dash boundary ++ [45])
  | padded {final : Bool} {pad : Bytes} {n : ℕ} (hm : matched = (dash boundary).length) (hn : n ≠ 0)
      (hne : closingDashes final ++ pad ≠ []) (hpad : ∀ x ∈ pad, x = 32 ∨ x = 9) :
      Seen boundary matched n final false false false (dash boundary ++ (closingDashes final ++ pad))
  | cr {final : Bool} {pad : Bytes} {n : ℕ} (hm : matched = (dash boundary).length) (hn : n ≠ 0)
      (hpad : ∀ x ∈ pad, x = 32 ∨ x = 9) :
      Seen boundary matched n final false false true (dash boundary ++ (closingDashes final ++ pad ++ [13]))

/-- A byte behind the padding other than a carriage return spoils the line. -/
theorem Seen.spoiled {boundary pad : Bytes} {matched : ℤ} {final : Bool} {c : UInt8} {n : ℕ} {f hyphen cr : Bool}
    (hm : matched = (dash boundary).length) (hpad : ∀ x ∈ pad, x = 32 ∨ x = 9)
    (hc : ¬ (c = 32 ∨ c = 9)) (hcr : c ≠ 13) (hdash : final = false → pad = [] → c ≠ 45) :
    Seen boundary matched n f true hyphen cr (dash boundary ++ (closingDashes final ++ pad ++ [c])) := by
  refine .bad hm fun u final' h => ?_
  obtain ⟨pad', hpad', heq⟩ := isDelimiter_iff.mp h
  rw [List.append_assoc, List.append_cancel_left_eq, List.append_assoc] at heq
  exact hcr (tail_unique hpad hpad' hc hdash heq).2.1

namespace MultipartGuard
variable {boundary : Bytes} {g g' : MultipartGuard}

abbrev Sees (boundary : Bytes) (g : MultipartGuard) (line : Bytes) : Prop :=
  Seen boundary g.dashMatch g.tailBytes g.tailFinal g.tailBad g.tailDash g.tailCR line

variable {line u : Bytes}

theorem classify_sees (hb : b ≠ 10) (h : g.Sees boundary line) :
    (g.classify boundary b).Sees boundary (line ++ [b]) := by
  obtain ⟨n, hb', f, hs, cl, fi, pr, fa, matched, tailBytes, tailFinal, tailBad, tailDash, tailCR⟩ := g
  cases h with
  | matching hm hline =>
    dsimp only at hm
    simp only [Sees, classify, Bool.false_eq_true, or_false, false_and, if_false]
    rw [if_neg (by omega)]
    by_cases hfull : line = dash boundary
    · subst hfull
      rw [if_neg (by omega)]
      split_ifs with hyphen hpad hreturn
      · obtain rfl := hyphen.2
        exact .hyphen hm
      · have hpad : b = 32 ∨ b = 9 := by tauto
        exact @Seen.padded boundary _ false [b] 1 hm (by simp) (by simp) (by simpa using hpad)
      · subst hreturn
        exact @Seen.cr boundary _ false [] 1 hm (by simp) (by simp)
      · exact @Seen.spoiled boundary [] _ false b 1 false false false hm (by simp) (by tauto) hreturn
          fun _ _ hb' => hyphen ⟨trivial, hb'⟩
    have hlt : line.length < (dash boundary).length :=
      lt_of_le_of_ne hline.length_le fun heq => hfull (hline.eq_of_length heq)
    rw [if_pos (by omega), hm, Int.toNat_natCast]
    split_ifs with hnext
    · refine .matching (by simp) ?_
      obtain ⟨r, hr⟩ := hline
      rw [← hr, List.getElem?_append_right le_rfl, Nat.sub_self] at hnext
      cases r with
      | nil => cases hnext
      | cons x r =>
        cases hnext
        exact ⟨r, by rw [← hr]; simp⟩
    · refine .other rfl (fun hmatch => hnext ?_) fun hmatch => ?_
      · obtain ⟨r, hr⟩ := hmatch
        rw [← hr]
        simp
      · have := hmatch.length_le
        have heq := hmatch.eq_of_length (by simp at this ⊢; omega)
        rw [heq] at hnext
        simp at hnext
  | other hm hline hdash =>
    dsimp only at hm
    rw [Sees, classify, if_pos (.inl (by dsimp only; omega))]
    refine .other hm (fun h => hline ((List.prefix_append _ _).trans h)) fun h => ?_
    rcases List.prefix_concat_iff.mp h with heq | h
    · exact hline (heq ▸ List.prefix_append _ _)
    · exact hdash h
  | bad hm h =>
    rw [Sees, classify, if_pos (.inr rfl), List.append_assoc]
    refine .bad hm fun u final hd => h (b :: u) final ?_
    simpa using hd
  | hyphen hm =>
    dsimp only at hm
    simp only [Sees, classify, Bool.false_eq_true, or_false]
    rw [if_neg (by omega), if_neg (by omega), if_neg (by simp), if_neg (by simp), if_pos trivial, List.append_assoc]
    by_cases hyphen : b = 45
    · subst hyphen
      exact @Seen.padded boundary _ true [] _ hm (by simp) (by simp [closingDashes]) (by simp)
    · simp only [hyphen, decide_false, not_false_eq_true, decide_true, ne_eq]
      refine .bad hm fun u final hd => ?_
      obtain ⟨pad, hpad, heq⟩ := isDelimiter_iff.mp hd
      rw [List.append_assoc, List.append_cancel_left_eq] at heq
      cases final with
      | true => exact hyphen (List.cons.inj (List.cons.inj heq).2).1
      | false =>
        cases pad with
        | nil => cases heq
        | cons x pad =>
          obtain ⟨rfl, -⟩ := List.cons.inj heq
          exact absurd (hpad _ List.mem_cons_self) (by decide)
  | @padded _ pad n hm hn hne hpad =>
    dsimp only at hm
    simp only [Sees, classify, Bool.false_eq_true, or_false, false_and, if_false]
    rw [if_neg (by omega), if_neg (by omega), if_neg (by simp [hn]), List.append_assoc, List.append_assoc]
    split_ifs with hpad' hreturn
    · have hpad' : b = 32 ∨ b = 9 := by tauto
      refine .padded hm (by simp) (by simp) fun x hx => ?_
      rcases List.mem_append.mp hx with hx | hx
      · exact hpad x hx
      · obtain rfl := List.mem_singleton.mp hx
        exact hpad'
    · subst hreturn
      rw [← List.append_assoc (closingDashes _)]
      exact .cr hm (Nat.succ_ne_zero _) hpad
    · rw [← List.append_assoc (closingDashes _)]
      refine .spoiled hm hpad (by tauto) hreturn fun hfinal hnil => ?_
      subst hfinal hnil
      exact absurd rfl hne
  | @cr _ pad n hm hn hpad =>
    dsimp only at hm
    simp only [Sees, classify, Bool.false_eq_true, or_false, true_and]
    rw [if_neg (by omega), if_neg (by omega), if_pos hb, List.append_assoc]
    refine .bad hm fun u final' hd => ?_
    obtain ⟨pad', hpad', heq⟩ := isDelimiter_iff.mp hd
    simp only [List.append_assoc, List.append_cancel_left_eq] at heq
    have heq : closingDashes tailFinal ++ pad ++ 13 :: b :: u = closingDashes final' ++ pad' ++ 13 :: [10] := by
      simpa using heq
    exact hb (List.cons.inj (tail_unique hpad hpad' (by decide) (fun _ _ => by decide) heq).2.2).1

/-- What the guard says of a line at its line feed. -/
def answer (boundary : Bytes) (g : MultipartGuard) : Bool × Bool := (g.classify boundary 10).delimiter boundary

/-- A boundary whose end cannot be taken for the end of a line. -/
def Plain (boundary : Bytes) : Prop := ¬ [13] <:+ boundary ∧ ¬ [13, 10] <:+ boundary

theorem Plain.last_dash (h : Plain boundary) (hlast : (dash boundary).getLast? = some 13) : False := by
  rcases boundary.eq_nil_or_concat' with rfl | ⟨init, c, rfl⟩
  · simp [dash] at hlast
  · rw [dash, ← List.cons_append, ← List.cons_append, List.getLast?_concat] at hlast
    exact h.1 ⟨init, by rw [Option.some.inj hlast]⟩

theorem Plain.dash_ne (h : Plain boundary) (hline : line.getLast? = some 13) : dash boundary ≠ line ++ [10] := by
  intro heq
  obtain ⟨init, rfl⟩ : ∃ init, line = init ++ [13] := by
    obtain ⟨init, hinit⟩ := List.getLast?_eq_some_iff.mp hline
    exact ⟨init, hinit⟩
  rcases init with _ | ⟨x, _ | ⟨y, init⟩⟩
  · simp [dash] at heq
  · simp [dash] at heq
  · refine h.2 ⟨init, ?_⟩
    simp [dash] at heq
    simp [heq.2.2]

theorem not_isDelimiter_of_length (h : line.length < (dash boundary).length + 2) (final : Bool) :
    ¬ IsDelimiter boundary final line := by
  intro hd
  obtain ⟨pad, -, rfl⟩ := isDelimiter_iff.mp hd
  simp at h
  omega

theorem answer_iff (final : Bool) :
    g.answer boundary = (true, final) ↔ (g.classify boundary 10).dashMatch = (dash boundary).length ∧
      (g.classify boundary 10).tailBad = false ∧ (g.classify boundary 10).tailDash = false ∧
      (g.classify boundary 10).previous = 13 ∧ (g.classify boundary 10).tailFinal = final := by
  rw [answer, delimiter]
  split_ifs with h
  · refine iff_of_false (by simp) ?_
    rintro ⟨hm, hbad, hdash, hprev, -⟩
    simp [hm, hbad, hdash, hprev] at h
  · simp only [not_or, not_not, Bool.not_eq_true] at h
    simp [h]

/-- The guard recognizes exactly the delimiter lines. -/
theorem answer_eq (hplain : Plain boundary) (h : g.Sees boundary line)
    (hprev : ∀ c, line.getLast? = some c → g.previous = c) (final : Bool) :
    g.answer boundary = (true, final) ↔ IsDelimiter boundary final (line ++ [10]) := by
  rw [answer_iff]
  obtain ⟨n, hb', f, hs, cl, fi, previous, fa, matched, tailBytes, tailFinal, tailBad, tailDash, tailCR⟩ := g
  cases h with
  | matching hm hline =>
    dsimp only at hm hprev
    refine iff_of_false ?_ (not_isDelimiter_of_length (by have := hline.length_le; simp; omega) final)
    simp only [classify, Bool.false_eq_true, or_false, false_and, if_false]
    rw [if_neg (by omega)]
    by_cases hfull : line = dash boundary
    · subst hfull
      rw [if_neg (by omega), if_neg (by decide), if_pos (by decide)]
      rintro ⟨-, -, -, rfl, -⟩
      obtain ⟨c, hc⟩ := Option.isSome_iff_exists.mp (by simp [dash] : (dash boundary).getLast?.isSome)
      exact hplain.last_dash (hprev c hc ▸ hc)
    have hlt : line.length < (dash boundary).length :=
      lt_of_le_of_ne hline.length_le fun heq => hfull (hline.eq_of_length heq)
    rw [if_pos (by omega), hm, Int.toNat_natCast]
    split_ifs with hnext
    · rintro ⟨hlen, -, -, rfl, -⟩
      obtain ⟨r, hr⟩ := hline
      rw [← hr, List.getElem?_append_right le_rfl, Nat.sub_self] at hnext
      have hone : r.length = 1 := by
        rw [← hr, List.length_append] at hlen
        push_cast at hlen
        omega
      obtain ⟨x, rfl⟩ := List.length_eq_one_iff.mp hone
      cases hnext
      obtain ⟨c, hc⟩ := Option.isSome_iff_exists.mp (by
        rw [List.getLast?_isSome]
        rintro rfl
        simp [dash] at hr : line.getLast?.isSome)
      exact hplain.dash_ne (hprev c hc ▸ hc) hr.symm
    · rintro ⟨hlen, -⟩
      dsimp only at hlen
      omega
  | other hm hline hdash =>
    dsimp only at hm
    rw [classify, if_pos (.inl (by dsimp only; omega))]
    refine iff_of_false (fun h => ?_) fun h => ?_
    · have := h.1
      dsimp only at this
      omega
    · obtain ⟨pad, -, heq⟩ := isDelimiter_iff.mp h
      rcases List.prefix_concat_iff.mp ⟨_, heq.symm⟩ with h | h
      · exact hline (h ▸ List.prefix_append _ _)
      · exact hdash h
  | bad hm h =>
    rw [classify, if_pos (.inr rfl)]
    refine iff_of_false (fun h => ?_) (h [10] final)
    cases h.2.1
  | hyphen hm =>
    dsimp only at hm
    simp only [classify, Bool.false_eq_true, or_false]
    rw [if_neg (by omega), if_neg (by omega), if_neg (by simp), if_neg (by simp), if_pos trivial]
    refine iff_of_false (fun h => by simpa using h.2.1) fun h => ?_
    obtain ⟨pad, hpad, heq⟩ := isDelimiter_iff.mp h
    rw [List.append_assoc, List.append_cancel_left_eq] at heq
    have hlen := congrArg List.length heq
    cases final with
    | true =>
      simp [closingDashes] at hlen
    | false =>
      obtain rfl : pad = [] := by simpa [closingDashes] using hlen
      cases heq
  | @padded _ pad n hm hn hne hpad =>
    dsimp only at hm hprev
    simp only [classify, Bool.false_eq_true, or_false, false_and, if_false]
    rw [if_neg (by omega), if_neg (by omega), if_neg (by simp), if_pos (by simp)]
    refine iff_of_false ?_ fun h => ?_
    · rintro ⟨-, -, -, rfl, -⟩
      have hlast (c : UInt8) (hc : (closingDashes tailFinal ++ pad).getLast? = some c) : c = 13 :=
        (hprev c (by rw [List.getLast?_append, hc]; rfl)).symm
      rcases pad.eq_nil_or_concat' with rfl | ⟨init, c, rfl⟩
      · cases tailFinal with
        | true => exact absurd (hlast 45 rfl) (by decide)
        | false => exact hne rfl
      · have hc := hpad c (by simp)
        rw [hlast c (by rw [← List.append_assoc, List.getLast?_concat])] at hc
        revert hc
        decide
    · obtain ⟨pad', hpad', heq⟩ := isDelimiter_iff.mp h
      rw [List.append_assoc, List.append_cancel_left_eq] at heq
      have := (tail_unique hpad hpad' (by decide) (fun _ _ => by decide) heq).2.1
      revert this
      decide
  | @cr _ pad n hm hn hpad =>
    dsimp only at hm hprev
    have hcr : previous = 13 := hprev 13 (by rw [← List.append_assoc, List.getLast?_concat])
    simp only [classify, Bool.false_eq_true, or_false]
    rw [if_neg (by omega), if_neg (by omega), if_neg (by simp), if_neg (by simp), if_neg (by simp), if_pos (by simp)]
    simp only [hm, hcr, true_and]
    constructor
    · rintro rfl
      exact isDelimiter_iff.mpr ⟨pad, hpad, by simp⟩
    · intro h
      obtain ⟨pad', hpad', heq⟩ := isDelimiter_iff.mp h
      simp only [List.append_assoc, List.append_cancel_left_eq] at heq
      have heq : closingDashes tailFinal ++ pad ++ 13 :: [10] = closingDashes final ++ pad' ++ 13 :: [10] := by
        simpa using heq
      exact (tail_unique hpad hpad' (by decide) (fun _ _ => by decide) heq).1

/-! ### The guard along a stream -/

/-- The stream starts with a delimiter line. -/
def Opens (boundary : Bytes) (final : Bool) (s : Bytes) : Prop :=
  ∃ l, l <+: s ∧ IsDelimiter boundary final l

theorem Opens.append (h : Opens boundary final s) (t : Bytes) : Opens boundary final (s ++ t) := by
  obtain ⟨l, hl, hd⟩ := h
  exact ⟨l, hl.trans (List.prefix_append s t), hd⟩

/-- The counters and places of the guard are those of the stream. -/
structure Counted (boundary s : Bytes) (f : Framing) (g : MultipartGuard) : Prop where
  failure : g.failure = none
  line : g.line = f.line.length
  first : g.first = true ↔ f.place = .start
  headers : g.headers = true ↔ f.place = .header
  closed : g.closed = true ↔ f.place = .closed
  start : f.place = .start → f.line = s ∧ f.total = 0 ∧ f.header = 0
  opened : f.place ≠ .start → ∃ final, Opens boundary final s
  headerBytes : f.place = .header → g.headerBytes = f.headerBytes
  framing : f.place ≠ .closed → g.framing = f.framingBytes
  headerBound : f.headerBytes ≤ 8192
  framingBound : f.framingBytes ≤ 2 ^ 20 ∨ Opens boundary true s

/-- The guard has passed `s` and knows where it stands. -/
structure Follows (boundary s : Bytes) (f : Framing) (g : MultipartGuard) :
    Prop extends Counted boundary s f g where
  sees : g.Sees boundary f.line
  previous : ∀ c, f.line.getLast? = some c → g.previous = c

theorem follows_init (boundary : Bytes) : Follows boundary [] {} {} := by
  refine ⟨?_, .matching rfl List.nil_prefix, by simp⟩
  constructor <;> simp [Framing.headerBytes, Framing.framingBytes]

/-- `classify` changes the flags of the line only. -/
theorem classify_rest (boundary : Bytes) (g : MultipartGuard) (b : UInt8) :
    ∃ m n final bad hyphen cr, g.classify boundary b = { g with
      dashMatch := m, tailBytes := n, tailFinal := final, tailBad := bad, tailDash := hyphen, tailCR := cr } := by
  unfold classify
  split_ifs <;> exact ⟨_, _, _, _, _, _, rfl⟩

/-- The state of a round after its counts. -/
def counted (boundary : Bytes) (g : MultipartGuard) (b : UInt8) : MultipartGuard :=
  (classify boundary { g with line := g.line + 1 } b).countHeader

theorem counted_eq (boundary : Bytes) (g : MultipartGuard) (b : UInt8) :
    ∃ n headerBytes framing, g.counted boundary b =
      { g.classify boundary b with line := n, headerBytes := headerBytes, framing := framing } := by
  have hclassify : classify boundary { g with line := g.line + 1 } b =
      { g.classify boundary b with line := g.line + 1 } := by
    unfold classify
    split_ifs <;> rfl
  rw [counted, hclassify, countHeader]
  split_ifs <;> exact ⟨_, _, _, rfl⟩

theorem counted_rest (boundary : Bytes) (g : MultipartGuard) (b : UInt8) :
    (g.counted boundary b).failure = g.failure ∧ (g.counted boundary b).closed = g.closed ∧
      (g.counted boundary b).previous = g.previous ∧ (g.counted boundary b).headers = g.headers ∧
      (g.counted boundary b).first = g.first := by
  obtain ⟨n, headerBytes, framing, hcounted⟩ := counted_eq boundary g b
  obtain ⟨m, n, final, bad, hyphen, cr, hrest⟩ := classify_rest boundary g b
  rw [hcounted, hrest]
  exact ⟨rfl, rfl, rfl, rfl, rfl⟩

variable {s : Bytes} {f : Framing} {b : UInt8}

/-- The byte that a round of the loop counts. -/
theorem Counted.count (h : Counted boundary s f g)
    (hg : g' = g.counted boundary b)
    (hlimit : ¬ (g'.headers = true ∧ (8192 < g'.headerBytes ∨ 2 ^ 20 < g'.framing))) :
    Counted boundary (s ++ [b]) { f with line := f.line ++ [b] } g' := by
  obtain ⟨m, n, final, bad, hyphen, cr, hrest⟩ := classify_rest boundary { g with line := g.line + 1 } b
  rw [counted, hrest, countHeader] at hg
  obtain ⟨hfailure, hline, hfirst, hheaders, hclose, hstart, hopened, hbytes, hframing, hheader, hbound⟩ := h
  have hopened' := fun hp => (hopened hp).imp fun final hf => hf.append [b]
  have hbound' := hbound.imp_right fun hf => hf.append [b]
  have hlen : (f.line ++ [b]).length = f.line.length + 1 := by simp
  simp only [Framing.headerBytes, Framing.framingBytes] at hbytes hframing hheader hbound'
  by_cases hh : g.headers = true
  · rw [if_pos hh] at hg
    subst hg
    have hp := hheaders.mp hh
    simp only [hp, if_true, forall_const, not_false_eq_true, ne_eq, reduceCtorEq, hh, true_and, not_or, not_lt]
      at hbytes hframing hlimit
    refine ⟨hfailure, by simp [hline], hfirst, hheaders, hclose, fun hs => ?_, hopened', fun _ => ?_,
      fun _ => ?_, ?_, ?_⟩
    · rw [hp] at hs
      cases hs
    all_goals simp only [Framing.headerBytes, Framing.framingBytes, hp, if_true, hlen]
    · omega
    · omega
    · omega
    · exact .inl (by omega)
  · rw [if_neg hh] at hg
    subst hg
    have hp := mt hheaders.mpr hh
    refine ⟨hfailure, by simp [hline], hfirst, hheaders, hclose, fun hs => ?_, hopened',
      fun hs => absurd hs hp, ?_, ?_, ?_⟩
    · obtain ⟨hs, htotal, hheader⟩ := hstart hs
      exact ⟨by rw [hs], htotal, hheader⟩
    all_goals simp only [Framing.headerBytes, Framing.framingBytes, hp, if_false] at hframing hheader hbound' ⊢
    · exact hframing
    · exact hheader
    · exact hbound'

/-- The end of a line that is passed. -/
theorem endLine_eq (h : g.endLine = (g', true)) : g.framing ≤ 2 ^ 20 ∧
    g' = { g with line := 0, previous := 10 } := by
  unfold endLine at h
  split_ifs at h with hbig
  · cases h
  · cases h
    exact ⟨not_lt.mp hbig, rfl⟩

/-- A new line. -/
theorem Counted.follows (h : Counted boundary s f g) (hline : f.line = []) (hm : g.dashMatch = 0)
    (hn : g.tailBytes = 0)
    (hfinal : g.tailFinal = false) (hbad : g.tailBad = false) (hdash : g.tailDash = false) (hcr : g.tailCR = false) :
    Follows boundary s f g := by
  refine ⟨h, ?_, by simp [hline]⟩
  rw [Sees, hn, hfinal, hbad, hdash, hcr, hline]
  exact .matching hm List.nil_prefix

/-- The round at a line feed, where `f` has the whole line. -/
theorem Counted.lineFeed {init : Bytes} (h : Counted boundary s f g) (hclosed : ¬ g.closed = true)
    (hend : f.line = init ++ [10]) (hanswer : ∀ final, g.delimiter boundary = (true, final) ↔
      IsDelimiter boundary final f.line)
    (hprev : ∀ c, init.getLast? = some c → g.previous = c) (hfeed : g.lineFeed boundary = (g', true)) :
    Follows boundary s (f.lineFeed boundary) g' := by
  obtain ⟨place, line, header, total⟩ := f
  obtain ⟨hfailure, hline, hfirst, hheaders, hclose, hstart, hopened, hbytes, hframing, hheader, hbound⟩ := h
  simp only [Framing.headerBytes, Framing.framingBytes] at *
  rcases hd : g.delimiter boundary with ⟨delimiter, final⟩
  rw [hd] at hanswer
  rw [MultipartGuard.lineFeed, hd] at hfeed
  dsimp only at hfeed
  cases place with
  | start =>
    obtain ⟨rfl, rfl, rfl⟩ := hstart rfl
    have hheaders : g.headers = false := by simpa using hheaders
    have hopens (final) (hd : IsDelimiter boundary final line) : Opens boundary final line :=
      ⟨line, List.prefix_rfl, hd⟩
    rw [if_pos (hfirst.mpr rfl)] at hfeed
    cases delimiter with
    | false => cases hfeed
    | true =>
      have hdelimiter := (hanswer final).mp rfl
      cases final with
      | true =>
        cases hfeed
        rw [Framing.lineFeed, if_pos hdelimiter]
        refine Counted.follows ?_ rfl rfl rfl rfl rfl rfl rfl
        constructor <;> first | assumption | grind [Framing.headerBytes, Framing.framingBytes]
      | false =>
        have hnot : ¬ IsDelimiter boundary true line := fun ht => nomatch (hanswer true).mpr ht
        obtain ⟨hle, rfl⟩ := endLine_eq hfeed
        have htotal : g.framing + g.line = 0 + line.length := by simpa [hline] using hframing
        rw [Framing.lineFeed, if_neg hnot, if_pos hdelimiter]
        refine Counted.follows ?_ rfl rfl rfl rfl rfl rfl rfl
        constructor <;> first | assumption | grind [Framing.headerBytes, Framing.framingBytes]
  | header =>
    have hfirst : g.first = false := by simpa using hfirst
    have hheaders := hheaders.mpr rfl
    rw [if_neg (by simp [hfirst]), if_pos hheaders] at hfeed
    split_ifs at hfeed with hcr hblank
    · cases hfeed
    · have hcrlf : line = [13, 10] := by
        subst hend
        obtain ⟨c, rfl⟩ := List.length_eq_one_iff.mp (by simpa [hblank] using hline.symm : init.length = 1)
        rw [← hprev c rfl, not_not.mp hcr]
        rfl
      obtain ⟨hle, rfl⟩ := endLine_eq hfeed
      rw [Framing.lineFeed]
      refine Counted.follows ?_ rfl rfl rfl rfl rfl rfl rfl
      constructor <;> first | assumption | grind [Framing.headerBytes, Framing.framingBytes]
    · have hcrlf : line ≠ [13, 10] := by
        rintro rfl
        exact hblank hline
      obtain ⟨hle, rfl⟩ := endLine_eq hfeed
      rw [Framing.lineFeed, if_neg hcrlf]
      refine Counted.follows ?_ rfl rfl rfl rfl rfl rfl rfl
      constructor <;> first | assumption | grind [Framing.headerBytes, Framing.framingBytes]
  | body =>
    have hfirst : g.first = false := by simpa using hfirst
    have hheaders : g.headers = false := by simpa using hheaders
    have hframing : g.framing = total := by simpa using hframing
    have htotal : g.framing + g.line = total + line.length := by rw [hframing, hline]
    rw [if_neg (by simp [hfirst]), if_neg (by simp [hheaders])] at hfeed
    cases delimiter with
    | false =>
      have hnot (final) : ¬ IsDelimiter boundary final line := fun ht => nomatch (hanswer final).mpr ht
      obtain ⟨hle, rfl⟩ := endLine_eq hfeed
      rw [Framing.lineFeed, if_neg (hnot true), if_neg (hnot false)]
      refine Counted.follows ?_ rfl rfl rfl rfl rfl rfl rfl
      constructor <;> first | assumption | grind [Framing.headerBytes, Framing.framingBytes]
    | true =>
      have hdelimiter := (hanswer final).mp rfl
      obtain ⟨hle, rfl⟩ := endLine_eq hfeed
      cases final with
      | true =>
        rw [Framing.lineFeed, if_pos hdelimiter]
        refine Counted.follows ?_ rfl rfl rfl rfl rfl rfl rfl
        constructor <;> first | assumption | grind [Framing.headerBytes, Framing.framingBytes]
      | false =>
        have hnot : ¬ IsDelimiter boundary true line := fun ht => nomatch (hanswer true).mpr ht
        rw [Framing.lineFeed, if_neg hnot, if_pos hdelimiter]
        refine Counted.follows ?_ rfl rfl rfl rfl rfl rfl rfl
        constructor <;> first | assumption | grind [Framing.headerBytes, Framing.framingBytes]
  | closed => exact absurd (hclose.mpr rfl) hclosed

theorem feed_eq (boundary : Bytes) (g : MultipartGuard) (b : UInt8) :
    g.feed boundary b = if g.closed then g.fail .invalid else
      if (g.counted boundary b).headers = true ∧
        (8192 < (g.counted boundary b).headerBytes ∨ 2 ^ 20 < (g.counted boundary b).framing)
      then (g.counted boundary b).fail .limit
      else if b = 10 then (g.counted boundary b).lineFeed boundary
      else ({ g.counted boundary b with previous := b }, true) := rfl

/-- What a round does. -/
theorem feed_cases (boundary : Bytes) (g : MultipartGuard) (b : UInt8) :
    (∃ g' e, g.feed boundary b = (g', false) ∧ g'.failure = some e) ∨ g.closed = false ∧
      ¬ ((g.counted boundary b).headers = true ∧
        (8192 < (g.counted boundary b).headerBytes ∨ 2 ^ 20 < (g.counted boundary b).framing)) ∧
      (b = 10 ∧ g.feed boundary b = (g.counted boundary b).lineFeed boundary ∨
        b ≠ 10 ∧ g.feed boundary b = ({ g.counted boundary b with previous := b }, true)) := by
  rw [feed_eq]
  generalize g.counted boundary b = c
  by_cases hclosed : g.closed = true
  · exact .inl ⟨_, .invalid, if_pos hclosed, rfl⟩
  rw [if_neg hclosed]
  by_cases hlimit : c.headers = true ∧ (8192 < c.headerBytes ∨ 2 ^ 20 < c.framing)
  · exact .inl ⟨_, .limit, if_pos hlimit, rfl⟩
  rw [if_neg hlimit]
  refine .inr ⟨by simpa using hclosed, hlimit, ?_⟩
  by_cases hlf : b = 10
  · exact .inl ⟨hlf, if_pos hlf⟩
  · exact .inr ⟨hlf, if_neg hlf⟩

/-- A line feed is passed, or the guard says why not. -/
theorem lineFeed_failure (boundary : Bytes) (g : MultipartGuard) :
    ((g.lineFeed boundary).1.failure = g.failure ∧ (g.lineFeed boundary).2 = true) ∨
      ∃ e, (g.lineFeed boundary).1.failure = some e ∧ (g.lineFeed boundary).2 = false := by
  have hfail (g : MultipartGuard) (e) : ∃ e', (g.fail e).1.failure = some e' ∧ (g.fail e).2 = false := ⟨e, rfl, rfl⟩
  have hend (g : MultipartGuard) : (g.endLine.1.failure = g.failure ∧ g.endLine.2 = true) ∨
      ∃ e, g.endLine.1.failure = some e ∧ g.endLine.2 = false := by
    unfold endLine
    split_ifs
    · exact .inr (hfail _ _)
    · exact .inl ⟨rfl, rfl⟩
  unfold MultipartGuard.lineFeed
  rcases g.delimiter boundary with ⟨delimiter, final⟩
  dsimp only
  split_ifs
  · exact .inl ⟨rfl, rfl⟩
  · exact .inr (hfail _ _)
  · exact hend _
  · exact .inr (hfail _ _)
  · exact hend _
  · exact hend _
  · exact hend _
  · exact hend _

/-- A byte is passed, or the guard says why not. -/
theorem feed_failure (boundary : Bytes) (g : MultipartGuard) (b : UInt8) :
    ((g.feed boundary b).1.failure = g.failure ∧ (g.feed boundary b).2 = true) ∨
      ∃ e, (g.feed boundary b).1.failure = some e ∧ (g.feed boundary b).2 = false := by
  rcases feed_cases boundary g b with ⟨g', e, hfeed, he⟩ | ⟨-, -, ⟨-, hfeed⟩ | ⟨-, hfeed⟩⟩
  · exact .inr ⟨e, by rw [hfeed, he], by rw [hfeed]⟩
  · rw [hfeed, ← (counted_rest boundary g b).1]
    exact lineFeed_failure boundary _
  · rw [hfeed]
    exact .inl ⟨(counted_rest boundary g b).1, rfl⟩

/-- One round that passes its byte. -/
theorem Follows.feed (hplain : Plain boundary) (h : Follows boundary s f g)
    (hfeed : g.feed boundary b = (g', true)) :
    Follows boundary (s ++ [b]) (f.feed boundary b) g' := by
  obtain ⟨n, headerBytes, framing, hcounted⟩ := counted_eq boundary g b
  obtain ⟨-, hclose, hprevious, -, -⟩ := counted_rest boundary g b
  rcases feed_cases boundary g b with ⟨g', e, hfeed', -⟩ | ⟨hclosed, hlimit, ⟨rfl, hfeed'⟩ | ⟨hb, hfeed'⟩⟩
  · rw [hfeed] at hfeed'
    cases hfeed'
  all_goals
    have hcount := h.toCounted.count rfl hlimit
    rw [Framing.feed]
  · rw [if_pos rfl]
    refine @Counted.lineFeed _ _ _ _ _ f.line hcount (by simp [hclose, hclosed]) rfl (fun final => ?_)
      (fun c hc => hprevious.trans (h.previous c hc)) (hfeed'.symm.trans hfeed)
    rw [← answer_eq hplain h.sees h.previous final, hcounted, answer, delimiter, delimiter]
  · rw [if_neg hb]
    obtain rfl := (Prod.mk.inj (hfeed.symm.trans hfeed')).1
    refine ⟨⟨hcount.failure, hcount.line, hcount.first, hcount.headers, hcount.closed, hcount.start, hcount.opened,
      hcount.headerBytes, hcount.framing, hcount.headerBound, hcount.framingBound⟩, ?_, fun c hc => ?_⟩
    · rw [Sees, hcounted]
      exact classify_sees hb h.sees
    · simpa using hc

/-! ### Whole streams -/

/-- The answers of a source that gives `stream` and then `e`. -/
inductive Delivers (e : ReadError) : List (Bytes × Option ReadError) → Bytes → Prop
  | last (chunk : Bytes) : Delivers e [(chunk, some e)] chunk
  | more {answers : List (Bytes × Option ReadError)} {stream : Bytes} (chunk : Bytes)
      (h : Delivers e answers stream) : Delivers e ((chunk, none) :: answers) (chunk ++ stream)

theorem feedAll_append (boundary : Bytes) (g : MultipartGuard) (hg : g.failure = none) (u : Bytes) :
    ((feedAll boundary g u).1.failure = none ∧ (feedAll boundary g u).2 = u ∧ ∀ t, feedAll boundary g (u ++ t) =
      ((feedAll boundary (feedAll boundary g u).1 t).1, u ++ (feedAll boundary (feedAll boundary g u).1 t).2)) ∨
    ∃ e, (feedAll boundary g u).1.failure = some e ∧ ∀ t, feedAll boundary g (u ++ t) = feedAll boundary g u := by
  induction u generalizing g with
  | nil => exact .inl ⟨hg, rfl, fun t => rfl⟩
  | cons b u ih =>
    rcases hfeed : g.feed boundary b with ⟨g', passed⟩
    have hfailure := feed_failure boundary g b
    rw [hfeed] at hfailure
    rcases hfailure with ⟨hg', rfl⟩ | ⟨e, he, rfl⟩
    · rcases ih g' (hg'.trans hg) with ⟨hnone, hall, happend⟩ | ⟨e, he, hstop⟩
      · refine .inl ⟨?_, ?_, fun t => ?_⟩
        all_goals simp only [feedAll, List.cons_append, hfeed]
        · exact hnone
        · rw [hall]
        · rw [happend]
      · refine .inr ⟨e, ?_, fun t => ?_⟩
        all_goals simp only [feedAll, List.cons_append, hfeed]
        · exact he
        · rw [hstop]
    · refine .inr ⟨e, ?_, fun t => ?_⟩
      all_goals simp only [feedAll, List.cons_append, hfeed]
      exact he

/-- How the source splits the stream does not matter. -/
theorem readAll_eq {e : ReadError} {answers : List (Bytes × Option ReadError)} {stream : Bytes}
    (h : Delivers e answers stream) (g : MultipartGuard) (hg : g.failure = none) :
    readAll boundary g answers = (g.read boundary stream (some e)).1 := by
  induction h generalizing g with
  | last chunk =>
    simp only [readAll, read, hg]
    rcases (g.feedAll boundary chunk).1.failure with _ | f
    · split_ifs <;> rfl
    · rfl
  | @more answers stream chunk h ih =>
    rcases feedAll_append boundary g hg chunk with ⟨hnone, hall, happend⟩ | ⟨f, hf, hstop⟩
    · simp only [readAll, read, hg, hnone, happend, reduceCtorEq, false_and, if_false]
      rw [ih _ hnone, read, hnone, hall]
      dsimp only
      rcases (feedAll boundary (g.feedAll boundary chunk).1 stream).1.failure with _ | f <;> rfl
    · simp only [readAll, read, hg, hf, hstop]

/-- What is passed is the beginning of the stream, and its own beginnings are passed. -/
theorem feedAll_passed (boundary : Bytes) (g : MultipartGuard) (t : Bytes) :
    (feedAll boundary g t).2 <+: t ∧ ∀ u, u <+: (feedAll boundary g t).2 → (feedAll boundary g u).2 = u := by
  induction t generalizing g with
  | nil => exact ⟨List.nil_prefix, fun u hu => by rw [List.prefix_nil.mp hu]; rfl⟩
  | cons b t ih =>
    rw [feedAll]
    rcases hfeed : g.feed boundary b with ⟨g', _ | _⟩
    · exact ⟨List.nil_prefix, fun u hu => by rw [List.prefix_nil.mp hu]; rfl⟩
    · dsimp only
      refine ⟨(List.prefix_cons_inj b).mpr (ih g').1, fun u hu => ?_⟩
      cases u with
      | nil => rfl
      | cons c u =>
        obtain ⟨rfl, hrest⟩ := List.cons_prefix_cons.mp hu
        rw [feedAll, hfeed]
        exact congrArg _ ((ih g').2 u hrest)

theorem Follows.feedAll (hplain : Plain boundary) (h : Follows boundary s f g) (hu : (feedAll boundary g u).2 = u) :
    Follows boundary (s ++ u) (u.foldl (Framing.feed boundary) f) (feedAll boundary g u).1 := by
  induction u generalizing s f g with
  | nil => simpa [MultipartGuard.feedAll] using h
  | cons b u ih =>
    rw [MultipartGuard.feedAll] at hu ⊢
    rcases hfeed : g.feed boundary b with ⟨g', _ | _⟩
    · rw [hfeed] at hu
      cases hu
    · rw [hfeed] at hu
      simpa using ih (h.feed hplain hfeed) (List.cons.inj hu).2

/-- After a closing delimiter line nothing is passed. -/
theorem eq_of_closed (hplain : Plain boundary) {t : Bytes} (hu : u <+: (feedAll boundary {} t).2)
    (hclosed : (Framing.of boundary u).place = .closed) : u = (feedAll boundary {} t).2 := by
  obtain ⟨v, hv⟩ := hu
  cases v with
  | nil => simpa using hv
  | cons b v =>
    have hpassed := (feedAll_passed boundary {} t).2
    have hall := hpassed u ⟨_, hv⟩
    have hnext := hpassed (u ++ [b]) ⟨v, by simpa using hv⟩
    have hclose := ((follows_init boundary).feedAll hplain hall).closed.mpr hclosed
    have hfeed : feed boundary (feedAll boundary {} u).1 b =
        fail (feedAll boundary {} u).1 .invalid := if_pos hclose
    rcases feedAll_append boundary {} rfl u with ⟨-, -, happend⟩ | ⟨e, -, hstop⟩
    · rw [happend, feedAll, hfeed, fail] at hnext
      simp at hnext
    · rw [hstop, hall] at hnext
      simp at hnext

/-! ### A first line -/

theorem Framing.of_line (h : 10 ∉ line) : Framing.of boundary line = { line := line } := by
  induction line using List.reverseRecOn with
  | nil => rfl
  | append_singleton line b ih =>
    rw [List.mem_append, List.mem_singleton, not_or] at h
    rw [Framing.of_concat, ih h.1, Framing.feed, if_neg (Ne.symm h.2)]

/-- Outside of headers a line is passed up to its line feed. -/
theorem feedAll_line (h : 10 ∉ line) (hclosed : g.closed = false) (hheaders : g.headers = false) :
    (feedAll boundary g line).2 = line ∧ (feedAll boundary g line).1.closed = false ∧
      (feedAll boundary g line).1.headers = false ∧ (feedAll boundary g line).1.first = g.first := by
  induction line generalizing g with
  | nil => exact ⟨rfl, hclosed, hheaders, rfl⟩
  | cons b line ih =>
    rw [List.mem_cons, not_or] at h
    obtain ⟨-, hclose, -, hheader, hfirst⟩ := counted_rest boundary g b
    have hfeed : g.feed boundary b = ({ g.counted boundary b with previous := b }, true) := by
      rw [feed_eq, if_neg (by simp [hclosed]), if_neg (by simp [hheader, hheaders]), if_neg (Ne.symm h.1)]
    obtain ⟨hall, hc, hh, hf⟩ :=
      @ih { g.counted boundary b with previous := b } h.2 (hclose.trans hclosed) (hheader.trans hheaders)
    rw [feedAll, hfeed]
    exact ⟨congrArg _ hall, hc, hh, hf.trans hfirst⟩

/-- A first line that closes is passed, however long it is. -/
theorem feedAll_closing (hplain : Plain boundary) (h : 10 ∉ line) (hd : IsDelimiter boundary true (line ++ [10])) :
    (feedAll boundary {} (line ++ [10])).2 = line ++ [10] ∧ (feedAll boundary {} (line ++ [10])).1.failure = none ∧
      (feedAll boundary {} (line ++ [10])).1.closed = true := by
  obtain ⟨hall, hclosed, hheaders, hfirst⟩ := @feedAll_line boundary {} line h rfl rfl
  have hfollows := (follows_init boundary).feedAll hplain hall
  have hanswer := (answer_eq hplain hfollows.sees hfollows.previous true).mpr (by
    rw [show List.foldl (Framing.feed boundary) {} line = { line := line } from Framing.of_line h]
    exact hd)
  have hfailure := hfollows.failure
  rcases feedAll_append boundary {} rfl line with ⟨-, -, happend⟩ | ⟨e, he, -⟩
  · generalize (feedAll boundary {} line).1 = g at *
    obtain ⟨hfail, -, -, hheader, hstart⟩ := counted_rest boundary g 10
    obtain ⟨n, headerBytes, framing, hcounted⟩ := counted_eq boundary g 10
    have hfeed : g.feed boundary 10 = (g.counted boundary 10).lineFeed boundary := by
      rw [feed_eq, if_neg (by simp [hclosed]), if_neg (by simp [hheader, hheaders]), if_pos rfl]
    have hdelimiter : (g.counted boundary 10).delimiter boundary = (true, true) := by
      rw [← hanswer, hcounted, answer, delimiter, delimiter]
    rw [happend, feedAll, hfeed, lineFeed, hdelimiter]
    simp only [hstart.trans hfirst, Bool.and_self, if_true]
    exact ⟨rfl, hfail.trans hfailure, rfl⟩
  · rw [hfailure] at he
    cases he

/-- A first line that closes is not counted. -/
theorem closing_uncounted (hplain : Plain boundary) (hlf : 10 ∉ boundary) (n : ℕ) :
    ∃ stream, readAll boundary {} [(stream, some .eof)] = (stream, some .eof) ∧
      n < (Framing.of boundary stream).framingBytes := by
  have hline : 10 ∉ dash boundary ++ (closingDashes true ++ List.replicate n 32 ++ [13]) := by
    simp [dash, closingDashes, hlf]
  have hd : IsDelimiter boundary true (dash boundary ++
      (closingDashes true ++ List.replicate n 32 ++ [13]) ++ [10]) :=
    isDelimiter_iff.mpr ⟨List.replicate n 32, fun c hc => .inl (List.eq_of_mem_replicate hc), by simp⟩
  obtain ⟨hall, hnone, hclosed⟩ := feedAll_closing hplain hline hd
  refine ⟨dash boundary ++ (closingDashes true ++ List.replicate n 32 ++ [13]) ++ [10], ?_, ?_⟩
  · rw [readAll_eq (.last _) {} rfl, read]
    simp only [hnone, hall, hclosed, reduceCtorEq, and_false, if_false]
  · rw [Framing.of_concat, Framing.of_line hline, Framing.feed, if_pos rfl, Framing.lineFeed, if_pos hd]
    simp [Framing.framingBytes, dash, closingDashes]
    omega

/-- A delimiter line is passed up to its line feed, however long it is. -/
theorem opening_uncounted (hlf : 10 ∉ boundary) (n : ℕ) :
    ∃ stream, IsDelimiter boundary false stream ∧ n < (readAll boundary {} [(stream, some .eof)]).1.length := by
  have hline : 10 ∉ dash boundary ++ (closingDashes false ++ List.replicate n 32 ++ [13]) := by
    simp [dash, closingDashes, hlf]
  refine ⟨dash boundary ++ (closingDashes false ++ List.replicate n 32 ++ [13]) ++ [10],
    isDelimiter_iff.mpr ⟨List.replicate n 32, fun c hc => .inl (List.eq_of_mem_replicate hc), by simp⟩, ?_⟩
  have hlength : n < (dash boundary ++ (closingDashes false ++ List.replicate n 32 ++ [13])).length := by
    simp [dash, closingDashes]
    omega
  generalize dash boundary ++ (closingDashes false ++ List.replicate n 32 ++ [13]) = line at hline hlength ⊢
  have hpassed : ((({} : MultipartGuard).read boundary (line ++ [10]) (some .eof)).1).1 =
      (feedAll boundary {} (line ++ [10])).2 := by
    simp only [read]
    rcases (feedAll boundary {} (line ++ [10])).1.failure with _ | f <;> rfl
  obtain ⟨hall, -⟩ := @feedAll_line boundary {} line hline rfl rfl
  rw [readAll_eq (.last _) {} rfl, hpassed]
  rcases feedAll_append boundary {} rfl line with ⟨-, -, happend⟩ | ⟨e, -, hstop⟩
  · rw [happend, List.length_append]
    omega
  · rwa [hstop, hall]

/-- The guard passes the same bytes however the source splits them, and stands at each of them where a reader of
whole lines stands. -/
theorem multipartGuard_reads (hplain : Plain boundary) {e : ReadError} {answers : List (Bytes × Option ReadError)}
    {stream passed : Bytes} {result : Option ReadError} (hanswers : Delivers e answers stream)
    (hread : readAll boundary {} answers = (passed, result)) :
    (({} : MultipartGuard).read boundary stream (some e)).1 = (passed, result) ∧ passed <+: stream ∧ result.isSome ∧
    (∀ u, u <+: passed →
      (∀ final, (feedAll boundary {} u).1.answer boundary = (true, final) ↔
        IsDelimiter boundary final ((Framing.of boundary u).line ++ [10])) ∧
      ((Framing.of boundary u).place = .closed → u = passed) ∧
      (Framing.of boundary u).headerBytes ≤ 8192 ∧
      ((Framing.of boundary u).framingBytes ≤ 2 ^ 20 ∨ Opens boundary true stream)) ∧
    ((∀ final, ¬ Opens boundary final stream) → result ≠ some .eof) ∧
    (result = some .eof → passed = stream ∧ (Framing.of boundary stream).place = .closed) := by
  have hwhole := (readAll_eq hanswers {} rfl).symm.trans hread
  have hcases : passed = (feedAll boundary {} stream).2 ∧ result.isSome ∧ (result = some .eof →
      (feedAll boundary {} stream).1.failure = none ∧ (feedAll boundary {} stream).1.closed = true) := by
    simp only [read] at hwhole
    rcases hf : (feedAll boundary {} stream).1.failure with _ | f
    · rw [hf] at hwhole
      dsimp only at hwhole
      obtain ⟨rfl, rfl⟩ := Prod.mk.inj hwhole
      split_ifs with he
      · exact ⟨rfl, rfl, nofun⟩
      · exact ⟨rfl, rfl, fun heof => ⟨rfl, by simpa [heof] using he⟩⟩
    · rw [hf] at hwhole
      obtain ⟨rfl, rfl⟩ := Prod.mk.inj hwhole
      exact ⟨rfl, rfl, nofun⟩
  obtain ⟨rfl, hsome, heof⟩ := hcases
  obtain ⟨hinitial, hpassed⟩ := feedAll_passed boundary {} stream
  have hfollows (u) (hu : u <+: (feedAll boundary {} stream).2) :
      Follows boundary u (Framing.of boundary u) (feedAll boundary {} u).1 :=
    (follows_init boundary).feedAll hplain (hpassed u hu)
  have hend (hr : result = some .eof) : (feedAll boundary {} stream).2 = stream ∧
      (Framing.of boundary stream).place = .closed ∧ ∃ final, Opens boundary final stream := by
    obtain ⟨hnone, hclosed⟩ := heof hr
    rcases feedAll_append boundary {} rfl stream with ⟨-, hall, -⟩ | ⟨f, hf, -⟩
    · have h := hfollows stream (by rw [hall])
      have hplace := h.closed.mp hclosed
      exact ⟨hall, hplace, h.opened (by simp [hplace])⟩
    · rw [hnone] at hf
      cases hf
  refine ⟨hwhole, hinitial, hsome, fun u hu => ?_, fun hopens hr => ?_, fun hr => ⟨(hend hr).1, (hend hr).2.1⟩⟩
  · have h := hfollows u hu
    refine ⟨answer_eq hplain h.sees h.previous, eq_of_closed hplain hu, h.headerBound,
      h.framingBound.imp_right fun ho => ?_⟩
    obtain ⟨r, hr⟩ := hu.trans hinitial
    exact hr ▸ ho.append r
  · obtain ⟨final, ho⟩ := (hend hr).2.2
    exact hopens final ho

/-- A part with a header and a body, split within its first line. -/
theorem multipartGuard_reads_one :
    let stream := [45, 45, 98] ++ [13, 10, 65, 58, 99, 13, 10, 13, 10, 120, 13, 10, 45, 45, 98, 45, 45, 13, 10]
    Plain [98] ∧
    Delivers .eof [([45, 45, 98], none),
      ([13, 10, 65, 58, 99, 13, 10, 13, 10, 120, 13, 10, 45, 45, 98, 45, 45, 13, 10], some .eof)] stream ∧
    (Framing.of [98] stream).place = .closed ∧ (Framing.of [98] stream).framingBytes ≤ 2 ^ 20 := by
  intro stream
  have hplain : Plain [98] := by unfold Plain; decide
  have hanswers := Delivers.more [45, 45, 98] (.last (e := .eof)
    [13, 10, 65, 58, 99, 13, 10, 13, 10, 120, 13, 10, 45, 45, 98, 45, 45, 13, 10])
  have hread : readAll [98] {} [([45, 45, 98], none),
      ([13, 10, 65, 58, 99, 13, 10, 13, 10, 120, 13, 10, 45, 45, 98, 45, 45, 13, 10], some .eof)] =
      (stream, some .eof) := by decide
  obtain ⟨-, -, -, hpassed, -, hend⟩ := multipartGuard_reads hplain hanswers hread
  refine ⟨hplain, hanswers, (hend rfl).2, (hpassed stream List.prefix_rfl).2.2.2.resolve_right ?_⟩
  rintro ⟨l, hl, hd⟩
  obtain ⟨pad, -, rfl⟩ := isDelimiter_iff.mp hd
  simp [dash, closingDashes] at hl

/-- A boundary that ends in a carriage return ends the line itself, a first line that closes is not counted, a
delimiter line is passed up to its line feed before it is counted, and within a header a closing line is passed as
any other. -/
theorem multipartGuard_reads_fails :
    (readAll [98, 13] {} [([45, 45, 98, 13, 10, 13, 10, 45, 45, 98, 13, 45, 45, 13, 10], some .eof)] =
        ([45, 45, 98, 13, 10, 13, 10, 45, 45, 98, 13, 45, 45, 13, 10], some .eof) ∧
      ∀ final, ¬ Opens [98, 13] final [45, 45, 98, 13, 10, 13, 10, 45, 45, 98, 13, 45, 45, 13, 10]) ∧
    (∃ stream, readAll [98] {} [(stream, some .eof)] = (stream, some .eof) ∧
      2 ^ 20 < (Framing.of [98] stream).framingBytes) ∧
    (∃ stream, IsDelimiter [98] false stream ∧ 2 ^ 20 < (readAll [98] {} [(stream, some .eof)]).1.length) ∧
    ∃ before closing after, IsDelimiter [98] true closing ∧ before = [45, 45, 98, 13, 10] ∧ after.length = 21 ∧
      readAll [98] {} [(before ++ closing ++ after, some .eof)] = (before ++ closing ++ after, some .eof) := by
  refine ⟨⟨by decide, ?_⟩, closing_uncounted (by unfold Plain; decide) (by decide) (2 ^ 20),
    opening_uncounted (by decide) (2 ^ 20), ?_⟩
  · rintro final ⟨l, hl, hd⟩
    obtain ⟨pad, hpad, rfl⟩ := isDelimiter_iff.mp hd
    have hrest := (List.prefix_append_right_inj (dash [98, 13])).mp
      (show _ <+: dash [98, 13] ++ [10, 13, 10, 45, 45, 98, 13, 45, 45, 13, 10] from hl)
    cases final with
    | true => simp [closingDashes] at hrest
    | false =>
      cases pad with
      | nil => simp [closingDashes] at hrest
      | cons x pad =>
        obtain ⟨rfl, -⟩ := List.cons_prefix_cons.mp hrest
        exact absurd (hpad _ List.mem_cons_self) (by decide)
  · exact ⟨[45, 45, 98, 13, 10], [45, 45, 98, 45, 45, 13, 10],
      [88, 58, 32, 121, 13, 10, 13, 10, 98, 111, 100, 121, 13, 10, 45, 45, 98, 45, 45, 13, 10],
      ⟨[], by simp, rfl⟩, rfl, rfl, by decide⟩

end MultipartGuard
end Onprest.Gateway
