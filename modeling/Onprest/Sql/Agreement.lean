import Mathlib.Data.FinEnum
import Mathlib.Data.List.TakeWhile
import Onprest.Sql.Postgres

/-! The byte scanner against PostgreSQL's reading of a text. The scanner decides where a region starts from one or
two bytes before it; PostgreSQL decides from whole tokens. Read side by side, the two differ only at a few shapes of
text. -/

namespace Onprest.Sql.Postgres

/-! ### The two ways to find the end of a token -/

theorem quotedText_eq (quote : UInt8) (escapes : Bool) (cs : Text) :
    quotedText quote escapes cs = cs.take (skipSQLQuoted quote escapes cs) := by
  fun_induction quotedText quote escapes cs with
  | case1 => rfl
  | case2 c =>
    rw [skipSQLQuoted]
    split_ifs <;> simp_all [skipSQLQuoted]
  | case3 c d cs h ih =>
    rw [skipSQLQuoted, if_pos (by simp [h.1, h.2]), ih, Nat.add_comm, List.take_succ_cons, List.take_succ_cons]
  | case4 c d cs h other ih =>
    rw [skipSQLQuoted, if_neg (by simpa using h), if_pos other, ih, Nat.add_comm, List.take_succ_cons]
  | case5 c cs h same ih =>
    rw [skipSQLQuoted, if_neg (by simpa using h), if_neg same, if_pos rfl, ih, Nat.add_comm, List.take_succ_cons,
      List.take_succ_cons]
  | case6 c d cs h same single =>
    rw [skipSQLQuoted, if_neg (by simpa using h), if_neg same, if_neg single, List.take_succ_cons, List.take_zero]

theorem lineText_eq (cs : Text) : lineText cs = cs.take (skipSQLLineComment cs) := by
  rw [lineText]
  induction cs with
  | nil => rfl
  | cons c cs ih =>
    rw [skipSQLLineComment, List.takeWhile_cons]
    by_cases feed : c = '\n'.toUInt8
    · simp [feed]
    · simp only [feed, ne_eq, not_false_eq_true, decide_true, if_true, if_false, List.length_cons,
        List.take_succ_cons, Nat.add_comm 1]
      rw [← ih]

theorem commentText_eq (depth : ℕ) (cs : Text) :
    commentText depth cs = cs.take (skipSQLBlockComment true (depth + 1) cs) := by
  fun_induction commentText depth cs with
  | case1 => rfl
  | case2 => rfl
  | case3 depth c d cs opened ih =>
    rw [skipSQLBlockComment, if_pos ⟨opened.1, opened.2, rfl⟩, ih, Nat.add_comm 2, List.take_succ_cons,
      List.take_succ_cons]
  | case4 c d cs opened closed =>
    rw [skipSQLBlockComment, if_neg (by tauto), if_pos closed, if_pos rfl]
    rfl
  | case5 c d cs opened closed depth ih =>
    rw [skipSQLBlockComment, if_neg (by tauto), if_pos closed, if_neg (by omega), ih, Nat.add_comm 2,
      List.take_succ_cons, List.take_succ_cons, Nat.add_sub_cancel]
  | case6 depth c d cs opened closed ih =>
    rw [skipSQLBlockComment, if_neg (by tauto), if_neg closed, ih, Nat.add_comm 1, List.take_succ_cons]

theorem taggedText_eq (tag cs : Text) : taggedText tag cs = cs.take (dollarBody tag cs) := by
  induction cs with
  | nil => rw [taggedText, List.take_nil]
  | cons c cs ih =>
    rw [taggedText, dollarBody, indexOf]
    by_cases front : tag <+: c :: cs
    · rw [if_pos front, if_pos (List.isPrefixOf_iff_prefix.mpr front)]
      simpa using List.prefix_iff_eq_take.mp front
    · rw [if_neg front, if_neg (by simpa using front), ih, dollarBody]
      cases indexOf tag cs with
      | none => rfl
      | some n => simp [Nat.add_right_comm]

/-! ### Where tokens end -/

/-- A text runs to the end of the input or ends in a byte. -/
def ClosedBy (b : UInt8) (text rest : Text) : Prop := rest = [] ∨ text.getLast? = some b

theorem ClosedBy.cons {b c : UInt8} {text rest : Text} (h : ClosedBy b text rest) :
    ClosedBy b (c :: text) rest := by
  rcases h with h | h
  · exact .inl h
  · exact .inr (by rw [List.getLast?_cons, h]; rfl)

theorem quotedText_closed (quote : UInt8) (escapes : Bool) (cs : Text) :
    ClosedBy quote (quotedText quote escapes cs) (cs.drop (quotedText quote escapes cs).length) := by
  fun_induction quotedText quote escapes cs with
  | case1 => exact .inl rfl
  | case2 c => exact .inl rfl
  | case3 c d cs h ih => exact ih.cons.cons
  | case4 c d cs h other ih => exact ih.cons
  | case5 c cs h same ih => exact ih.cons.cons
  | case6 c d cs h same single => exact .inr (by rw [not_not.mp same]; rfl)

theorem lineText_closed (cs : Text) :
    ClosedBy '\n'.toUInt8 (lineText cs) (cs.drop (lineText cs).length) := by
  induction cs with
  | nil => exact .inl rfl
  | cons c cs ih =>
    by_cases feed : c = '\n'.toUInt8
    · right
      simp [lineText, feed]
    · have : lineText (c :: cs) = c :: lineText cs := by
        simp [lineText, feed]
      rw [this]
      exact ih.cons

theorem commentText_closed (depth : ℕ) (cs : Text) :
    ClosedBy '/'.toUInt8 (commentText depth cs) (cs.drop (commentText depth cs).length) := by
  fun_induction commentText depth cs with
  | case1 => exact .inl rfl
  | case2 => exact .inl rfl
  | case3 depth c d cs opened ih => exact ih.cons.cons
  | case4 c d cs opened closed => exact .inr (by rw [closed.2]; rfl)
  | case5 c d cs opened closed depth ih => exact ih.cons.cons
  | case6 depth c d cs opened closed ih => exact ih.cons

variable {b c : UInt8} {u v rest before cs text : Text} {previous : Option Token} {n : ℕ} {kind : Kind}

theorem taggedText_closed (tag cs : Text) (ends : tag.getLast? = some b) :
    ClosedBy b (taggedText tag cs) (cs.drop (taggedText tag cs).length) := by
  induction cs with
  | nil => exact .inl rfl
  | cons c cs ih =>
    rw [taggedText]
    split
    · exact .inr ends
    · exact ih.cons

/-! ### Bytes that open no region -/

/-- No byte of a text opens a region, whatever stands before it, and none is a semicolon. -/
def Bare : Text → Text → Prop
  | [], _ => True
  | c :: text, rest =>
    (∀ before, protectedRegion .postgres before c (text ++ rest) = none) ∧ c ≠ ';'.toUInt8 ∧ Bare text rest

theorem bare_append : Bare (u ++ v) rest ↔ Bare u (v ++ rest) ∧ Bare v rest := by
  induction u with
  | nil => simp [Bare]
  | cons c u ih => simp only [List.cons_append, Bare, ih, List.append_assoc, and_assoc]

theorem protectedRegion_postgres (before : Text) (c : UInt8) (cs : Text) :
    protectedRegion .postgres before c cs =
      if c = '\''.toUInt8 then some (skipSQLQuoted '\''.toUInt8 (isPostgresEscapeStringPrefix before) cs)
      else if c = '"'.toUInt8 then some (skipSQLQuoted '"'.toUInt8 false cs)
      else if c = '-'.toUInt8 ∧ cs.head? = some '-'.toUInt8 then some (1 + skipSQLLineComment cs.tail)
      else if c = '/'.toUInt8 ∧ cs.head? = some '*'.toUInt8 then some (1 + skipSQLBlockComment true 1 cs.tail)
      else if c = '$'.toUInt8 then skipSQLDollarQuote cs
      else none := by
  unfold protectedRegion
  simp only [reduceCtorEq, false_and, if_false, true_and]
  rfl

/-- A byte that is no quote, starts no comment and is no dollar sign of a quote opens no region. -/
theorem protectedRegion_eq_none (quote : c ≠ '\''.toUInt8)
    (double : c ≠ '"'.toUInt8) (dash : ¬(c = '-'.toUInt8 ∧ cs.head? = some '-'.toUInt8))
    (slash : ¬(c = '/'.toUInt8 ∧ cs.head? = some '*'.toUInt8))
    (dollar : c = '$'.toUInt8 → skipSQLDollarQuote cs = none) : protectedRegion .postgres before c cs = none := by
  rw [protectedRegion_postgres, if_neg quote, if_neg double, if_neg dash, if_neg slash]
  split_ifs with h
  · exact dollar h
  · rfl

/-- A byte other than the ones that open regions, in front of any text. -/
def plain (b : UInt8) : Bool :=
  b ≠ '\''.toUInt8 && b ≠ '"'.toUInt8 && b ≠ '-'.toUInt8 && b ≠ '/'.toUInt8 && b ≠ '$'.toUInt8 && b ≠ ';'.toUInt8

theorem plain_of_isName : ∀ b : UInt8, isName b = true → plain b = true := by
  decide +kernel

theorem protectedRegion_of_plain (h : plain b = true) : protectedRegion .postgres before b cs = none := by
  simp only [plain, Bool.and_eq_true, ne_eq, decide_not, Bool.not_eq_true', decide_eq_false_iff_not] at h
  exact protectedRegion_eq_none (by tauto) (by tauto) (by tauto) (by tauto) (by tauto)

theorem bare_cons_plain (h : plain b = true) : Bare (b :: text) rest ↔ Bare text rest := by
  have semi : b ≠ ';'.toUInt8 := by
    rintro rfl
    revert h
    decide
  rw [Bare]
  exact ⟨fun bare => bare.2.2, fun bare => ⟨fun before => protectedRegion_of_plain h, semi, bare⟩⟩

theorem bare_of_plain (h : ∀ b ∈ text, plain b = true) : Bare text rest := by
  induction text with
  | nil => trivial
  | cons b text ih =>
    rw [List.forall_mem_cons] at h
    exact (bare_cons_plain h.1).mpr (ih h.2)

/-! ### Numbers -/

/-- A part of a number: no byte of it opens a region, the part ends in no letter and no digit is left behind it. -/
structure Part (text rest : Text) : Prop where
  bare : Bare text rest
  last : ∀ b ∈ text.getLast?, isIdent b = false
  stops : ∀ b ∈ rest.head?, isDigit b = false

theorem isIdent_of_isDigit : ∀ b : UInt8, isDigit b = true → isIdent b = false := by
  decide +kernel

theorem isName_of_isDigit (h : isDigit b = true) : isName b = true := by
  rw [isName, h, Bool.or_true]

theorem Part.append (hu : Part u (v ++ rest)) (hv : Part v rest) : Part (u ++ v) rest where
  bare := bare_append.mpr ⟨hu.bare, hv.bare⟩
  last := by
    intro b h
    rw [List.getLast?_append] at h
    cases ends : v.getLast? with
    | none => exact hu.last b (by simpa [ends] using h)
    | some c => exact hv.last b (by simpa [ends] using h)
  stops := hv.stops

theorem Part.of_digits {ds : Text} (all : ∀ b ∈ ds, isDigit b = true)
    (stops : ∀ b ∈ rest.head?, isDigit b = false) : Part ds rest where
  bare := bare_of_plain fun b h => plain_of_isName b (isName_of_isDigit (all b h))
  last := fun b h => isIdent_of_isDigit b (all b (List.mem_of_getLast? h))
  stops := stops

/-- A part of a number with a byte before it that is neither a letter nor opens a region. -/
theorem Part.cons (h : Part text rest) (hp : plain b = true)
    (ident : text = [] → isIdent b = false) : Part (b :: text) rest where
  bare := (bare_cons_plain hp).mpr h.bare
  last := by
    intro c hc
    cases text with
    | nil => simpa [← Option.some.inj hc] using ident rfl
    | cons d text => exact h.last c (by simpa using hc)
  stops := h.stops

/-- A text is the front of the input and a part of a number. -/
def Reads (text cs : Text) : Prop := ∃ rest, cs = text ++ rest ∧ Part text rest

theorem Reads.drop (h : Reads text cs) : text ++ cs.drop text.length = cs ∧ Part text (cs.drop text.length) := by
  obtain ⟨rest, rfl, part⟩ := h
  rw [List.drop_left]
  exact ⟨rfl, part⟩

/-- A part read behind another one. -/
theorem Reads.append (hu : Reads u cs) (hv : Reads v (cs.drop u.length)) : Reads (u ++ v) cs := by
  obtain ⟨split, part⟩ := hu.drop
  obtain ⟨rest, next, last⟩ := hv
  rw [next] at split part
  exact ⟨rest, by rw [List.append_assoc, split], part.append last⟩

theorem head?_dropWhile_eq_false (p : UInt8 → Bool) (cs : Text) :
    ∀ b ∈ (cs.dropWhile p).head?, p b = false := by
  intro b h
  have := List.head?_dropWhile_not p cs
  rw [Option.mem_def.mp h] at this
  simpa using this

theorem drop_length_takeWhile (p : UInt8 → Bool) (cs : Text) :
    cs.drop (cs.takeWhile p).length = cs.dropWhile p := by
  induction cs with
  | nil => rfl
  | cons c cs ih =>
    rw [List.takeWhile_cons, List.dropWhile_cons]
    split
    · exact ih
    · rfl

theorem reads_digits (cs : Text) : Reads (digits cs) cs := by
  refine ⟨cs.dropWhile isDigit, List.takeWhile_append_dropWhile.symm, .of_digits ?_ ?_⟩
  · exact fun b h => List.mem_takeWhile_imp h
  · exact head?_dropWhile_eq_false isDigit cs

theorem reads_fractionText (stops : ∀ b ∈ cs.head?, isDigit b = false) : Reads (fractionText cs) cs := by
  have none_ : fractionText cs = [] → Reads (fractionText cs) cs := fun h => ⟨cs, by rw [h]; rfl, by
    rw [h]
    exact ⟨trivial, nofun, stops⟩⟩
  cases cs with
  | nil => exact none_ rfl
  | cons c cs =>
    by_cases dot : c = '.'.toUInt8
    · obtain ⟨rest, split, part⟩ := reads_digits cs
      refine ⟨rest, ?_, ?_⟩
      · rw [fractionText, if_pos dot, List.cons_append, ← split]
      · rw [fractionText, if_pos dot]
        exact part.cons (by rw [dot]; decide) fun _ => by rw [dot]; decide
    · exact none_ (if_neg dot)

theorem digits_eq_cons (h : cs.head?.any isDigit = true) : ∃ b ds, digits cs = b :: ds ∧ isDigit b = true := by
  cases cs with
  | nil => cases h
  | cons b cs =>
    have digit : isDigit b = true := h
    exact ⟨b, digits cs, by rw [digits, List.takeWhile_cons, if_pos digit]; rfl, digit⟩

theorem reads_exponentText (stops : ∀ b ∈ cs.head?, isDigit b = false) : Reads (exponentText cs) cs := by
  have nothing : exponentText cs = [] → Reads (exponentText cs) cs := fun h => ⟨cs, by rw [h]; rfl, by
    rw [h]
    exact ⟨trivial, nofun, stops⟩⟩
  match cs with
  | [] => exact nothing rfl
  | [c] => exact nothing rfl
  | c :: d :: cs =>
    obtain ⟨rest, split, part⟩ := reads_digits cs
    by_cases letter : c ≠ 'e'.toUInt8 ∧ c ≠ 'E'.toUInt8
    · exact nothing (if_pos letter)
    have plainLetter : plain c = true := by
      rcases not_and_or.mp letter with h | h <;> rw [not_not.mp h] <;> decide
    by_cases digit : isDigit d = true
    · have eq : exponentText (c :: d :: cs) = c :: d :: digits cs := by
        rw [exponentText, if_neg letter, if_pos digit]
      refine ⟨rest, by rw [eq, List.cons_append, List.cons_append, ← split], ?_⟩
      rw [eq]
      exact (part.cons (plain_of_isName d (isName_of_isDigit digit)) fun _ =>
        isIdent_of_isDigit d digit).cons plainLetter
        nofun
    by_cases signed : (d = '+'.toUInt8 ∨ d = '-'.toUInt8) ∧ cs.head?.any isDigit
    · have eq : exponentText (c :: d :: cs) = c :: d :: digits cs := by
        rw [exponentText, if_neg letter, if_neg digit, if_pos signed]
      refine ⟨rest, by rw [eq, List.cons_append, List.cons_append, ← split], ?_⟩
      rw [eq]
      obtain ⟨b, ds, front, hb⟩ := digits_eq_cons signed.2
      have signPart : Part (d :: digits cs) rest := by
        rcases signed.1 with rfl | rfl
        · exact part.cons (by decide) fun _ => by decide
        · refine ⟨⟨fun before => ?_, by decide, part.bare⟩, ?_, part.stops⟩
          · refine protectedRegion_eq_none (by decide) (by decide) ?_ (fun h => absurd h.1 (by decide))
              (fun h => absurd h (by decide))
            rw [front]
            rintro ⟨-, dash⟩
            cases dash
            revert hb
            decide
          · rw [front]
            intro x hx
            exact part.last x (by rw [front]; simpa using hx)
      exact signPart.cons plainLetter nofun
    · exact nothing (by rw [exponentText, if_neg letter, if_neg digit, if_neg signed])

theorem reads_numberText (cs : Text) : Reads (numberText cs) cs := by
  have first := reads_digits cs
  have whole := first.append (reads_fractionText first.drop.2.stops)
  exact whole.append (reads_exponentText whole.drop.2.stops)

theorem reads_dottedText (cs : Text) : Reads (dottedText cs) cs :=
  have first := reads_digits cs
  first.append (reads_exponentText first.drop.2.stops)

/-! ### Tokens in their places -/

/-- What the token that ends here says about its neighbours: words and numbers are as long as can be, a word starts
behind no letter, and unless the text is at its end no other token ends like a name. -/
structure Ends (t : Token) (earlier rest : Text) : Prop where
  word : t.kind = .word →
    (∀ b ∈ earlier.head?, isIdent b = false) ∧ ∀ b ∈ rest.head?, continues b = false
  number : t.kind = .number →
    (∀ b ∈ t.text.getLast?, isIdent b = false) ∧ ∀ b ∈ rest.head?, isDigit b = false
  other : t.kind ≠ .word → t.kind ≠ .number → rest ≠ [] → ∀ b ∈ t.text.getLast?, isName b = false

/-- The bytes that have been passed end in the previous token. -/
def Behind (previous : Option Token) (before rest : Text) : Prop :=
  match previous with
  | none => before = []
  | some t => t.text ≠ [] ∧ ∃ earlier, before = t.text.reverse ++ earlier ∧ Ends t earlier rest

theorem isName_of_isIdent (h : isIdent b = true) : isName b = true := by
  rw [isName, h, Bool.true_or]

theorem continues_of_isName (h : isName b = true) : continues b = true := by
  rw [continues, h, Bool.true_or]

/-- Before a letter that starts a token stands no letter. -/
theorem Behind.head_not_isIdent (h : Behind previous before (c :: cs)) (hc : continues c = true) :
    ∀ b ∈ before.head?, isIdent b = false := by
  cases previous with
  | none =>
    cases h
    nofun
  | some t =>
    obtain ⟨filled, earlier, rfl, ends⟩ := h
    have head : (t.text.reverse ++ earlier).head? = t.text.getLast? := by
      rw [List.head?_append, List.head?_reverse]
      cases last : t.text.getLast? with
      | none => exact absurd (List.getLast?_eq_none_iff.mp last) filled
      | some b => rfl
    rw [head]
    by_cases word : t.kind = .word
    · have := (ends.word word).2 c rfl
      rw [hc] at this
      cases this
    by_cases number : t.kind = .number
    · exact (ends.number number).1
    intro b hb
    have := ends.other word number nofun b hb
    rw [isName, Bool.or_eq_false_iff] at this
    exact this.1

theorem length_take_of_le (h : n ≤ cs.length) : (cs.take n).length = n := by
  rw [List.length_take, Nat.min_eq_left h]

theorem ClosedBy.append_left (h : ClosedBy b text rest) : ClosedBy b (u ++ text) rest := by
  rcases h with h | h
  · exact .inl h
  · exact .inr (by rw [List.getLast?_append, h]; rfl)

theorem dollarText_eq_some (h : dollarText previous cs = some text) :
    ∃ body, cs.dropWhile isName = '$'.toUInt8 :: body ∧
      text = cs.takeWhile isName ++ '$'.toUInt8 :: taggedText (dollarTag (cs.takeWhile isName)) body := by
  simp only [dollarText] at h
  split at h
  · rename_i d body rest
    split at h
    · cases h
    · rename_i may
      have dollar : d = '$'.toUInt8 := by tauto
      cases h
      exact ⟨body, by rw [rest, dollar], by rw [dollar]⟩
  · cases h

theorem dollarText_spec (h : dollarText previous cs = some text) :
    text <+: cs ∧ ClosedBy '$'.toUInt8 text (cs.drop text.length) ∧ skipSQLDollarQuote cs = some text.length := by
  obtain ⟨body, rest, rfl⟩ := dollarText_eq_some h
  have whole : cs = cs.takeWhile isName ++ '$'.toUInt8 :: body := by rw [← rest, List.takeWhile_append_dropWhile]
  have skip : skipSQLDollarQuote cs =
      some ((cs.takeWhile isName).length + 1 + dollarBody (dollarTag (cs.takeWhile isName)) body) := by
    simp only [skipSQLDollarQuote, rest, if_true]
  rw [skip]
  generalize cs.takeWhile isName = name at whole
  subst whole
  have tail := taggedText_eq (dollarTag name) body
  refine ⟨?_, ?_, ?_⟩
  · rw [List.prefix_append_right_inj, List.prefix_cons_inj, tail]
    exact List.take_prefix _ _
  · have closed : ClosedBy '$'.toUInt8 _ _ := taggedText_closed (dollarTag name) body (List.getLast?_concat ..)
    rw [List.length_append, List.drop_length_add_append, List.length_cons, List.drop_succ_cons]
    exact closed.cons.append_left
  · rw [List.length_append, List.length_cons, tail, length_take_of_le (dollarBody_le _ _)]
    congr 1
    omega

/-- What the token that `c` starts is to the scanner: quoted and commented tokens are regions, and the bytes of any
other token but a semicolon open none. -/
structure Fits (before : Text) (c : UInt8) (cs : Text) (kind : Kind) (text : Text) : Prop where
  ends : Ends ⟨kind, c :: text⟩ before (cs.drop text.length)
  byte : kind = .space ∨ kind = .other → text = [] ∧ isName c = false
  region : kind = .quoted ∨ kind = .comment → protectedRegion .postgres before c cs = some text.length
  bare : kind ≠ .quoted → kind ≠ .comment → c ≠ ';'.toUInt8 → Bare (c :: text) (cs.drop text.length)

theorem Fits.of_region (hk : kind = .quoted ∨ kind = .comment) (closed : ClosedBy b text (cs.drop text.length))
    (hb : isName b = false) (region : protectedRegion .postgres before c cs = some text.length) :
    Fits before c cs kind text where
  ends := by
    refine ⟨?_, ?_, ?_⟩
    · rintro rfl
      simp at hk
    · rintro rfl
      simp at hk
    · intro _ _ more x hx
      rcases closed.cons with done | last
      · exact absurd done more
      · rw [last] at hx
        cases hx
        exact hb
  byte := by rcases hk with rfl | rfl <;> simp
  region := fun _ => region
  bare := by tauto

/-- A single byte that is part of no name. -/
theorem Fits.of_byte (hw : kind ≠ .word) (hn : kind ≠ .number) (hc : isName c = false)
    (open_ : ∀ before, protectedRegion .postgres before c cs = none) (hq : kind ≠ .quoted) (hk : kind ≠ .comment) :
    Fits before c cs kind [] where
  ends := by
    refine ⟨fun h => absurd h hw, fun h => absurd h hn, ?_⟩
    intro _ _ _ b hb
    cases hb
    exact hc
  byte := fun _ => ⟨rfl, hc⟩
  region := by tauto
  bare := fun _ _ semi => ⟨open_, semi, trivial⟩

/-- A word or a number, no byte of which opens a region. -/
theorem Fits.of_bare (hk : kind = .word ∨ kind = .number)
    (bare : Bare (c :: text) (cs.drop text.length)) (ends : Ends ⟨kind, c :: text⟩ before (cs.drop text.length)) :
    Fits before c cs kind text where
  ends := ends
  byte := by rcases hk with rfl | rfl <;> simp
  region := by rcases hk with rfl | rfl <;> simp
  bare := fun _ _ _ => bare

theorem Fits.of_reads (h : Reads text cs) (hp : plain c = true) (ident : isIdent c = false) :
    Fits before c cs .number text := by
  have whole := h.drop.2.cons hp fun _ => ident
  exact .of_bare (.inr rfl) whole.bare ⟨nofun, fun _ => ⟨whole.last, whole.stops⟩, fun _ h => absurd rfl h⟩

/-! ### Where the two readings may differ -/

/-- A text goes on as a tag would, behind a dollar sign. -/
def tagged (cs : Text) : Bool := (cs.dropWhile isName).head? = some '$'.toUInt8

theorem skipSQLDollarQuote_eq_none (h : tagged cs = false) : skipSQLDollarQuote cs = none := by
  simp only [skipSQLDollarQuote]
  split
  · rename_i d body rest
    rw [tagged, rest] at h
    exact if_neg (by simpa using h)
  · rfl

/-- A word of several bytes that ends in an `e` behind a digit or a dollar sign. -/
def Token.looksEscaping (t : Token) : Bool :=
  t.kind = .word &&
    match t.text.reverse with
    | e :: b :: _ => (e == 'e'.toUInt8 || e == 'E'.toUInt8) && !isIdent b
    | _ => false

/-- A text ends in a letter, or in digits behind one. -/
def endsInName (text : Text) : Bool := (text.reverse.takeWhile isName).any isIdent

/-- A token that the scanner takes for what it is, in front of the tokens `ts`: an identifier has at most one dollar
sign, and no string with a backslash follows one that looks like an escape; no exponent runs into the word
`returning`; and no dollar sign that starts no dollar quote looks like one. -/
def Token.clear (t : Token) (ts : List Token) : Bool :=
  match t.kind with
  | .word =>
    t.text.count '$'.toUInt8 ≤ 1 &&
      (!t.looksEscaping || ts.head?.all fun s => s.text.head? ≠ some '\''.toUInt8 || !s.text.contains '\\'.toUInt8)
  | .number => !endsInName t.text || ts.head?.all fun s => !s.isWord "returning"
  | .other => t.text ≠ ['$'.toUInt8] || !tagged (ts.flatMap Token.text)
  | _ => true

/-- The scanner takes every token for what it is. -/
def clear : List Token → Bool
  | [] => true
  | t :: ts => t.clear ts && clear ts

theorem quotedText_eq_of_notMem {quote : UInt8} (h : '\\'.toUInt8 ∉ quotedText quote false cs) :
    quotedText quote true cs = quotedText quote false cs := by
  have first : ∀ c cs, quotedText quote false (c :: cs) = c :: (quotedText quote false (c :: cs)).tail := by
    intro c cs
    cases cs with
    | nil => rfl
    | cons d cs =>
      rw [quotedText]
      split_ifs <;> rfl
  fun_induction quotedText quote true cs with
  | case1 => rfl
  | case2 c => rfl
  | case3 c d cs escape ih =>
    rw [first, escape.2] at h
    exact absurd List.mem_cons_self h
  | case4 c d cs escape other ih =>
    rw [quotedText, if_neg (by simp), if_pos other] at h ⊢
    rw [ih fun mem => h (List.mem_cons_of_mem _ mem)]
  | case5 c cs escape same ih =>
    rw [quotedText, if_neg (by simp), if_neg same, if_pos rfl] at h ⊢
    rw [ih fun mem => h (List.mem_cons_of_mem _ (List.mem_cons_of_mem _ mem))]
  | case6 c d cs escape same single => rw [quotedText, if_neg (by simp), if_neg same, if_neg single]

theorem bare_word (all : ∀ b ∈ u, continues b = true) (stops : ∀ b ∈ rest.head?, continues b = false)
    (once : u.count '$'.toUInt8 ≤ 1) : Bare u rest := by
  induction u with
  | nil => trivial
  | cons c u ih =>
    rw [List.forall_mem_cons] at all
    by_cases dollar : c = '$'.toUInt8
    · subst dollar
      have none_left : u.count '$'.toUInt8 = 0 := by
        rw [List.count_cons_self] at once
        omega
      have names : ∀ b ∈ u, isName b = true := by
        intro b hb
        have := all.2 b hb
        have ne : b ≠ '$'.toUInt8 := fun h => List.count_eq_zero.mp none_left (h ▸ hb)
        simpa [continues, ne] using this
      have left : (u ++ rest).dropWhile isName = rest := by
        rw [List.dropWhile_append_of_pos names]
        cases rest with
        | nil => rfl
        | cons b rest =>
          have := stops b rfl
          rw [continues, Bool.or_eq_false_iff] at this
          rw [List.dropWhile_cons, if_neg (by simp [this.1])]
      refine ⟨fun before => protectedRegion_eq_none (by decide) (by decide) (fun h => absurd h.1 (by decide))
        (fun h => absurd h.1 (by decide)) fun _ => skipSQLDollarQuote_eq_none ?_, by decide,
        bare_of_plain fun b hb => plain_of_isName b (names b hb)⟩
      rw [tagged, left]
      cases rest with
      | nil => rfl
      | cons b rest =>
        have := stops b rfl
        rw [continues, Bool.or_eq_false_iff] at this
        simpa using this.2
    · have name : isName c = true := by simpa [continues, dollar] using all.1
      rw [bare_cons_plain (plain_of_isName c name)]
      exact ih all.2 (by rwa [List.count_cons_of_ne (by simpa using dollar)] at once)

theorem isName_escape (h : (b == 'e'.toUInt8 || b == 'E'.toUInt8) = true) : isIdent b = true ∧ isName b = true := by
  simp only [Bool.or_eq_true, beq_iff_eq] at h
  rcases h with rfl | rfl <;> decide

/-- The scanner takes a quote for the start of an escape string behind an `e` that is a whole token, and behind a
word that looks like one. -/
theorem Behind.escape (h : Behind previous before (c :: cs)) :
    isPostgresEscapeStringPrefix before = (opensEscapes previous || previous.any Token.looksEscaping) := by
  cases previous with
  | none =>
    cases h
    rfl
  | some t =>
    obtain ⟨kind, text⟩ := t
    obtain ⟨filled, earlier, rfl, ends⟩ := h
    obtain ⟨front, l, rfl⟩ : ∃ front l, text = front ++ [l] :=
      ⟨_, _, (List.dropLast_append_getLast filled).symm⟩
    have last : (front ++ [l]).getLast? = some l := List.getLast?_concat ..
    simp only [List.reverse_append, List.reverse_cons, List.reverse_nil, List.nil_append, List.cons_append,
      isPostgresEscapeStringPrefix, Option.any_some, Token.looksEscaping]
    by_cases escape : (l == 'e'.toUInt8 || l == 'E'.toUInt8) = true
    · have word : kind = .word := by
        by_contra other
        by_cases number : kind = .number
        · have := (ends.number number).1 l last
          rw [(isName_escape escape).1] at this
          cases this
        · have := ends.other other number (by simp) l last
          rw [(isName_escape escape).2] at this
          cases this
      subst word
      rw [escape]
      cases behind : front.reverse with
      | nil =>
        obtain rfl : front = [] := List.reverse_eq_nil_iff.mp behind
        have whole : opensEscapes (some ⟨.word, [] ++ [l]⟩) = true := by simpa [opensEscapes] using escape
        have start := (ends.word rfl).1
        rw [whole]
        cases earlier with
        | nil => rfl
        | cons b earlier => simp [start b rfl]
      | cons b front' =>
        have part : opensEscapes (some ⟨.word, front ++ [l]⟩) = false := by
          have : front ≠ [] := by
            rintro rfl
            cases behind
          simp [opensEscapes, List.append_eq_singleton_iff, this]
        rw [part]
        simp only [Bool.or_eq_true, beq_iff_eq] at escape
        simp [escape]
    · have part : opensEscapes (some ⟨kind, front ++ [l]⟩) = false := by
        simp only [opensEscapes, Option.some.injEq, Token.mk.injEq, List.append_eq_singleton_iff]
        simp only [Bool.or_eq_true, beq_iff_eq] at escape
        simp only [not_or] at escape
        simp [escape]
      simp only [Bool.or_eq_true, beq_iff_eq, not_or] at escape
      rw [part]
      cases front.reverse <;> simp [escape]

/-- The token that `c` starts fits the scanner, if the two take the words, strings and dollar signs alike. -/
theorem token_fits (h : Behind previous before (c :: cs))
    (string : c = '\''.toUInt8 → previous.any Token.looksEscaping = true → opensEscapes previous = false →
      '\\'.toUInt8 ∉ quotedText '\''.toUInt8 false cs)
    (word : isIdent c = true → (c :: cs.takeWhile continues).count '$'.toUInt8 ≤ 1)
    (dollar : c = '$'.toUInt8 → dollarText previous cs = none → tagged cs = false) :
    Fits before c cs (token previous c cs).1 (token previous c cs).2 := by
  unfold token
  split_ifs with quote double line block sign letter digit dot space
  · have flags := h.escape
    have same : skipSQLQuoted '\''.toUInt8 (isPostgresEscapeStringPrefix before) cs =
        (quotedText '\''.toUInt8 (opensEscapes previous) cs).length := by
      rw [flags]
      have eq : quotedText '\''.toUInt8 (opensEscapes previous || previous.any Token.looksEscaping) cs =
          quotedText '\''.toUInt8 (opensEscapes previous) cs := by
        cases whole : opensEscapes previous with
        | true => rfl
        | false =>
          cases looks : previous.any Token.looksEscaping with
          | false => rfl
          | true => exact quotedText_eq_of_notMem (string quote looks whole)
      rw [← eq, quotedText_eq, length_take_of_le (skipSQLQuoted_le _ _ _)]
    refine .of_region (.inl rfl) (quotedText_closed _ _ _) (by decide) ?_
    rw [protectedRegion_postgres, if_pos quote, same]
  · refine .of_region (.inl rfl) (quotedText_closed _ _ _) (by decide) ?_
    rw [protectedRegion_postgres, if_neg quote, if_pos double, quotedText_eq,
      length_take_of_le (skipSQLQuoted_le _ _ _)]
  · obtain ⟨cs, rfl⟩ := List.head?_eq_some_iff.mp line.2
    refine .of_region (.inr rfl) (lineText_closed cs).cons (by decide) ?_
    rw [protectedRegion_postgres, if_neg quote, if_neg double, if_pos line, List.length_cons, List.tail_cons,
      lineText_eq, length_take_of_le (skipSQLLineComment_le cs), Nat.add_comm]
  · obtain ⟨cs, rfl⟩ := List.head?_eq_some_iff.mp block.2
    have text := commentText_eq 0 cs
    refine .of_region (.inr rfl) (commentText_closed 0 cs).cons (by decide) ?_
    rw [protectedRegion_postgres, if_neg quote, if_neg double, if_neg line, if_pos block, List.length_cons,
      List.tail_cons, text, length_take_of_le (skipSQLBlockComment_le _ _ cs), Nat.add_comm]
  · have region : protectedRegion .postgres before c cs = skipSQLDollarQuote cs := by
      rw [protectedRegion_postgres, if_neg quote, if_neg double, if_neg line, if_neg block, if_pos sign]
    split
    · rename_i text quoted
      obtain ⟨-, closed, skip⟩ := dollarText_spec quoted
      exact .of_region (.inl rfl) closed (by decide) (region.trans skip)
    · rename_i unquoted
      have none_ := skipSQLDollarQuote_eq_none (dollar sign unquoted)
      exact .of_byte nofun nofun (by rw [sign]; decide)
        (fun before => protectedRegion_eq_none quote double line block fun _ => none_) nofun nofun
  · have all : ∀ b ∈ c :: cs.takeWhile continues, continues b = true :=
      List.forall_mem_cons.mpr ⟨continues_of_isName (isName_of_isIdent letter),
        fun b hb => List.mem_takeWhile_imp hb⟩
    have left : cs.drop (cs.takeWhile continues).length = cs.dropWhile continues :=
      drop_length_takeWhile continues cs
    have stops := head?_dropWhile_eq_false continues cs
    refine .of_bare (.inl rfl) ?_
      ⟨fun _ => ⟨h.head_not_isIdent (all c List.mem_cons_self), ?_⟩, nofun, fun w => absurd rfl w⟩
    · rw [left]
      exact bare_word all stops (word letter)
    · rw [left]
      exact stops
  · exact .of_reads (reads_numberText cs) (plain_of_isName c (isName_of_isDigit digit)) (isIdent_of_isDigit c digit)
  · exact .of_reads (reads_dottedText cs) (by rw [dot.1]; decide) (by rw [dot.1]; decide)
  · exact .of_byte nofun nofun (by simp [isName, letter, digit])
      (fun before => protectedRegion_eq_none quote double line block fun h => absurd h sign) nofun nofun
  · exact .of_byte nofun nofun (by simp [isName, letter, digit])
      (fun before => protectedRegion_eq_none quote double line block fun h => absurd h sign) nofun nofun

theorem token_initial (previous : Option Token) (c : UInt8) (cs : Text) : (token previous c cs).2 <+: cs := by
  unfold token
  split_ifs with quote double line block
  · rw [quotedText_eq]
    exact List.take_prefix _ _
  · rw [quotedText_eq]
    exact List.take_prefix _ _
  · obtain ⟨cs, rfl⟩ := List.head?_eq_some_iff.mp line.2
    exact (List.prefix_cons_inj _).mpr (List.take_prefix _ _)
  · obtain ⟨cs, rfl⟩ := List.head?_eq_some_iff.mp block.2
    rw [commentText_eq]
    exact (List.prefix_cons_inj _).mpr (List.take_prefix _ _)
  · split
    · rename_i text quoted
      exact (dollarText_spec quoted).1
    · exact List.nil_prefix
  · exact List.takeWhile_prefix _
  · obtain ⟨rest, split, -⟩ := reads_numberText cs
    exact ⟨rest, split.symm⟩
  · obtain ⟨rest, split, -⟩ := reads_dottedText cs
    exact ⟨rest, split.symm⟩
  · exact List.nil_prefix
  · exact List.nil_prefix

/-- The tokens are the text. -/
theorem flatMap_text_lexFrom (previous : Option Token) (rest : Text) :
    (lexFrom previous rest).flatMap Token.text = rest := by
  fun_induction lexFrom previous rest with
  | case1 => rfl
  | case2 previous c cs t ih =>
    rw [List.flatMap_cons, ih, List.cons_append, List.prefix_iff_eq_append.mp (token_initial previous c cs)]

/-! ### The scanner byte by byte -/

/-- A scan with a name half read, if one is. -/
def resume (open_ : Bool) (before rest : Text) : Scan :=
  let n := if open_ then (rest.takeWhile isName).length else 0
  let s := scanFrom .postgres (pass n before rest) (rest.drop n)
  { s with guarded := List.replicate n false ++ s.guarded }

/-- Whether a name is half read behind a text. -/
def reading (open_ : Bool) (text : Text) : Bool :=
  text.foldl (fun open_ b => isIdent b || open_ && isDigit b) open_

theorem resume_false (before rest : Text) : resume false before rest = scanFrom .postgres before rest := by
  simp [resume, pass]

theorem resume_of_not_isName (open_ : Bool) (h : isName c = false) :
    resume open_ before (c :: cs) = scanFrom .postgres before (c :: cs) := by
  cases open_ <;> simp [resume, pass, h]

theorem resume_of_isName (h : isName c = true) :
    resume true before (c :: cs) =
      { resume true (c :: before) cs with guarded := false :: (resume true (c :: before) cs).guarded } := by
  simp [resume, pass, h, List.replicate_succ]

/-- A byte that opens no region and is no semicolon. -/
theorem resume_cons (open_ : Bool) (none_ : protectedRegion .postgres before c cs = none) (semi : c ≠ ';'.toUInt8) :
    resume open_ before (c :: cs) =
      let s := resume (isIdent c || open_ && isDigit c) (c :: before) cs
      { s with
        tokens := if isIdent c && !open_ then (c :: cs.takeWhile isName).map lower :: s.tokens else s.tokens
        guarded := false :: s.guarded } := by
  by_cases half : open_ = true ∧ isName c = true
  · obtain ⟨rfl, name⟩ := half
    have more : (isIdent c || true && isDigit c) = true := name
    rw [resume_of_isName name, more, Bool.not_true, Bool.and_false]
    rfl
  · have fresh : resume open_ before (c :: cs) = scanFrom .postgres before (c :: cs) := by
      cases open_ with
      | false => exact resume_false _ _
      | true => exact resume_of_not_isName true (by simpa using half)
    have next : (isIdent c || open_ && isDigit c) = isIdent c := by
      cases open_ <;> simp_all [isName]
    have first : (isIdent c && !open_) = isIdent c := by
      cases open_ <;> simp_all [isName]
    rw [fresh, next, first, scanFrom]
    simp only [none_, semi, if_false]
    split
    · rename_i ident
      simp [ident, resume, List.replicate_succ]
    · rename_i ident
      simp [ident, resume_false]

theorem resume_region (open_ : Bool) (region : protectedRegion .postgres before c cs = some n) :
    resume open_ before (c :: cs) =
      let s := resume false (pass n (c :: before) cs) (cs.drop n)
      { s with guarded := List.replicate (n + 1) true ++ s.guarded } := by
  have name : isName c = false := by
    by_contra h
    rw [protectedRegion_of_plain (plain_of_isName c (by simpa using h))] at region
    cases region
  rw [resume_of_not_isName open_ name, resume_false, scanFrom]
  simp only [region]

theorem resume_semicolon (open_ : Bool) :
    resume open_ before (';'.toUInt8 :: cs) =
      let s := resume false (';'.toUInt8 :: before) cs
      { s with single := onlySQLTrivia .postgres cs && s.single, guarded := false :: s.guarded } := by
  have none_ : protectedRegion .postgres before ';'.toUInt8 cs = none :=
    protectedRegion_eq_none (by decide) (by decide) (fun h => absurd h.1 (by decide))
      (fun h => absurd h.1 (by decide))
      fun h => absurd h (by decide)
  rw [resume_of_not_isName open_ (by decide), resume_false, scanFrom]
  simp only [none_, if_true]

/-- Over a text that opens no region the scanner passes nothing and finds no semicolon; the words behind the text it
finds all the same. -/
theorem resume_bare (rest : Text) (bare : Bare text rest) (open_ : Bool) (before : Text) :
    (resume open_ before (text ++ rest)).guarded = List.replicate text.length false ++
        (resume (reading open_ text) (text.reverse ++ before) rest).guarded ∧
      (resume open_ before (text ++ rest)).single =
        (resume (reading open_ text) (text.reverse ++ before) rest).single ∧
      ∀ word ∈ (resume (reading open_ text) (text.reverse ++ before) rest).tokens,
        word ∈ (resume open_ before (text ++ rest)).tokens := by
  induction text generalizing open_ before with
  | nil => exact ⟨rfl, rfl, fun _ h => h⟩
  | cons c text ih =>
    obtain ⟨none_, semi, bare⟩ := bare
    obtain ⟨guarded, single, tokens⟩ := ih bare (isIdent c || open_ && isDigit c) (c :: before)
    rw [List.cons_append, resume_cons open_ (none_ before) semi, List.reverse_cons, List.append_assoc]
    refine ⟨?_, ?_, ?_⟩
    · simp only [guarded]
      rfl
    · exact single
    · intro word found
      simp only
      split
      · exact List.mem_cons_of_mem _ (tokens word found)
      · exact tokens word found

end Onprest.Sql.Postgres
