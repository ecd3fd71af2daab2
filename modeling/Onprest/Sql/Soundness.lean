import Onprest.Sql.Agreement

/-! Classification of a PostgreSQL text. Token by token the scanner passes what PostgreSQL reads as quotes and
comments, sees every semicolon and every `returning` that PostgreSQL sees; so what it says about the text is so. -/

namespace Onprest.Sql.Postgres

theorem reading_append (open_ : Bool) (text : Text) (b : UInt8) :
    reading open_ (text ++ [b]) = (isIdent b || reading open_ text && isDigit b) := by
  simp [reading]

theorem reading_eq_endsInName (text : Text) : reading false text = endsInName text := by
  induction text using List.reverseRecOn with
  | nil => rfl
  | append_singleton text b ih =>
    rw [reading_append, ih, endsInName, endsInName, List.reverse_append]
    have digit := isIdent_of_isDigit b
    cases hi : isIdent b <;> cases hd : isDigit b <;> simp_all [isName]

variable {open_ : Bool} {c : UInt8} {cs before rest : Text} {previous : Option Token} {ts : List Token}

theorem reading_cons_of_digit {text : Text} (h : isDigit c = true → open_ = false) :
    reading open_ (c :: text) = reading false (c :: text) := by
  cases open_ with
  | false => rfl
  | true =>
    have digit : isDigit c = false := by simpa using h
    simp [reading, digit]

theorem takeWhile_isName_of_notMem (h : '$'.toUInt8 ∉ cs.takeWhile continues) :
    cs.takeWhile isName = cs.takeWhile continues := by
  induction cs with
  | nil => rfl
  | cons c cs ih =>
    rw [List.takeWhile_cons, List.takeWhile_cons] at *
    by_cases more : continues c = true
    · rw [if_pos more] at h ⊢
      have name : isName c = true := by
        have : c ≠ '$'.toUInt8 := fun eq => h (eq ▸ List.mem_cons_self)
        simpa [continues, this] using more
      rw [if_pos name, ih fun mem => h (List.mem_cons_of_mem _ mem)]
    · have name : isName c = false := by
        rw [Bool.not_eq_true, continues, Bool.or_eq_false_iff] at more
        exact more.1
      rw [if_neg more, if_neg (by simp [name])]

/-- What a scan has to do with the tokens of the text. -/
structure Agrees (s : Scan) (ts : List Token) : Prop where
  guarded : s.guarded = guardedPositions ts
  single : s.single = true → ∀ l t r, ts = l ++ t :: r → t.semicolon = true →
    onlySQLTrivia .postgres (r.flatMap Token.text) = true
  returning : ∀ t ∈ ts, t.isWord "returning" = true → ascii "returning" ∈ s.tokens

/-- A name is half read only behind a word, or behind a number that ends in an exponent. -/
def Reading (open_ : Bool) (previous : Option Token) : Prop :=
  open_ = true → ∃ t, previous = some t ∧ (t.kind = .word ∨ t.kind = .number ∧ endsInName t.text = true)

/-- No name is half read where a byte may go on with it. -/
theorem Reading.not_digit (ho : Reading open_ previous) (h : Behind previous before (c :: cs))
    (hc : isDigit c = true) :
    open_ = false := by
  by_contra half
  obtain ⟨t, rfl, kind⟩ := ho (by simpa using half)
  obtain ⟨-, earlier, -, ends⟩ := h
  rcases kind with word | ⟨number, -⟩
  · have := (ends.word word).2 c rfl
    rw [continues_of_isName (isName_of_isDigit hc)] at this
    cases this
  · have := (ends.number number).2 c rfl
    rw [hc] at this
    cases this

theorem Agrees.cons {s s' : Scan} {t : Token} (h : Agrees s' ts) (ht : t.semicolon = false)
    (guarded : s.guarded = List.replicate t.text.length t.guarded ++ s'.guarded) (single : s.single = s'.single)
    (tokens : ∀ word ∈ s'.tokens, word ∈ s.tokens)
    (returning : t.isWord "returning" = true → ascii "returning" ∈ s.tokens) : Agrees s (t :: ts) where
  guarded := by rw [guarded, h.guarded]; rfl
  single := by
    intro hs l u r split semi
    cases l with
    | nil =>
      cases split
      rw [ht] at semi
      cases semi
    | cons _ l =>
      cases split
      exact h.single (single ▸ hs) l u r rfl semi
  returning := by
    intro u hu word
    rcases List.mem_cons.mp hu with rfl | hu
    · exact returning word
    · exact tokens _ (h.returning u hu word)

theorem token_of_isIdent (previous : Option Token) (cs : Text) (h : isIdent c = true) :
    token previous c cs = (.word, cs.takeWhile continues) := by
  have other := plain_of_isName c (isName_of_isIdent h)
  simp only [plain, Bool.and_eq_true, ne_eq, decide_not, Bool.not_eq_true', decide_eq_false_iff_not] at other
  simp only [token, other, h, false_and, if_false, if_true]

theorem isIdent_of_token (h : (token previous c cs).1 = .word) : isIdent c = true := by
  unfold token at h
  split_ifs at h <;> first | assumption | (split at h <;> cases h)

theorem token_of_dollar (h : dollarText previous cs = none) : token previous '$'.toUInt8 cs = (.other, []) := by
  unfold token
  rw [if_neg (by decide), if_neg (by decide), if_neg (fun h => absurd h.1 (by decide)),
    if_neg (fun h => absurd h.1 (by decide)), if_pos rfl, h]

/-- The token that starts here fits the scanner if the tokens are clear. -/
theorem fits_of_clear (h : Behind previous before (c :: cs))
    (hp : ∀ t ∈ previous, t.clear (lexFrom previous (c :: cs)) = true)
    (hc : clear (lexFrom previous (c :: cs)) = true) :
    Fits before c cs (token previous c cs).1 (token previous c cs).2 := by
  rw [lexFrom] at hp hc
  simp only [clear, Bool.and_eq_true] at hc
  refine token_fits h ?_ ?_ ?_
  · intro quote looks whole
    cases previous with
    | none => cases looks
    | some t =>
      have looks : t.looksEscaping = true := looks
      have word : t.kind = .word := by
        simp only [Token.looksEscaping, Bool.and_eq_true, decide_eq_true_eq] at looks
        exact looks.1
      have := hp t rfl
      simp only [Token.clear, word, looks, token, quote, if_true, whole] at this
      intro mem
      simp [mem] at this
  · intro letter
    have := hc.1
    rw [token_of_isIdent previous cs letter] at this
    simp only [Token.clear, Bool.and_eq_true, decide_eq_true_eq] at this
    exact this.1
  · intro sign unquoted
    subst sign
    have := hc.1
    rw [token_of_dollar unquoted] at this
    simpa [Token.clear, flatMap_text_lexFrom] using this

theorem token_of_semicolon (previous : Option Token) (cs : Text) :
    token previous ';'.toUInt8 cs = (.other, []) := by
  unfold token
  rw [if_neg (by decide), if_neg (by decide), if_neg (fun h => absurd h.1 (by decide)),
    if_neg (fun h => absurd h.1 (by decide)), if_neg (by decide), if_neg (by decide), if_neg (by decide),
    if_neg (fun h => absurd h.1 (by decide)), if_neg (by decide)]

section Step

variable {before text rest : Text} {c : UInt8} {kind : Kind} {ts : List Token}
  (fits : Fits before c (text ++ rest) kind text)

include fits

theorem agrees_region (open_ : Bool) (guarded : kind = .quoted ∨ kind = .comment)
    (next : Agrees (resume false ((c :: text).reverse ++ before) rest) ts) :
    Agrees (resume open_ before (c :: (text ++ rest))) (⟨kind, c :: text⟩ :: ts) := by
  have passed : pass text.length (c :: before) (text ++ rest) = (c :: text).reverse ++ before := by
    rw [pass, List.take_left, List.reverse_cons, List.append_assoc]
    rfl
  rw [resume_region open_ (fits.region guarded), passed, List.drop_left]
  refine next.cons ?_ ?_ rfl (fun _ h => h) ?_
  · rcases guarded with rfl | rfl <;> simp [Token.semicolon]
  · have : Token.guarded ⟨kind, c :: text⟩ = true := by simpa [Token.guarded] using guarded
    rw [this]
    rfl
  · rcases guarded with rfl | rfl <;> simp [Token.isWord]

theorem agrees_bare (open_ : Bool) (hq : kind ≠ .quoted) (hk : kind ≠ .comment) (semi : c ≠ ';'.toUInt8)
    (next : Agrees (resume (reading open_ (c :: text)) ((c :: text).reverse ++ before) rest) ts)
    (returning : Token.isWord "returning" ⟨kind, c :: text⟩ = true →
      ascii "returning" ∈ (resume open_ before (c :: (text ++ rest))).tokens) :
    Agrees (resume open_ before (c :: (text ++ rest))) (⟨kind, c :: text⟩ :: ts) := by
  have bare := fits.bare hq hk semi
  rw [List.drop_left] at bare
  obtain ⟨mask, single, tokens⟩ := resume_bare rest bare open_ before
  refine next.cons ?_ ?_ single tokens returning
  · simp [Token.semicolon, semi]
  · have : Token.guarded ⟨kind, c :: text⟩ = false := by simp [Token.guarded, hq, hk]
    rw [this]
    exact mask

end Step

theorem agrees_semicolon (open_ : Bool)
    (next : Agrees (resume false (';'.toUInt8 :: before) rest) (lexFrom previous rest)) :
    Agrees (resume open_ before (';'.toUInt8 :: rest)) (⟨.other, [';'.toUInt8]⟩ :: lexFrom previous rest) := by
  rw [resume_semicolon]
  refine ⟨?_, ?_, ?_⟩
  · exact congrArg (false :: ·) next.guarded
  · intro single l t r split semi
    simp only [Bool.and_eq_true] at single
    cases l with
    | nil =>
      cases split
      rw [flatMap_text_lexFrom]
      exact single.1
    | cons _ l => exact next.single single.2 l t r (List.cons.inj split).2 semi
  · intro t ht word
    rcases List.mem_cons.mp ht with rfl | ht
    · cases word
    · exact next.returning t ht word

/-- The scan and the tokens of a text agree: by induction over the tokens, a name being half read or not. -/
theorem agrees (previous : Option Token) (before rest : Text) (open_ : Bool) (h : Behind previous before rest)
    (hp : ∀ t ∈ previous, t.clear (lexFrom previous rest) = true) (hc : clear (lexFrom previous rest) = true)
    (ho : Reading open_ previous) : Agrees (resume open_ before rest) (lexFrom previous rest) := by
  fun_induction lexFrom previous rest generalizing before open_ with
  | case1 previous =>
    have nothing : resume open_ before [] = ⟨[], true, []⟩ := by
      cases open_ <;> simp [resume, scanFrom]
    rw [nothing]
    exact ⟨rfl, by simp, by simp⟩
  | case2 previous c cs t ih =>
    have fits : Fits before c cs (token previous c cs).1 (token previous c cs).2 := by
      apply fits_of_clear h <;> rw [lexFrom] <;> assumption
    simp only [clear, Bool.and_eq_true] at hc
    have next := fun open_ => ih (t.text.reverse ++ before) open_ ⟨by simp [t], before, rfl, fits.ends⟩
      (by rintro _ ⟨⟩; exact hc.1) hc.2
    have semicolon : c = ';'.toUInt8 → token previous c cs = (.other, []) := by
      rintro rfl
      exact token_of_semicolon previous cs
    have word : (token previous c cs).1 = .word → isIdent c = true ∧
        (token previous c cs).2 = cs.takeWhile continues := by
      intro word
      have letter := isIdent_of_token word
      exact ⟨letter, by rw [token_of_isIdent previous cs letter]⟩
    obtain ⟨rest, split⟩ := token_initial previous c cs
    subst t
    generalize token previous c cs = kt at *
    obtain ⟨kind, text⟩ := kt
    subst split
    simp only [List.drop_left] at *
    by_cases guarded : kind = .quoted ∨ kind = .comment
    · exact agrees_region fits open_ guarded (next false (by rintro ⟨⟩))
    by_cases semi : c = ';'.toUInt8
    · cases semicolon semi
      subst semi
      exact agrees_semicolon open_ (next false (by rintro ⟨⟩))
    refine agrees_bare fits open_ (by tauto) (by tauto) semi (next _ ?_) ?_
    · intro half
      refine ⟨_, rfl, ?_⟩
      have single : kind = .space ∨ kind = .other → False := by
        intro byte
        obtain ⟨rfl, name⟩ := fits.byte byte
        rw [isName, Bool.or_eq_false_iff] at name
        simp [reading, name] at half
      cases kind with
      | word => exact .inl rfl
      | number =>
        rw [reading_cons_of_digit fun digit => ho.not_digit h digit, reading_eq_endsInName] at half
        exact .inr ⟨rfl, half⟩
      | space => exact (single (.inl rfl)).elim
      | other => exact (single (.inr rfl)).elim
      | _ => simp at guarded
    · intro returning
      have read := returning
      simp only [Token.isWord, Bool.and_eq_true, decide_eq_true_eq] at read
      obtain ⟨letter, run⟩ := word read.1
      have fresh : open_ = false := by
        by_contra half
        obtain ⟨p, rfl, kind⟩ := ho (by simpa using half)
        obtain ⟨-, earlier, -, ends⟩ := h
        rcases kind with pw | ⟨number, exponent⟩
        · have := (ends.word pw).2 c rfl
          rw [continues_of_isName (isName_of_isIdent letter)] at this
          cases this
        · have := hp p rfl
          simp [Token.clear, number, exponent, returning] at this
      have whole : (text ++ rest).takeWhile isName = text := by
        rw [takeWhile_isName_of_notMem, ← run]
        rw [← run]
        intro mem
        have : lower '$'.toUInt8 ∈ ascii "returning" :=
          read.2 ▸ List.mem_map_of_mem (List.mem_cons_of_mem c mem)
        revert this
        decide
      have none_ : protectedRegion .postgres before c (text ++ rest) = none :=
        protectedRegion_of_plain (plain_of_isName c (isName_of_isIdent letter))
      rw [fresh, resume_cons false none_ semi, letter, whole, read.2]
      exact List.mem_cons_self

theorem isSpace_plain : ∀ b : UInt8, isSpace b = true →
    plain b = true ∧ isIdent b = false ∧ isDigit b = false ∧ b ≠ '.'.toUInt8 := by
  decide +kernel

theorem token_of_isSpace (previous : Option Token) (cs : Text) (h : isSpace c = true) :
    token previous c cs = (.space, []) := by
  obtain ⟨other, ident, digit, dot⟩ := isSpace_plain c h
  simp only [plain, Bool.and_eq_true, ne_eq, decide_not, Bool.not_eq_true', decide_eq_false_iff_not] at other
  simp [token, other, ident, digit, dot, h]

/-- Text of nothing but white space and comments is that to PostgreSQL too. -/
theorem trivia_of_onlySQLTrivia (h : onlySQLTrivia .postgres rest = true) (previous : Option Token) :
    ∀ t ∈ lexFrom previous rest, t.trivia = true := by
  fun_induction onlySQLTrivia .postgres rest generalizing previous with
  | case1 =>
    rw [lexFrom]
    simp
  | case2 c cs white ih =>
    have blank : isSpace c = true := by rcases white with rfl | rfl | rfl | rfl <;> decide
    rw [lexFrom, List.forall_mem_cons, token_of_isSpace previous cs blank]
    exact ⟨rfl, ih h _⟩
  | case3 c cs white line ih =>
    have comment : token previous c cs = (.comment, '-'.toUInt8 :: lineText cs.tail) := by
      rw [token, if_neg (by rw [line.1]; decide), if_neg (by rw [line.1]; decide), if_pos line]
    obtain ⟨cs, rfl⟩ := List.head?_eq_some_iff.mp line.2
    rw [lexFrom, List.forall_mem_cons, comment, lineText_eq, List.length_cons,
      length_take_of_le (skipSQLLineComment_le _), List.drop_succ_cons]
    exact ⟨rfl, ih h _⟩
  | case4 c cs white line block ih =>
    have comment : token previous c cs = (.comment, '*'.toUInt8 :: commentText 0 cs.tail) := by
      rw [token, if_neg (by rw [block.1]; decide), if_neg (by rw [block.1]; decide), if_neg line, if_pos block]
    obtain ⟨cs, rfl⟩ := List.head?_eq_some_iff.mp block.2
    rw [lexFrom, List.forall_mem_cons, comment, commentText_eq, List.length_cons,
      length_take_of_le (skipSQLBlockComment_le _ _ _), List.drop_succ_cons]
    exact ⟨rfl, ih h _⟩
  | case5 => cases h

theorem statements_of_no_semicolon (h : ∀ t ∈ ts, t.semicolon = false) : ts.splitOnP Token.semicolon = [ts] :=
  List.splitOnP_eq_singleton fun t ht => by simp [h t ht]

/-- If nothing but trivia follows a semicolon, one statement at most is not empty. -/
theorem statements_le_one (h : ∀ l t r, ts = l ++ t :: r → t.semicolon = true → ∀ u ∈ r, u.trivia = true) :
    (statements ts).length ≤ 1 := by
  rw [statements]
  by_cases none_ : ∀ t ∈ ts, t.semicolon = false
  · rw [statements_of_no_semicolon none_]
    exact List.length_filter_le _ _
  · -- the text is a first statement, a semicolon and trivia
    obtain ⟨l, t, r, rfl, semi, first⟩ :
        ∃ l t r, ts = l ++ t :: r ∧ t.semicolon = true ∧ ∀ u ∈ l, u.semicolon = false := by
      have found : ts.dropWhile (!Token.semicolon ·) ≠ [] := by
        rw [Ne, List.dropWhile_eq_nil_iff]
        simpa using none_
      obtain ⟨t, r, rest⟩ := List.exists_cons_of_ne_nil found
      have head := List.head?_dropWhile_not (!Token.semicolon ·) ts
      rw [rest] at head
      refine ⟨ts.takeWhile (!Token.semicolon ·), t, r, ?_, by simpa using head, ?_⟩
      · rw [← rest, List.takeWhile_append_dropWhile]
      · intro u hu
        simpa using List.mem_takeWhile_imp hu
    have last := h l t r rfl semi
    have closed : ∀ u ∈ r, u.semicolon = false := by
      intro u hu
      have := last u hu
      by_contra semi
      simp only [Token.semicolon, decide_eq_true_eq, Bool.not_eq_false] at semi
      rw [semi] at this
      cases this
    rw [List.splitOnP_append_cons_of_forall_mem first t semi, statements_of_no_semicolon closed, List.filter_cons]
    have empty : r.all Token.trivia = true := List.all_eq_true.mpr last
    split <;> simp [empty]

theorem returning_notMem {query : Text} {op : Operation}
    (operation : (classify .postgres query).operation = some op) (mutation : op.mutation = true)
    (rows : (classify .postgres query).returnsRows = false) :
    ascii "returning" ∉ (scanFrom .postgres [] query).tokens := by
  unfold classify at operation rows
  rw [scanSQLTokens] at operation rows
  cases words : (scanFrom .postgres [] query).tokens with
  | nil => exact List.not_mem_nil
  | cons keyword tokens =>
    rw [words] at operation rows
    simp only at operation rows
    rw [operation] at rows
    have others : ascii "returning" ∉ tokens := by
      intro mem
      simp only [Option.any_some, mutation, Bool.true_and, List.any_eq_false] at rows
      exact rows _ mem (by simp)
    intro mem
    rcases List.mem_cons.mp mem with first | mem
    · rw [← first, if_neg (by decide), if_neg (by decide), if_neg (by decide), if_neg (by decide)] at operation
      cases operation
    · exact others mem

theorem classify_single (driver : Driver) (query : Text) :
    (classify driver query).single = (scanFrom driver [] query).single := by
  rw [classify, scanSQLTokens]
  cases (scanFrom driver [] query).tokens <;> rfl

/-- What follows a token is read behind it. -/
theorem lexFrom_split {l r : List Token} {t : Token} (h : lexFrom previous rest = l ++ t :: r) :
    r = lexFrom (some t) (r.flatMap Token.text) := by
  induction l generalizing previous rest with
  | nil =>
    cases rest with
    | nil =>
      rw [lexFrom] at h
      cases h
    | cons c cs =>
      rw [lexFrom] at h
      obtain ⟨rfl, rfl⟩ := List.cons.inj h
      rw [flatMap_text_lexFrom]
  | cons u l ih =>
    cases rest with
    | nil =>
      rw [lexFrom] at h
      cases h
    | cons c cs =>
      rw [lexFrom] at h
      exact ih (List.cons.inj h).2

/-- What classification says about a text is so in PostgreSQL's reading of it. -/
structure Sound (query : Text) : Prop where
  single : (classify .postgres query).single = true → (statements (lex query)).length ≤ 1
  guarded : (scanFrom .postgres [] query).guarded = guardedPositions (lex query)
  returning : ∀ op, (classify .postgres query).operation = some op → op.mutation = true →
    (classify .postgres query).returnsRows = false → ∀ t ∈ lex query, t.isWord "returning" = false

/-- Where the scanner takes every token for what it is, classification is sound. -/
theorem classify_sound_of_clear (query : Text) (h : clear (lex query) = true) : Sound query := by
  have agree := agrees none [] query false rfl nofun h nofun
  rw [resume_false] at agree
  refine ⟨?_, agree.guarded, ?_⟩
  · intro single
    rw [classify_single] at single
    refine statements_le_one fun l t r split semi => ?_
    have trivia := agree.single single l t r split semi
    rw [lexFrom_split split]
    exact trivia_of_onlySQLTrivia trivia _
  · intro op operation mutation rows t ht
    by_contra word
    exact returning_notMem operation mutation rows (agree.returning t ht (by simpa using word))

theorem classify_sound_of_clear_update :
    clear (lex (ascii "update t set a = E'x\\'y', b = $q$;$q$ where c$1 = 1e5 -- ;")) = true ∧
      Sound (ascii "update t set a = E'x\\'y', b = $q$;$q$ where c$1 = 1e5 -- ;") :=
  have h : clear (lex (ascii "update t set a = E'x\\'y', b = $q$;$q$ where c$1 = 1e5 -- ;")) = true := by
    decide +kernel
  ⟨h, classify_sound_of_clear _ h⟩

/-- Dollar signs in an identifier hide a second statement from the scanner. -/
theorem classify_unsound : ¬ Sound (ascii "select a$b$; delete from t; --$b$") := by
  intro sound
  have := sound.single (by decide +kernel)
  revert this
  decide +kernel

end Onprest.Sql.Postgres
