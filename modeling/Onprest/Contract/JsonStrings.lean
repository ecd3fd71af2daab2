import Onprest.Lib.JsonString
import Onprest.Contract.Decode

/-! The strings and keys of a decoded value are what the text says they are: the scan of `validateJSONUnicode` before
the decoding sees every string as the tokenizer does, and no lone surrogate gets past it. -/

namespace Onprest.Contract
open Lib

/-- The inside of a string stands for some text. -/
def Paired (raw : List Char) : Prop := ∃ cs, Denotes raw cs

mutual
/-- The value has the strings and keys that the text denotes. -/
inductive Reads : Parsed → Value → Prop
  | null : Reads .null .null
  | bool (b : Bool) : Reads (.bool b) (.bool b)
  | str {raw : List Char} {s : String} (h : Denotes raw s.toList) : Reads (.str raw) (.str s)
  | num {t : NumberText} {n : Number} (h : decodeNumber t = some n) : Reads (.num t) (.num n)
  | arr {xs : List Parsed} {vs : List Value} (h : ReadsItems xs vs) : Reads (.arr xs) (.arr vs)
  | obj {fs : List (List Char × Parsed)} {ms : List (String × Value)} (h : ReadsMembers fs ms) :
      Reads (.obj fs) (.obj ms)
inductive ReadsItems : List Parsed → List Value → Prop
  | nil : ReadsItems [] []
  | cons {x : Parsed} {v : Value} {xs : List Parsed} {vs : List Value} (h : Reads x v) (hs : ReadsItems xs vs) :
      ReadsItems (x :: xs) (v :: vs)
inductive ReadsMembers : List (List Char × Parsed) → List (String × Value) → Prop
  | nil : ReadsMembers [] []
  | cons {raw : List Char} {k : String} {x : Parsed} {v : Value} {fs : List (List Char × Parsed)}
      {ms : List (String × Value)} (hk : Denotes raw k.toList) (h : Reads x v) (hs : ReadsMembers fs ms) :
      ReadsMembers ((raw, x) :: fs) ((k, v) :: ms)
end

variable {raw r cs : List Char} {p : Parsed} {n : ℕ}

theorem Paired.denotes (h : Paired raw) : Denotes raw (stringOf raw).toList := by
  obtain ⟨cs, hcs⟩ := h
  rwa [stringOf, String.toList_ofList, hcs.unescape_eq]

/-- A text without lone surrogates is decoded to what it says. -/
theorem reads_of_toValue (hp : p.All Paired fun _ => True) {v : Value} (h : toValue p = some v) : Reads p v := by
  induction p generalizing v with
  | null =>
    cases h
    exact .null
  | bool b =>
    cases h
    exact .bool b
  | str raw =>
    cases h
    cases hp with
    | str hraw => exact .str hraw.denotes
  | num t =>
    obtain ⟨n, hn, rfl⟩ := Option.map_eq_some_iff.mp h
    exact .num hn
  | arr xs ih =>
    obtain ⟨vs, hvs, rfl⟩ := Option.map_eq_some_iff.mp h
    refine .arr ?_
    cases hp with
    | arr hxs =>
      clear h
      induction xs generalizing vs with
      | nil =>
        cases hvs
        exact .nil
      | cons x xs ihs =>
        rw [List.forall_mem_cons] at ih hxs
        obtain ⟨v, hv, hvs⟩ := Option.bind_eq_some_iff.mp hvs
        obtain ⟨us, hus, rfl⟩ := Option.map_eq_some_iff.mp hvs
        exact .cons (ih.1 hxs.1 hv) (ihs ih.2 us hus hxs.2)
  | obj fs ih =>
    obtain ⟨ms, hms, rfl⟩ := Option.map_eq_some_iff.mp h
    refine .obj ?_
    cases hp with
    | obj hk hfs =>
      clear h
      generalize ([] : List String) = seen at hms
      induction fs generalizing ms seen with
      | nil =>
        cases hms
        exact .nil
      | cons f fs ihs =>
        obtain ⟨raw, x⟩ := f
        rw [List.forall_mem_cons] at ih hk hfs
        rw [toMembers] at hms
        split at hms
        · cases hms
        · obtain ⟨v, hv, hms⟩ := Option.bind_eq_some_iff.mp hms
          obtain ⟨us, hus, rfl⟩ := Option.map_eq_some_iff.mp hms
          exact .cons hk.1.denotes (ih.1 hfs.1 hv) (ihs ih.2 us hk.2 hfs.2 _ hus)

/-! ### The scan before the decoding -/

theorem validateJSONUnicode_digits {a b c d : Char} (hn : hexValue a b c d = some n)
    (h : validateJSONUnicode true ('\\' :: 'u' :: a :: b :: c :: d :: r) = true) :
    isLow n = false ∧
      (isHigh n = false ∧ validateJSONUnicode true r = true ∨
        isHigh n = true ∧ ∃ a' b' c' d' m r', r = '\\' :: 'u' :: a' :: b' :: c' :: d' :: r' ∧
          hexValue a' b' c' d' = some m ∧
          isLow m = true ∧ validateJSONUnicode true r' = true) := by
  rw [validateJSONUnicode.eq_def] at h
  dsimp only at h
  rw [if_neg (by decide), if_neg (by decide), if_neg (by decide), hn] at h
  dsimp only at h
  split at h
  · cases h
  · rename_i hlow
    refine ⟨by simpa using hlow, ?_⟩
    split at h
    · rename_i hhigh
      split at h
      · rename_i a' b' c' d' r'
        split at h
        · cases h
        · rename_i hescape
          simp only [Bool.or_eq_true, decide_eq_true_eq, not_or, not_not] at hescape
          obtain ⟨rfl, rfl⟩ := hescape
          split at h
          · cases h
          · rename_i m hm
            rw [Bool.and_eq_true] at h
            exact .inr ⟨hhigh, _, _, _, _, m, _, rfl, hm, h.1, h.2⟩
      · cases h
    · rename_i hhigh
      exact .inl ⟨by simpa using hhigh, h⟩

/-- A string that the scan gets through has no lone surrogate. -/
theorem scan_body (h : takeBody cs = some (raw, r)) (hscan : validateJSONUnicode true cs = true) :
    Paired raw ∧ validateJSONUnicode false r = true := by
  have hu : ∀ c, ('u', c) ∉ escapeChars := by simp [escapeChars]
  induction hlen : cs.length using Nat.strong_induction_on generalizing cs raw with
  | _ k ih =>
    subst hlen
    obtain ⟨rfl, rfl⟩ | ⟨a, b, c, d, n, cs', raw', hn, rfl, rfl, hbody⟩ | ⟨e, c, cs', raw', he, rfl, rfl, hbody⟩ |
      ⟨c, cs', raw', hq, hb, hc, rfl, rfl, hbody⟩ := takeBody_cases h
    · rw [validateJSONUnicode_quoted] at hscan
      exact ⟨⟨[], [], .nil, .nil⟩, hscan⟩
    · obtain ⟨hlow, ⟨hhigh, hrest⟩ | ⟨hhigh, a', b', c', d', m, r', rfl, hm, hmlow, hrest⟩⟩ :=
        validateJSONUnicode_digits hn hscan
      · obtain ⟨x, rfl⟩ := exists_char (hexValue_lt hn) hhigh hlow
        obtain ⟨⟨xs, ts, hts, hxs⟩, hr⟩ := ih _ (by simp only [List.length_cons]; omega) hbody hrest rfl
        exact ⟨⟨_, _, .digits hn hts, .number x hxs⟩, hr⟩
      · obtain ⟨x, hx⟩ := exists_pair hhigh hmlow
        -- the low surrogate is the next piece of the string
        obtain ⟨heq, -⟩ | ⟨_, _, _, _, m', _, raw'', hm', heq, rfl, hbody'⟩ | ⟨_, _, _, _, he, heq, -, -⟩ |
          ⟨_, _, _, -, hb, -, heq, -, -⟩ := takeBody_cases hbody
        · cases heq
        · cases heq
          obtain rfl := Option.some.inj (hm.symm.trans hm')
          obtain ⟨⟨xs, ts, hts, hxs⟩, hr⟩ := ih _ (by simp only [List.length_cons]; omega) hbody' hrest rfl
          exact ⟨⟨_, _, .digits hn (.digits hm hts), .pair hhigh hmlow hx hxs⟩, hr⟩
        · cases heq
          exact absurd he (hu _)
        · cases heq
          exact absurd rfl hb
    · rw [validateJSONUnicode_short (fun hu' => hu c (hu' ▸ he))] at hscan
      obtain ⟨⟨xs, ts, hts, hxs⟩, hr⟩ := ih _ (by simp only [List.length_cons]; omega) hbody hscan rfl
      exact ⟨⟨_, _, .short he hts, .char c hxs⟩, hr⟩
    · rw [validateJSONUnicode_skip hq (.inr hb)] at hscan
      obtain ⟨⟨xs, ts, hts, hxs⟩, hr⟩ := ih _ (by simp only [List.length_cons]; omega) hbody hscan rfl
      exact ⟨⟨_, _, .plain hq hb hc hts, .char c hxs⟩, hr⟩

theorem scan_skipBlanks (cs : List Char) :
    validateJSONUnicode false (skipBlanks cs) = validateJSONUnicode false cs := by
  have hblanks : Passes (cs.takeWhile isBlank) := by
    refine passes_of_not_mem fun hmem => ?_
    have := List.mem_takeWhile_imp hmem
    simp [isBlank] at this
  have h := hblanks (skipBlanks cs)
  rwa [skipBlanks, List.takeWhile_append_dropWhile, eq_comm] at h

theorem scan_takeWord {w cs r : List Char} (hw : '"' ∉ w) (h : takeWord w cs = some r) :
    validateJSONUnicode false cs = validateJSONUnicode false r := by
  rw [takeWord] at h
  split at h
  · rename_i hfront
    obtain ⟨r', rfl⟩ := List.isPrefixOf_iff_prefix.mp hfront
    cases h
    rw [passes_of_not_mem hw, List.drop_left]
  · cases h

theorem scan_takeNumber {t : NumberText} (h : takeNumber cs = some (t, r)) :
    validateJSONUnicode false cs = validateJSONUnicode false r := by
  rw [takeNumber] at h
  split at h
  · cases h
  · split at h
    · rename_i hnumber
      cases h
      rw [Bool.and_eq_true, beq_iff_eq] at hnumber
      rw [← hnumber.2, passes_number]
    · cases h

theorem scan_takeKey (h : takeKey cs = some (raw, r)) (hscan : validateJSONUnicode false cs = true) :
    Paired raw ∧ validateJSONUnicode false r = true := by
  rw [← scan_skipBlanks] at hscan
  unfold takeKey at h
  split at h
  · rename_i hquote
    rw [hquote, validateJSONUnicode_quoted] at hscan
    split at h
    · cases h
    · rename_i hbody
      obtain ⟨hraw, hr⟩ := scan_body hbody hscan
      rw [← scan_skipBlanks] at hr
      split at h
      · rename_i hcolon
        cases h
        rw [hcolon, validateJSONUnicode_skip (by decide) (.inl rfl)] at hr
        exact ⟨hraw, hr⟩
      · cases h
  · cases h

/-- What the scan and the parser see of the front of a text. -/
def Scans (n : ℕ) : Prop :=
  (∀ cs p r, parseValue n cs = some (p, r) → validateJSONUnicode false cs = true →
    p.All Paired (fun _ => True) ∧ validateJSONUnicode false r = true) ∧
  (∀ cs xs r, parseItems n cs = some (xs, r) → validateJSONUnicode false cs = true →
    (∀ x ∈ xs, x.All Paired fun _ => True) ∧ validateJSONUnicode false r = true) ∧
  ∀ cs fs r, parseMembers n cs = some (fs, r) → validateJSONUnicode false cs = true →
    ((∀ f ∈ fs, Paired f.1) ∧ ∀ f ∈ fs, f.2.All Paired fun _ => True) ∧ validateJSONUnicode false r = true

theorem scan_cons {c : Char} (hc : c ≠ '"') (h : skipBlanks cs = c :: r)
    (hscan : validateJSONUnicode false cs = true) : validateJSONUnicode false r = true := by
  rwa [← scan_skipBlanks, h, validateJSONUnicode_skip hc (.inl rfl)] at hscan

theorem scan_parseValue (ih : Scans n) (h : parseValue (n + 1) cs = some (p, r))
    (hscan : validateJSONUnicode false cs = true) :
    p.All Paired (fun _ => True) ∧ validateJSONUnicode false r = true := by
  obtain ⟨-, ihItems, ihMembers⟩ := ih
  rw [parseValue] at h
  split at h
  · cases h
  rename_i c cs' hfront
  split_ifs at h with hnull htrue hfalse hquote hopen hbrace
  · subst hnull
    obtain ⟨r', hr, heq⟩ := Option.map_eq_some_iff.mp h
    cases heq
    exact ⟨.null, scan_takeWord (by simp) hr ▸ scan_cons (by decide) hfront hscan⟩
  · subst htrue
    obtain ⟨r', hr, heq⟩ := Option.map_eq_some_iff.mp h
    cases heq
    exact ⟨.bool true, scan_takeWord (by simp) hr ▸ scan_cons (by decide) hfront hscan⟩
  · subst hfalse
    obtain ⟨r', hr, heq⟩ := Option.map_eq_some_iff.mp h
    cases heq
    exact ⟨.bool false, scan_takeWord (by simp) hr ▸ scan_cons (by decide) hfront hscan⟩
  · subst hquote
    obtain ⟨⟨raw, r'⟩, hbody, heq⟩ := Option.map_eq_some_iff.mp h
    cases heq
    rw [← scan_skipBlanks, hfront, validateJSONUnicode_quoted] at hscan
    obtain ⟨hraw, hr⟩ := scan_body hbody hscan
    exact ⟨.str hraw, hr⟩
  · subst hopen
    have hscan := scan_cons (by decide) hfront hscan
    split at h
    · rename_i hclose
      cases h
      exact ⟨.arr (by simp), scan_cons (by decide) hclose hscan⟩
    · obtain ⟨⟨xs, r'⟩, hitems, heq⟩ := Option.map_eq_some_iff.mp h
      cases heq
      obtain ⟨hxs, hr⟩ := ihItems _ _ _ hitems ((scan_skipBlanks _).trans hscan)
      exact ⟨.arr hxs, hr⟩
  · subst hbrace
    have hscan := scan_cons (by decide) hfront hscan
    split at h
    · rename_i hclose
      cases h
      exact ⟨.obj (by simp) (by simp), scan_cons (by decide) hclose hscan⟩
    · obtain ⟨⟨fs, r'⟩, hmembers, heq⟩ := Option.map_eq_some_iff.mp h
      cases heq
      obtain ⟨⟨hk, hfs⟩, hr⟩ := ihMembers _ _ _ hmembers ((scan_skipBlanks _).trans hscan)
      exact ⟨.obj hk hfs, hr⟩
  · obtain ⟨⟨t, r'⟩, hnumber, heq⟩ := Option.map_eq_some_iff.mp h
    cases heq
    rw [← scan_skipBlanks, hfront, scan_takeNumber hnumber] at hscan
    exact ⟨.num trivial, hscan⟩

theorem scan_parseItems (ih : Scans n) {xs : List Parsed} (h : parseItems (n + 1) cs = some (xs, r))
    (hscan : validateJSONUnicode false cs = true) :
    (∀ x ∈ xs, x.All Paired fun _ => True) ∧ validateJSONUnicode false r = true := by
  rw [parseItems] at h
  split at h
  · cases h
  rename_i x r' hx
  obtain ⟨hx, hr⟩ := ih.1 _ _ _ hx hscan
  split at h
  · rename_i hcomma
    obtain ⟨⟨ys, r''⟩, hys, heq⟩ := Option.map_eq_some_iff.mp h
    cases heq
    obtain ⟨hys, hr⟩ := ih.2.1 _ _ _ hys (scan_cons (by decide) hcomma hr)
    exact ⟨List.forall_mem_cons.mpr ⟨hx, hys⟩, hr⟩
  · rename_i hclose
    cases h
    exact ⟨List.forall_mem_singleton.mpr hx, scan_cons (by decide) hclose hr⟩
  · cases h

theorem scan_parseMembers (ih : Scans n) {fs : List (List Char × Parsed)}
    (h : parseMembers (n + 1) cs = some (fs, r)) (hscan : validateJSONUnicode false cs = true) :
    ((∀ f ∈ fs, Paired f.1) ∧ ∀ f ∈ fs, f.2.All Paired fun _ => True) ∧ validateJSONUnicode false r = true := by
  rw [parseMembers] at h
  split at h
  · cases h
  rename_i raw r' hkey
  obtain ⟨hraw, hr⟩ := scan_takeKey hkey hscan
  split at h
  · cases h
  rename_i x r'' hx
  obtain ⟨hx, hr⟩ := ih.1 _ _ _ hx hr
  split at h
  · rename_i hcomma
    obtain ⟨⟨gs, r₃⟩, hgs, heq⟩ := Option.map_eq_some_iff.mp h
    cases heq
    obtain ⟨⟨hk, hgs⟩, hr⟩ := ih.2.2 _ _ _ hgs (scan_cons (by decide) hcomma hr)
    exact ⟨⟨List.forall_mem_cons.mpr ⟨hraw, hk⟩, List.forall_mem_cons.mpr ⟨hx, hgs⟩⟩, hr⟩
  · rename_i hclose
    cases h
    exact ⟨⟨List.forall_mem_singleton.mpr hraw, List.forall_mem_singleton.mpr hx⟩, scan_cons (by decide) hclose hr⟩
  · cases h

theorem scans (n : ℕ) : Scans n := by
  induction n with
  | zero => exact ⟨nofun, nofun, nofun⟩
  | succ n ih =>
    exact ⟨fun _ _ _ => scan_parseValue ih, fun _ _ _ => scan_parseItems ih, fun _ _ _ => scan_parseMembers ih⟩

/-- The scan finds every lone surrogate of a text. -/
theorem all_paired (hp : parseJson cs = some p) (hscan : validateJSONUnicode false cs = true) :
    p.All Paired fun _ => True := by
  unfold parseJson at hp
  split at hp
  · rename_i v r hv
    split at hp
    · cases hp
      exact ((scans _).1 _ _ _ hv hscan).1
    · cases hp
  · cases hp

/-- The strings and keys of a decoded value are the characters that the text denotes, and a text with a lone
surrogate in a string or key is rejected. -/
theorem decodeJSON_strings (l : Limits) (data : ByteArray) :
    (∀ v, decodeJSON l data = some v →
      ∃ cs p, data.utf8Decode? = some cs ∧ parseJson cs.toList = some p ∧ Reads p v) ∧
    ∀ cs p, data.utf8Decode? = some cs → parseJson cs.toList = some p →
      ¬ p.All (fun raw => ¬ LoneSurrogate raw) (fun _ => True) → decodeJSON l data = none := by
  constructor
  · intro v h
    obtain ⟨-, -, cs, p, hcs, hscan, hp, hv⟩ := decodeJSON_eq_some.mp h
    exact ⟨cs, p, hcs, hp, reads_of_toValue (all_paired hp hscan) hv⟩
  · intro cs p hcs hp hlone
    refine Option.eq_none_iff_forall_ne_some.mpr fun v h => hlone ?_
    obtain ⟨-, -, cs', p', hcs', hscan, hp', -⟩ := decodeJSON_eq_some.mp h
    obtain rfl := Option.some.inj (hcs.symm.trans hcs')
    obtain rfl := Option.some.inj (hp.symm.trans hp')
    exact (all_paired hp hscan).imp (fun _ ⟨_, h⟩ => h.not_loneSurrogate) fun _ h => h

end Onprest.Contract
