import Onprest.Filesystem.Select
import Onprest.Lib.Except

/-! What a selection returns: the traversal visits every folder it can reach once, in whatever order directories list
their entries, and the matching files are ranked by an order that ties no two paths. -/

namespace Onprest.Filesystem
open Lib

/-! ### What the traversal can reach -/

mutual
/-- The folders the traversal visits below and at a path, with their entries. -/
def Node.folders (recursive : Bool) (path : Name) : Node → List (Name × List Entry)
  | .folder _ es => (path, es) :: if recursive then foldersBelow recursive path es else []
  | .file _ _ => []
  | .closed _ => []
def foldersBelow (recursive : Bool) (path : Name) : List Entry → List (Name × List Entry)
  | [] => []
  | (none, _) :: es => foldersBelow recursive path es
  | (some n, child) :: es =>
    (if reserved n then [] else child.folders recursive (joinPath path n)) ++ foldersBelow recursive path es
end

/-- The folders an entry leads to. -/
def foldersOf (recursive : Bool) (path : Name) (e : Entry) : List (Name × List Entry) :=
  match e.1 with
  | none => []
  | some n => if reserved n then [] else e.2.folders recursive (joinPath path n)

theorem foldersBelow_eq (recursive : Bool) (path : Name) (es : List Entry) :
    foldersBelow recursive path es = es.flatMap (foldersOf recursive path) := by
  induction es with
  | nil => rfl
  | cons e es ih =>
    obtain ⟨_ | n, child⟩ := e
    · simpa [foldersBelow, foldersOf] using ih
    · simp [foldersBelow, foldersOf, ih]

/-- An entry the traversal does not fail at: its name is valid, and it is left out for its name or opens. -/
def Root.accepts (r : Root) (e : Entry) : Bool :=
  match e.1 with
  | none => false
  | some n => validateBasename n && (reserved n || r.platformName n && (r.inspect e.2).isOk)

/-- The directories an entry adds to the stack. -/
def pushed (sel : Selector) (d : Name) (e : Entry) : List Queued :=
  match e with
  | (some n, .folder st _) => if !reserved n && sel.recursive then [⟨joinPath d n, some st⟩] else []
  | _ => []

/-- The file an entry adds to the matches. -/
def picked (sel : Selector) (name d : Name) (e : Entry) : List Selection :=
  match e with
  | (some n, .file st _) => if !reserved n && sel.picks name n then [selectionOf d n st] else []
  | _ => []

/-- The number of entries of some folders. -/
def entryCount (fs : List (Name × List Entry)) : ℕ := (fs.map fun f => f.2.length).sum

/-- The files of some folders that match. -/
def matching (sel : Selector) (name : Name) (fs : List (Name × List Entry)) : List Selection :=
  fs.flatMap fun f => f.2.flatMap (picked sel name f.1)

/-- No entry of some folders makes the traversal fail. -/
def Root.Accepts (r : Root) (fs : List (Name × List Entry)) : Prop := ∀ f ∈ fs, ∀ e ∈ f.2, r.accepts e = true

section Scan
variable {r : Root} {listing : Listing} {ended : ℕ → Bool} {sel : Selector} {name d : Name} {st : Stamp}
  {es : List Entry}

variable {e : Entry} {s : Scan} {fs gs : List (Name × List Entry)} {fuel : ℕ}

/-- One entry of a directory. -/
theorem scanEntry_eq (hd : r.open d = .ok (.folder st es)) (he : e ∈ es) (s : Scan)
    (hlimit : s.scanned ≠ sel.scanLimit) (haccepts : r.accepts e = true) :
    scanEntry r sel name d s e.1 =
      .ok ⟨pushed sel d e ++ s.pending, s.scanned + 1, s.matches' ++ picked sel name d e⟩ := by
  obtain ⟨_ | n, child⟩ := e
  · simp [Root.accepts] at haccepts
  · simp only [Root.accepts, Bool.and_eq_true, Bool.or_eq_true] at haccepts
    obtain ⟨hn, hopen⟩ := haccepts
    rw [scanEntry, if_neg hlimit]
    simp only [hn, Bool.not_true, Bool.false_eq_true, if_false]
    by_cases hreserved : reserved n = true
    · cases child <;> simp [hreserved, pushed, picked]
    · rw [Bool.not_eq_true] at hreserved
      obtain ⟨hplatform, hinspect⟩ : r.platformName n = true ∧ (r.inspect child).isOk = true := by
        simpa [hreserved] using hopen
      rw [open_joinPath hd he hn hreserved, if_pos hplatform]
      cases child with
      | closed e => simp [Root.inspect, Except.isOk, Except.toBool] at hinspect
      | folder st' es' =>
        simp only [Root.inspect] at hinspect ⊢
        split at hinspect
        · rename_i hsame
          cases hrec : sel.recursive <;> simp [hsame, hreserved, pushed, picked, hrec]
        · simp [Except.isOk, Except.toBool] at hinspect
      | file st' regular =>
        simp only [Root.inspect] at hinspect ⊢
        split at hinspect
        · rename_i hsame
          rw [if_pos hsame]
          cases hpick : sel.picks name n <;> simp [hreserved, pushed, picked, hpick]
        · simp [Except.isOk, Except.toBool] at hinspect

theorem accepts_of_scanEntry (hd : r.open d = .ok (.folder st es)) (he : e ∈ es) {t : Scan}
    (h : scanEntry r sel name d s e.1 = .ok t) : r.accepts e = true ∧ s.scanned ≠ sel.scanLimit := by
  obtain ⟨base, child⟩ := e
  rw [scanEntry] at h
  split at h
  · cases h
  · rename_i hlimit
    refine ⟨?_, hlimit⟩
    cases base with
    | none => cases h
    | some n =>
      dsimp only at h
      cases hn : validateBasename n with
      | false => simp [hn] at h
      | true =>
        cases hreserved : reserved n with
        | true => simp [Root.accepts, hn, hreserved]
        | false =>
          rw [open_joinPath hd he hn hreserved] at h
          cases hplatform : r.platformName n with
          | false => simp [hn, hreserved, hplatform] at h
          | true =>
            cases hinspect : r.inspect child with
            | error e => simp [hn, hreserved, hplatform, hinspect] at h
            | ok o => simp [Root.accepts, hn, hreserved, hplatform, hinspect, Except.isOk, Except.toBool]

section Live
variable (hlive : ∀ n, ended n = false)
include hlive

theorem scanEntries_cons (s : Scan) (base : Option Name) (bases : List (Option Name)) :
    scanEntries r ended sel name d s (base :: bases) =
      scanEntry r sel name d s base >>= fun s => scanEntries r ended sel name d s bases := by
  rw [scanEntries, hlive]
  cases scanEntry r sel name d s base <;> rfl

variable {fs : List Entry} {s : Scan}

/-- All entries of a directory, listed in any order. -/
theorem scanEntries_eq (hd : r.open d = .ok (.folder st es)) (hfs : ∀ e ∈ fs, e ∈ es)
    (haccepts : ∀ e ∈ fs, r.accepts e = true) (hlimit : s.scanned + fs.length ≤ sel.scanLimit) :
    scanEntries r ended sel name d s (fs.map Prod.fst) =
      .ok ⟨fs.reverse.flatMap (pushed sel d) ++ s.pending, s.scanned + fs.length,
        s.matches' ++ fs.flatMap (picked sel name d)⟩ := by
  induction fs generalizing s with
  | nil => simp [scanEntries, hlive]
  | cons e fs ih =>
    rw [List.length_cons] at hlimit
    rw [List.forall_mem_cons] at hfs haccepts
    rw [List.map_cons, scanEntries_cons hlive, scanEntry_eq hd hfs.1 s (by omega) haccepts.1]
    change scanEntries r ended sel name d _ _ = _
    rw [ih hfs.2 haccepts.2 (by dsimp only; omega)]
    simp [List.flatMap_append, Nat.add_assoc, Nat.add_comm 1]

theorem scanEntries_limit (hd : r.open d = .ok (.folder st es)) (hfs : ∀ e ∈ fs, e ∈ es)
    (haccepts : ∀ e ∈ fs, r.accepts e = true) (hscanned : s.scanned ≤ sel.scanLimit)
    (hlimit : sel.scanLimit < s.scanned + fs.length) :
    scanEntries r ended sel name d s (fs.map Prod.fst) = .error .limitExceeded := by
  induction fs generalizing s with
  | nil =>
    rw [List.length_nil] at hlimit
    omega
  | cons e fs ih =>
    rw [List.length_cons] at hlimit
    rw [List.forall_mem_cons] at hfs haccepts
    rw [List.map_cons, scanEntries_cons hlive]
    by_cases hfull : s.scanned = sel.scanLimit
    · rw [scanEntry, if_pos hfull]
      rfl
    · rw [scanEntry_eq hd hfs.1 s hfull haccepts.1]
      exact ih hfs.2 haccepts.2 (by dsimp only; omega) (by dsimp only; omega)

theorem accepts_of_scanEntries (hd : r.open d = .ok (.folder st es)) (hfs : ∀ e ∈ fs, e ∈ es) {t : Scan}
    (hscanned : s.scanned ≤ sel.scanLimit) (h : scanEntries r ended sel name d s (fs.map Prod.fst) = .ok t) :
    (∀ e ∈ fs, r.accepts e = true) ∧ s.scanned + fs.length ≤ sel.scanLimit := by
  induction fs generalizing s with
  | nil => exact ⟨by simp, hscanned⟩
  | cons e fs ih =>
    rw [List.forall_mem_cons] at hfs
    rw [List.map_cons, scanEntries_cons hlive, except_bind_eq_ok] at h
    obtain ⟨s', hentry, h⟩ := h
    obtain ⟨haccepts, hlimit⟩ := accepts_of_scanEntry hd hfs.1 hentry
    rw [scanEntry_eq hd hfs.1 s hlimit haccepts, Except.ok.injEq] at hentry
    subst hentry
    obtain ⟨hrest, hlength⟩ := ih hfs.2 (by dsimp only; omega) h
    refine ⟨List.forall_mem_cons.mpr ⟨haccepts, hrest⟩, ?_⟩
    rw [List.length_cons]
    dsimp only at hlength
    omega

end Live

/-! ### The loop -/

/-- A directory on the stack is still the one that was put there. -/
def Sound (r : Root) (q : Queued) : Prop :=
  ∃ st es, r.open q.path = .ok (.folder st es) ∧ ∀ expected ∈ q.expected, expected = st

/-- The folders the traversal visits for a directory on the stack. -/
def reach (r : Root) (sel : Selector) (q : Queued) : List (Name × List Entry) :=
  match r.open q.path with
  | .ok (.folder st es) => (Node.folder st es).folders sel.recursive q.path
  | _ => []

theorem open_accepted (hd : r.open d = .ok (.folder st es)) {n : Name} {st' : Stamp} {es' : List Entry}
    (he : (some n, Node.folder st' es') ∈ es) (haccepts : r.accepts (some n, .folder st' es') = true)
    (hreserved : reserved n = false) : r.open (joinPath d n) = .ok (.folder st' es') := by
  simp only [Root.accepts, hreserved, Bool.false_or, Bool.and_eq_true] at haccepts
  obtain ⟨hn, hplatform, hinspect⟩ := haccepts
  rw [open_joinPath hd he hn hreserved, if_pos hplatform]
  simp only [Root.inspect] at hinspect ⊢
  split at hinspect
  · rename_i hsame
    exact if_pos hsame
  · simp [Except.isOk, Except.toBool] at hinspect

theorem reach_pushed (hd : r.open d = .ok (.folder st es)) (he : e ∈ es) (haccepts : r.accepts e = true) :
    (pushed sel d e).flatMap (reach r sel) = if sel.recursive then foldersOf sel.recursive d e else [] := by
  cases hrec : sel.recursive with
  | false => obtain ⟨_ | n, _ | _ | _⟩ := e <;> simp [pushed, hrec]
  | true =>
    obtain ⟨_ | n, child⟩ := e
    · simp [Root.accepts] at haccepts
    · cases hreserved : reserved n with
      | true => cases child <;> simp [pushed, foldersOf, hreserved]
      | false =>
        cases child with
        | closed e | file st' regular => simp [pushed, foldersOf, hreserved, Node.folders]
        | folder st' es' =>
          have hopen := open_accepted hd he haccepts hreserved
          simp [pushed, foldersOf, hreserved, hrec, reach, hopen]

theorem sound_pushed (hd : r.open d = .ok (.folder st es)) (he : e ∈ es) (haccepts : r.accepts e = true) :
    ∀ q ∈ pushed sel d e, Sound r q := by
  intro q hq
  obtain ⟨_ | n, _ | ⟨st', regular⟩ | ⟨e⟩⟩ := e <;> try cases hq
  rename_i st' es'
  simp only [pushed] at hq
  split at hq
  · rename_i hcond
    simp only [Bool.and_eq_true, Bool.not_eq_true'] at hcond
    rw [List.mem_singleton] at hq
    subst hq
    exact ⟨st', es', open_accepted hd he haccepts hcond.1, by simp⟩
  · cases hq

/-- What the loop returns when the directories on its stack lead to the folders `fs`. -/
structure Scanned (r : Root) (sel : Selector) (name : Name) (s : Scan) (fs : List (Name × List Entry))
    (out : Except SelectError Scan) : Prop where
  done : r.Accepts fs → s.scanned + entryCount fs ≤ sel.scanLimit →
    ∃ t, out = .ok t ∧ t.matches'.Perm (s.matches' ++ matching sel name fs)
  exceeded : r.Accepts fs → sel.scanLimit < s.scanned + entryCount fs → out = .error .limitExceeded
  accepted : ∀ t, out = .ok t → r.Accepts fs ∧ s.scanned + entryCount fs ≤ sel.scanLimit

theorem entryCount_perm (h : fs.Perm gs) : entryCount fs = entryCount gs :=
  (h.map _).sum_eq

theorem Root.accepts_perm (h : fs.Perm gs) : r.Accepts fs ↔ r.Accepts gs := by
  constructor
  · intro hfs f hf
    exact hfs f (h.mem_iff.mpr hf)
  · intro hgs f hf
    exact hgs f (h.mem_iff.mp hf)

theorem matching_perm (h : fs.Perm gs) : (matching sel name fs).Perm (matching sel name gs) := h.flatMap_right _

theorem matching_cons (f : Name × List Entry) (fs : List (Name × List Entry)) :
    matching sel name (f :: fs) = f.2.flatMap (picked sel name f.1) ++ matching sel name fs := rfl

theorem entryCount_cons (f : Name × List Entry) (fs : List (Name × List Entry)) :
    entryCount (f :: fs) = f.2.length + entryCount fs := rfl

theorem Root.accepts_cons {f : Name × List Entry} :
    r.Accepts (f :: fs) ↔ (∀ e ∈ f.2, r.accepts e = true) ∧ r.Accepts fs := List.forall_mem_cons

/-- A directory of the stack is read by listing a permutation of its entries. -/
theorem scanQueued_eq {q : Queued} (hopen : r.open q.path = .ok (.folder st es))
    (hexpected : ∀ expected ∈ q.expected, expected = st) (s : Scan) :
    ∃ fs : List Entry, fs.Perm es ∧
      scanQueued r listing ended sel name s q = scanEntries r ended sel name q.path s (fs.map Prod.fst) := by
  have hnames : List.Forall₂ (fun base (e : Entry) => base = e.1) (es.map Prod.fst) es := by
    rw [List.forall₂_map_left_iff, List.forall₂_same]
    exact fun _ _ => rfl
  obtain ⟨fs, hfs, hperm⟩ := List.perm_comp_forall₂ (listing.perm q.path (es.map Prod.fst)) hnames
  have hmap : listing.order q.path (es.map Prod.fst) = fs.map Prod.fst := by
    rw [← List.forall₂_eq_eq_eq, List.forall₂_map_right_iff]
    exact hfs
  refine ⟨fs, hperm, ?_⟩
  have hsame : q.expected.any (· ≠ (Opened.folder st es).stamp) = false := by
    cases hq : q.expected with
    | none => rfl
    | some expected => simp [hexpected expected hq, Opened.stamp]
  rw [scanQueued, hopen]
  dsimp only
  rw [hsame, hmap]
  cases scanEntries r ended sel name q.path s (fs.map Prod.fst) <;> simp [Opened.stamp]

theorem scanned_nil (hscanned : s.scanned ≤ sel.scanLimit) : Scanned r sel name s [] (.ok s) := by
  refine ⟨?_, ?_, ?_⟩
  · exact fun _ _ => ⟨s, rfl, by simp [matching]⟩
  · intro _ h
    exact absurd h (Nat.not_lt.mpr hscanned)
  · intro t _
    exact ⟨by simp [Root.Accepts], hscanned⟩

/-- Reading one directory leaves the folders below it and the rest of the stack. -/
theorem perm_reach (hd : r.open d = .ok (.folder st es)) {fs : List Entry} (hperm : fs.Perm es)
    (haccepts : ∀ e ∈ fs, r.accepts e = true) :
    ((fs.reverse.flatMap (pushed sel d)).flatMap (reach r sel)).Perm
      (if sel.recursive then foldersBelow sel.recursive d es else []) := by
  have hreach : (fs.reverse.flatMap (pushed sel d)).flatMap (reach r sel) =
      fs.reverse.flatMap fun e => if sel.recursive then foldersOf sel.recursive d e else [] := by
    rw [List.flatMap_assoc]
    apply List.flatMap_congr
    intro e he
    rw [List.mem_reverse] at he
    exact reach_pushed hd (hperm.mem_iff.mp he) (haccepts e he)
  rw [hreach]
  cases hrec : sel.recursive with
  | false => simp
  | true =>
    simp only [if_true]
    rw [foldersBelow_eq]
    exact ((List.reverse_perm fs).trans hperm).flatMap_right _

/-- A directory whose entries were all accepted, then the rest of the stack. -/
theorem Scanned.cons {s t : Scan} {fs : List Entry} {gs hs : List (Name × List Entry)}
    {out : Except SelectError Scan} (h : Scanned r sel name t gs out) (hperm : gs.Perm hs) (hfs : fs.Perm es)
    (haccepts : ∀ e ∈ fs, r.accepts e = true) (hscanned : t.scanned = s.scanned + fs.length)
    (hmatches : t.matches' = s.matches' ++ fs.flatMap (picked sel name d)) :
    Scanned r sel name s ((d, es) :: hs) out := by
  have hcount : t.scanned + entryCount gs = s.scanned + entryCount ((d, es) :: hs) := by
    rw [entryCount_cons, hscanned, entryCount_perm hperm, hfs.length_eq, Nat.add_assoc]
  refine ⟨?_, ?_, ?_⟩
  · intro hall hlimit
    obtain ⟨u, hu, hfound⟩ := h.done ((Root.accepts_perm hperm).mpr (Root.accepts_cons.mp hall).2) (hcount ▸ hlimit)
    refine ⟨u, hu, hfound.trans ?_⟩
    rw [hmatches, matching_cons, List.append_assoc]
    exact ((hfs.flatMap_right _).append (matching_perm hperm)).append_left _
  · intro hall hlimit
    exact h.exceeded ((Root.accepts_perm hperm).mpr (Root.accepts_cons.mp hall).2) (hcount ▸ hlimit)
  · intro u hu
    obtain ⟨hall, hlimit⟩ := h.accepted u hu
    refine ⟨Root.accepts_cons.mpr ⟨?_, (Root.accepts_perm hperm).mp hall⟩, hcount ▸ hlimit⟩
    exact fun e he => haccepts e (hfs.mem_iff.mpr he)

theorem scanLoop_cons {q : Queued} {rest : List Queued} (hlive : ∀ n, ended n = false)
    (hpending : s.pending = q :: rest) :
    scanLoop r listing ended sel name (fuel + 1) s =
      match scanQueued r listing ended sel name { s with pending := rest } q with
      | .error e => some (.error e)
      | .ok s => scanLoop r listing ended sel name fuel s := by
  rw [scanLoop, hpending]
  exact if_neg (by simp [hlive])

/-- The traversal ends and visits every folder it can reach once. -/
theorem scanLoop_spec (hlive : ∀ n, ended n = false) (hsound : ∀ q ∈ s.pending, Sound r q)
    (hscanned : s.scanned ≤ sel.scanLimit) (hfuel : (s.pending.flatMap (reach r sel)).length ≤ fuel) :
    ∃ out, scanLoop r listing ended sel name fuel s = some out ∧
      Scanned r sel name s (s.pending.flatMap (reach r sel)) out := by
  obtain ⟨pending, scanned, found⟩ := s
  dsimp only at hsound hscanned hfuel ⊢
  induction fuel generalizing pending scanned found with
  | zero =>
    cases pending with
    | nil => exact ⟨_, rfl, scanned_nil hscanned⟩
    | cons q rest =>
      obtain ⟨st, es, hopen, -⟩ := hsound q List.mem_cons_self
      simp [reach, hopen, Node.folders] at hfuel
  | succ fuel ih =>
    cases pending with
    | nil => exact ⟨_, rfl, scanned_nil hscanned⟩
    | cons q rest =>
      rw [List.forall_mem_cons] at hsound
      obtain ⟨⟨st, es, hopen, hexpected⟩, hrest⟩ := hsound
      have hreach : (q :: rest).flatMap (reach r sel) =
          (q.path, es) :: ((if sel.recursive then foldersBelow sel.recursive q.path es else []) ++
            rest.flatMap (reach r sel)) := by
        simp [reach, hopen, Node.folders]
      rw [hreach, List.length_cons] at hfuel
      obtain ⟨fs, hperm, hscan⟩ := @scanQueued_eq r listing ended sel name st es q hopen hexpected
        ⟨rest, scanned, found⟩
      have hfs : ∀ e ∈ fs, e ∈ es := fun e he => hperm.mem_iff.mp he
      rw [scanLoop_cons hlive rfl, hscan, hreach]
      cases hentries : scanEntries r ended sel name q.path ⟨rest, scanned, found⟩ (fs.map Prod.fst) with
      | ok t =>
        obtain ⟨haccepts, hlimit⟩ := accepts_of_scanEntries hlive hopen hfs hscanned hentries
        rw [scanEntries_eq hlive hopen hfs haccepts hlimit, Except.ok.injEq] at hentries
        subst hentries
        have hpushed := @perm_reach r sel q.path st es hopen fs hperm haccepts
        have hnext := hpushed.append_right (rest.flatMap (reach r sel))
        rw [← List.flatMap_append] at hnext
        have hsound' : ∀ q' ∈ fs.reverse.flatMap (pushed sel q.path) ++ rest, Sound r q' := by
          intro q' hq'
          rcases List.mem_append.mp hq' with hq' | hq'
          · obtain ⟨e, he, hq'⟩ := List.mem_flatMap.mp hq'
            rw [List.mem_reverse] at he
            exact sound_pushed hopen (hfs e he) (haccepts e he) q' hq'
          · exact hrest q' hq'
        have hfuel' := hnext.length_eq ▸ Nat.le_of_succ_le_succ hfuel
        obtain ⟨out, hout, hspec⟩ := ih _ _ _ hsound' hlimit hfuel'
        exact ⟨out, hout, hspec.cons hnext hperm haccepts rfl rfl⟩
      | error e =>
        refine ⟨_, rfl, ?_, ?_, ?_⟩
        · intro hall hlimit
          have haccepts : ∀ e ∈ fs, r.accepts e = true := fun e he => (Root.accepts_cons.mp hall).1 e (hfs e he)
          have hfits : scanned + fs.length ≤ sel.scanLimit := by
            rw [entryCount_cons, ← hperm.length_eq, ← Nat.add_assoc] at hlimit
            exact Nat.le_of_add_right_le hlimit
          rw [scanEntries_eq hlive hopen hfs haccepts hfits] at hentries
          cases hentries
        · intro hall hlimit
          have haccepts : ∀ e ∈ fs, r.accepts e = true := fun e he => (Root.accepts_cons.mp hall).1 e (hfs e he)
          by_cases hfits : scanned + fs.length ≤ sel.scanLimit
          · rw [scanEntries_eq hlive hopen hfs haccepts hfits] at hentries
            cases hentries
          · rw [scanEntries_limit hlive hopen hfs haccepts hscanned (Nat.lt_of_not_le hfits)] at hentries
            rw [Except.error.injEq] at hentries
            rw [hentries]
        · intro t ht
          cases ht

end Scan

/-! ### Paths of the matches -/

section Paths
variable {r : Root} {sel : Selector} {name d : Name}

variable {n : Name} {child : Node} {g : Selection}

theorem validateBasename_of_accepts (h : r.accepts (some n, child) = true) : validateBasename n = true := by
  simp only [Root.accepts, Bool.and_eq_true] at h
  exact h.1

/-- Every folder below a path extends the path. -/
theorem parts_folders {recursive : Bool} {n : Node} (haccepts : r.Accepts (n.folders recursive d))
    {f : Name × List Entry} (hf : f ∈ n.folders recursive d) : parts d <+: parts f.1 := by
  induction n generalizing d with
  | file st regular | closed e => simp [Node.folders] at hf
  | folder st es ih =>
    rw [Node.folders] at hf haccepts
    rcases List.mem_cons.mp hf with rfl | hf
    · exact List.prefix_rfl
    · cases recursive with
      | false => simp at hf
      | true =>
        rw [Root.accepts_cons] at haccepts
        simp only [if_true, foldersBelow_eq] at hf haccepts
        obtain ⟨e, he, hf⟩ := List.mem_flatMap.mp hf
        have hbelow : r.Accepts (foldersOf true d e) := fun g hg => haccepts.2 g (List.mem_flatMap.mpr ⟨e, he, hg⟩)
        obtain ⟨_ | n, child⟩ := e
        · simp [foldersOf] at hf
        · have hn := validateBasename_of_accepts (haccepts.1 _ he)
          simp only [foldersOf] at hf hbelow
          split at hf
          · cases hf
          · rename_i hreserved
            rw [if_neg hreserved] at hbelow
            have hpath := ih _ he hbelow hf
            rw [parts_joinPath hn] at hpath
            exact (List.prefix_append _ _).trans hpath

theorem parts_matching {fs : List (Name × List Entry)} (haccepts : r.Accepts fs) (hg : g ∈ matching sel name fs) :
    ∃ f ∈ fs, parts f.1 <+: parts g.relativePath := by
  obtain ⟨f, hf, hg⟩ := List.mem_flatMap.mp hg
  obtain ⟨e, he, hg⟩ := List.mem_flatMap.mp hg
  refine ⟨f, hf, ?_⟩
  obtain ⟨_ | n, _ | ⟨st, regular⟩ | _⟩ := e <;> try cases hg
  have hn := validateBasename_of_accepts (haccepts f hf _ he)
  simp only [picked] at hg
  split at hg
  · rw [List.mem_singleton] at hg
    rw [hg, selectionOf, parts_joinPath hn]
    exact List.prefix_append _ _
  · cases hg

/-- The matches an entry leads to. -/
def found (sel : Selector) (name d : Name) (e : Entry) : List Selection :=
  picked sel name d e ++ matching sel name (if sel.recursive then foldersOf sel.recursive d e else [])

theorem matching_folder (st : Stamp) (es : List Entry) :
    (matching sel name ((Node.folder st es).folders sel.recursive d)).Perm (es.flatMap (found sel name d)) := by
  have hbelow : matching sel name (if sel.recursive then foldersBelow sel.recursive d es else []) =
      es.flatMap fun e => matching sel name (if sel.recursive then foldersOf sel.recursive d e else []) := by
    cases sel.recursive with
    | false => simp [matching]
    | true => simp only [if_true, matching, foldersBelow_eq, List.flatMap_assoc]
  rw [Node.folders, matching_cons, hbelow]
  exact List.flatMap_append_perm _ _ _

/-- The matches below an entry extend its path. -/
theorem parts_found {es : List Entry} {st : Stamp}
    (haccepts : r.Accepts ((Node.folder st es).folders sel.recursive d))
    (he : (some n, child) ∈ es) (hg : g ∈ found sel name d (some n, child)) :
    parts d ++ [n] <+: parts g.relativePath := by
  rw [Node.folders, Root.accepts_cons] at haccepts
  have hn := validateBasename_of_accepts (haccepts.1 _ he)
  rcases List.mem_append.mp hg with hg | hg
  · cases child with
    | folder st' es' => cases hg
    | closed e => cases hg
    | file st' regular =>
      simp only [picked] at hg
      split at hg
      · rw [List.mem_singleton] at hg
        rw [hg, selectionOf, parts_joinPath hn]
      · cases hg
  · cases hrec : sel.recursive with
    | false => simp [hrec, matching] at hg
    | true =>
      simp only [hrec, if_true, foldersBelow_eq] at hg haccepts
      have hbelow : r.Accepts (foldersOf true d (some n, child)) :=
        fun f hf => haccepts.2 f (List.mem_flatMap.mpr ⟨_, he, hf⟩)
      obtain ⟨f, hf, hpath⟩ := parts_matching hbelow hg
      simp only [foldersOf] at hf hbelow
      split at hf
      · cases hf
      · rename_i hreserved
        rw [if_neg hreserved] at hbelow
        rw [← parts_joinPath hn]
        exact (parts_folders hbelow hf).trans hpath

/-- No two matches have the same path. -/
theorem nodup_matching {n : Node} (hdistinct : n.Distinct) (haccepts : r.Accepts (n.folders sel.recursive d)) :
    ((matching sel name (n.folders sel.recursive d)).map Selection.relativePath).Nodup := by
  induction hdistinct generalizing d with
  | file | closed => simp [Node.folders, matching]
  | @folder st es names below ih =>
    have hall := haccepts
    rw [Node.folders, Root.accepts_cons] at hall
    rw [((matching_folder st es).map _).nodup_iff, List.map_flatMap, List.nodup_flatMap]
    constructor
    · intro e he
      obtain ⟨_ | n, child⟩ := e
      · simp [found, picked, foldersOf, matching]
      · cases child with
        | closed e => cases sel.recursive <;> simp [found, picked, foldersOf, matching, Node.folders]
        | file st' regular =>
          simp only [found, picked, foldersOf, matching, Node.folders]
          split <;> simp
        | folder st' es' =>
          cases hrec : sel.recursive with
          | false => simp [found, picked, hrec, matching]
          | true =>
            simp only [found, picked, hrec, if_true, foldersOf]
            split
            · simp [matching]
            · rename_i hreserved
              have hchild : r.Accepts ((Node.folder st' es').folders sel.recursive (joinPath d n)) := by
                intro f hf
                rw [hrec] at hf
                apply hall.2 f
                simp only [hrec, if_true, foldersBelow_eq]
                refine List.mem_flatMap.mpr ⟨_, he, ?_⟩
                simpa [foldersOf, hreserved] using hf
              have hnodup := ih _ he hchild
              rw [hrec] at hnodup
              simpa using hnodup
    · -- Two entries of a folder have different names, and every path below an entry goes through its name.
      have hnames : es.Pairwise fun a b => ∀ m ∈ a.1, ∀ n ∈ b.1, m ≠ n := List.pairwise_filterMap.mp names
      refine hnames.imp_of_mem ?_
      intro a b ha hb hne
      rw [Function.onFun, List.disjoint_left]
      intro path hpa hpb
      obtain ⟨ga, hga, rfl⟩ := List.mem_map.mp hpa
      obtain ⟨gb, hgb, hpath⟩ := List.mem_map.mp hpb
      obtain ⟨_ | m, na⟩ := a
      · exact absurd (hall.1 _ ha) (by simp [Root.accepts])
      obtain ⟨_ | n, nb⟩ := b
      · exact absurd (hall.1 _ hb) (by simp [Root.accepts])
      have hma := parts_found haccepts ha hga
      have hnb := parts_found haccepts hb hgb
      rw [hpath] at hnb
      have heq := List.prefix_of_prefix_length_le hma hnb (by simp)
      exact hne m rfl n rfl (by simpa using List.IsPrefix.eq_of_length heq (by simp))

end Paths

/-! ### The result -/

theorem strictWeak_selectionLess (sel : Selector) : StrictWeak (selectionLess sel) := by
  unfold selectionLess
  cases sel.by' with
  | name | size | modifiedAt => exact strictWeak_rankLess _ _ _

variable {sel : Selector} {r : Root} {name : Name} {l : List Selection}

/-- Only matches of the same path would tie. -/
theorem path_eq_of_not_less {a b : Selection} (hab : selectionLess sel a b = false)
    (hba : selectionLess sel b a = false) : a.relativePath = b.relativePath := by
  unfold selectionLess at hab hba
  cases hby : sel.by' with
  | name | size | modifiedAt =>
    rw [hby] at hab hba
    exact tie_eq_of_not_less hab hba

/-- The folders a selection can reach. -/
def reachable (r : Root) (sel : Selector) : List (Name × List Entry) := reach r sel ⟨sel.directory, none⟩

/-- A request the traversal does not refuse: its name is valid, the directory of the selector is a directory, and no
entry that can be reached makes it fail. -/
structure Admitted (r : Root) (sel : Selector) (params : Contract.Value) (name : Name) : Prop where
  settled : selectName sel params = .ok name
  valid : sel.expression = none → validateBasename name = true ∧ r.platformName name = true
  start : ∃ st es, r.open sel.directory = .ok (.folder st es)
  accepts : r.Accepts (reachable r sel)

/-- `ranked` lists the matches in the order of the selector. -/
structure Ranked (r : Root) (sel : Selector) (name : Name) (ranked : List Selection) : Prop where
  sorted : ranked.Pairwise fun a b => selectionLess sel a b = true
  mem : ∀ g, g ∈ ranked ↔ g ∈ matching sel name (reachable r sel)

theorem Ranked.unique {m : List Selection} (hl : Ranked r sel name l) (hm : Ranked r sel name m) : l = m :=
  eq_of_pairwise_less (strictWeak_selectionLess sel) hl.sorted hm.sorted fun g => (hl.mem g).trans (hm.mem g).symm

theorem ranked_sort {params : Contract.Value} (h : Admitted r sel params name) (sorting : Sorting Selection)
    (hl : l.Perm (matching sel name (reachable r sel))) :
    Ranked r sel name (sorting.sort (selectionLess sel) l) := by
  obtain ⟨st, es, hopen⟩ := h.start
  have hreach : reachable r sel = (Node.folder st es).folders sel.recursive sel.directory := by
    simp [reachable, reach, hopen]
  have hdistinct : (Node.folder st es).Distinct := distinct_walk r.distinct (open_eq_folder hopen).2
  have hperm := (sorting.perm (selectionLess sel) l).trans hl
  have hnodup : ((sorting.sort (selectionLess sel) l).map Selection.relativePath).Nodup := by
    rw [(hperm.map _).nodup_iff, hreach]
    exact nodup_matching hdistinct (hreach ▸ h.accepts)
  exact ⟨pairwise_less_of_sorted (fun _ _ => path_eq_of_not_less) hnodup
    (sorting.sorted _ _ (strictWeak_selectionLess sel)), fun g => hperm.mem_iff⟩

section Result
variable {r : Root} {listing : Listing} {sorting : Sorting Selection} {ended : ℕ → Bool} {sel : Selector}
  {params : Contract.Value} {name : Name} {fuel : ℕ}

/-- What `selectFiles` returns once the traversal has ended. -/
def finish (sorting : Sorting Selection) (sel : Selector) :
    Except SelectError Scan → Except SelectError (List Selection)
  | .error e => .error e
  | .ok s =>
    if s.matches' = [] then .error .notFound
    else .ok ((sorting.sort (selectionLess sel) s.matches').take sel.take)

theorem selectFiles_eq (hname : selectName sel params = .ok name)
    (hvalid : sel.expression = none → validateBasename name = true ∧ r.platformName name = true) :
    selectFiles r listing sorting ended fuel sel params =
      (scanLoop r listing ended sel name fuel { pending := [⟨sel.directory, none⟩] }).map (finish sorting sel) := by
  have hcond : ¬(sel.expression.isNone && !(validateBasename name && r.platformName name)) = true := by
    intro h
    simp only [Bool.and_eq_true, Option.isNone_iff_eq_none, Bool.not_eq_true', Bool.and_eq_false_iff] at h
    have hok := hvalid h.1
    simp [hok] at h
  rw [selectFiles, hname]
  simp only [if_neg hcond]
  rcases scanLoop r listing ended sel name fuel { pending := [⟨sel.directory, none⟩] } with _ | e | s
  · rfl
  · rfl
  · simp only [Option.map_some, finish]
    split <;> rfl

theorem finish_eq (h : Admitted r sel params name) {out : Except SelectError Scan}
    (hscanned : Scanned r sel name { pending := [⟨sel.directory, none⟩] } (reachable r sel) out) :
    (sel.scanLimit < entryCount (reachable r sel) → finish sorting sel out = .error .limitExceeded) ∧
      (entryCount (reachable r sel) ≤ sel.scanLimit → matching sel name (reachable r sel) = [] →
        finish sorting sel out = .error .notFound) ∧
      (entryCount (reachable r sel) ≤ sel.scanLimit → matching sel name (reachable r sel) ≠ [] →
        ∀ ranked, Ranked r sel name ranked → finish sorting sel out = .ok (ranked.take sel.take)) := by
  refine ⟨?_, ?_, ?_⟩
  · intro hlimit
    rw [hscanned.exceeded h.accepts (by simpa using hlimit)]
    rfl
  · intro hlimit hnone
    obtain ⟨t, rfl, hperm⟩ := hscanned.done h.accepts (by simpa using hlimit)
    rw [hnone] at hperm
    rw [finish, if_pos hperm.eq_nil]
  · intro hlimit hsome ranked hranked
    obtain ⟨t, rfl, hperm⟩ := hscanned.done h.accepts (by simpa using hlimit)
    rw [List.nil_append] at hperm
    have hne : t.matches' ≠ [] := by
      intro hnil
      rw [hnil] at hperm
      exact hsome hperm.symm.eq_nil
    rw [finish, if_neg hne, (ranked_sort h sorting hperm).unique hranked]

/-- A directory that is none, or a file in its place, ends the traversal at once. -/
theorem scanLoop_of_not_folder (hfuel : 0 < fuel) (hlive : ∀ n, ended n = false)
    (hopen : ∀ st es, r.open sel.directory ≠ .ok (.folder st es)) :
    ∃ e, scanLoop r listing ended sel name fuel { pending := [⟨sel.directory, none⟩] } = some (.error e) := by
  obtain ⟨fuel, rfl⟩ := Nat.exists_eq_succ_of_ne_zero hfuel.ne'
  rw [scanLoop_cons hlive rfl, scanQueued]
  cases h : r.open sel.directory with
  | error e => exact ⟨_, rfl⟩
  | ok o =>
    cases o with
    | file st => exact ⟨_, rfl⟩
    | folder st es => exact absurd h (hopen st es)

theorem scanLoop_start (hlive : ∀ n, ended n = false) {st : Stamp} {es : List Entry}
    (hopen : r.open sel.directory = .ok (.folder st es)) (hfuel : (reachable r sel).length ≤ fuel) :
    ∃ out, scanLoop r listing ended sel name fuel { pending := [⟨sel.directory, none⟩] } = some out ∧
      Scanned r sel name { pending := [⟨sel.directory, none⟩] } (reachable r sel) out := by
  have hreach : [(⟨sel.directory, none⟩ : Queued)].flatMap (reach r sel) = reachable r sel := by simp [reachable]
  rw [← hreach] at hfuel ⊢
  apply scanLoop_spec hlive ?_ (Nat.zero_le _) hfuel
  intro q hq
  rw [List.mem_singleton] at hq
  subst hq
  exact ⟨st, es, hopen, by simp⟩

/-- A selection is refused before its traversal, or it is what the traversal found. -/
theorem selectFiles_cases (hlive : ∀ n, ended n = false) (hfuel : (reachable r sel).length < fuel) :
    (∃ e, selectFiles r listing sorting ended fuel sel params = some (.error e)) ∨
      ∃ name out, selectName sel params = .ok name ∧
        (sel.expression = none → validateBasename name = true ∧ r.platformName name = true) ∧
        (∃ st es, r.open sel.directory = .ok (.folder st es)) ∧
        selectFiles r listing sorting ended fuel sel params = some (finish sorting sel out) ∧
        Scanned r sel name { pending := [⟨sel.directory, none⟩] } (reachable r sel) out := by
  cases hname : selectName sel params with
  | error e =>
    left
    exact ⟨e, by rw [selectFiles, hname]⟩
  | ok name =>
    by_cases hvalid : sel.expression = none → validateBasename name = true ∧ r.platformName name = true
    · by_cases hopen : ∃ st es, r.open sel.directory = .ok (.folder st es)
      · obtain ⟨st, es, hopen⟩ := hopen
        obtain ⟨out, hout, hscanned⟩ :=
          @scanLoop_start r listing ended sel name fuel hlive st es hopen (Nat.le_of_lt hfuel)
        refine .inr ⟨name, out, rfl, hvalid, ⟨st, es, hopen⟩, ?_, hscanned⟩
        rw [selectFiles_eq hname hvalid, hout, Option.map_some]
      · left
        obtain ⟨e, he⟩ := @scanLoop_of_not_folder r listing ended sel name fuel (Nat.zero_lt_of_lt hfuel) hlive
          fun st es h => hopen ⟨st, es, h⟩
        exact ⟨e, by rw [selectFiles_eq hname hvalid, he]; rfl⟩
    · left
      refine ⟨.validationFailed, ?_⟩
      rw [Classical.not_imp] at hvalid
      have hcond : (sel.expression.isNone && !(validateBasename name && r.platformName name)) = true := by
        rw [hvalid.1, Option.isNone_none, Bool.true_and, Bool.not_eq_true', ← Bool.not_eq_true, Bool.and_eq_true]
        exact hvalid.2
      rw [selectFiles, hname]
      simp only [hcond, if_true]

end Result

/-- A selection always ends. Where the name is valid, the start is a directory and no reachable entry makes the
traversal fail, its outcome does not depend on the order in which directories list their entries or on the sorting
algorithm: it is `LIMIT_EXCEEDED` exactly when more than `scanLimit` entries can be reached, `NOT_FOUND` exactly when
within the limit nothing matches, and otherwise the first `take` of the ranked matches. In all other cases it is an
error. -/
theorem selectFiles_ranked (r : Root) (ended : ℕ → Bool) (hlive : ∀ n, ended n = false) (sel : Selector)
    (params : Contract.Value) :
    ∃ enough, (∀ listing sorting fuel, enough ≤ fuel →
        ∃ out, selectFiles r listing sorting ended fuel sel params = some out) ∧
      (∀ name, Admitted r sel params name → ∃ out,
        (∀ listing sorting fuel, enough ≤ fuel → selectFiles r listing sorting ended fuel sel params = some out) ∧
        (out = .error .limitExceeded ↔ sel.scanLimit < entryCount (reachable r sel)) ∧
        (out = .error .notFound ↔
          entryCount (reachable r sel) ≤ sel.scanLimit ∧ matching sel name (reachable r sel) = []) ∧
        (entryCount (reachable r sel) ≤ sel.scanLimit → matching sel name (reachable r sel) ≠ [] →
          ∃ ranked, Ranked r sel name ranked ∧ out = .ok (ranked.take sel.take))) ∧
      ∀ listing sorting fuel files, enough ≤ fuel →
        selectFiles r listing sorting ended fuel sel params = some (.ok files) →
          ∃ name, Admitted r sel params name ∧ entryCount (reachable r sel) ≤ sel.scanLimit ∧
            matching sel name (reachable r sel) ≠ [] := by
  -- One more turn than there are folders: the first may find that the start is not a directory.
  refine ⟨(reachable r sel).length + 1, ?_, ?_, ?_⟩
  · intro listing sorting fuel hfuel
    rcases @selectFiles_cases r listing sorting ended sel params fuel hlive hfuel with
      ⟨e, he⟩ | ⟨name, out, -, -, -, hout, -⟩
    · exact ⟨_, he⟩
    · exact ⟨_, hout⟩
  · intro name h
    obtain ⟨st, es, hopen⟩ := h.start
    have hloop : ∀ listing sorting fuel, (reachable r sel).length + 1 ≤ fuel →
        ∃ out, selectFiles r listing sorting ended fuel sel params = some (finish sorting sel out) ∧
          Scanned r sel name { pending := [⟨sel.directory, none⟩] } (reachable r sel) out := by
      intro listing sorting fuel hfuel
      obtain ⟨out, hout, hscanned⟩ :=
        @scanLoop_start r listing ended sel name fuel hlive st es hopen (Nat.le_of_succ_le hfuel)
      exact ⟨out, by rw [selectFiles_eq h.settled h.valid, hout, Option.map_some], hscanned⟩
    by_cases hlimit : sel.scanLimit < entryCount (reachable r sel)
    · refine ⟨.error .limitExceeded, ?_, by simpa using hlimit, ?_, ?_⟩
      · intro listing sorting fuel hfuel
        obtain ⟨out, hout, hscanned⟩ := hloop listing sorting fuel hfuel
        rw [hout, (finish_eq h hscanned).1 hlimit]
      · simp [hlimit]
      · intro hle
        exact absurd hlimit (Nat.not_lt.mpr hle)
    · have hle := Nat.le_of_not_lt hlimit
      by_cases hnone : matching sel name (reachable r sel) = []
      · refine ⟨.error .notFound, ?_, by simp [hle], by simp [hle, hnone], ?_⟩
        · intro listing sorting fuel hfuel
          obtain ⟨out, hout, hscanned⟩ := hloop listing sorting fuel hfuel
          rw [hout, (finish_eq h hscanned).2.1 hle hnone]
        · intro _ hsome
          exact absurd hnone hsome
      · have hranked := ranked_sort h (Sorting.insertion _) (List.Perm.refl _)
        refine ⟨.ok (List.take sel.take _), ?_, by simp [hle], by simp [hnone], fun _ _ => ⟨_, hranked, rfl⟩⟩
        intro listing sorting fuel hfuel
        obtain ⟨out, hout, hscanned⟩ := hloop listing sorting fuel hfuel
        rw [hout, (finish_eq h hscanned).2.2 hle hnone _ hranked]
  · intro listing sorting fuel files hfuel hfiles
    rcases @selectFiles_cases r listing sorting ended sel params fuel hlive hfuel with
      ⟨e, he⟩ | ⟨name, out, hname, hvalid, hstart, hout, hscanned⟩
    · rw [he] at hfiles
      cases hfiles
    · rw [hout, Option.some.injEq] at hfiles
      cases out with
      | error e => cases hfiles
      | ok t =>
        obtain ⟨haccepts, hlimit⟩ := hscanned.accepted t rfl
        have h : Admitted r sel params name := ⟨hname, hvalid, hstart, haccepts⟩
        rw [Nat.zero_add] at hlimit
        refine ⟨name, h, hlimit, ?_⟩
        intro hnone
        rw [(finish_eq h hscanned).2.1 hlimit hnone] at hfiles
        cases hfiles

/-- Directories that list their entries as they are kept, or the other way round. -/
def Listing.kept : Listing := ⟨fun _ ns => ns, fun _ _ => .refl _⟩
def Listing.reversed : Listing := ⟨fun _ ns => ns.reverse, fun _ ns => ns.reverse_perm⟩

/-- A root with two files and a folder that holds a third. -/
def smallRoot : Root where
  stamp := { identity := { inode := 1 } }
  entries := [(some ['b'], .file { identity := { inode := 2 }, size := 7 } true),
    (some ['s'], .folder { identity := { inode := 3 } }
      [(some ['c'], .file { identity := { inode := 4 }, size := 5 } true)]),
    (some ['a'], .file { identity := { inode := 5 }, size := 7 } true)]
  platformName _ := true
  distinct := by
    refine .folder (by decide) ?_
    simp only [List.forall_mem_cons, List.not_mem_nil, false_imp_iff, implies_true, and_true]
    refine ⟨.file, .folder (by decide) ?_, .file⟩
    simp only [List.forall_mem_cons, List.not_mem_nil, false_imp_iff, implies_true, and_true]
    exact .file

/-- The two largest files of any name. -/
def largest : Selector where
  directory := ['.']
  expression := some fun _ => true
  recursive := true
  by' := .size
  desc := true
  take := 2
  scanLimit := 4

def smallMatches : List Selection :=
  [selectionOf ['.'] ['a'] { identity := { inode := 5 }, size := 7 },
    selectionOf ['.'] ['b'] { identity := { inode := 2 }, size := 7 },
    selectionOf ['s'] ['c'] { identity := { inode := 4 }, size := 5 }]

theorem selectFiles_ranked_small :
    ∃ enough, ∀ listing sorting fuel, enough ≤ fuel →
      selectFiles smallRoot listing sorting (fun _ => false) fuel largest .null =
        some (.ok (smallMatches.take 2)) := by
  obtain ⟨enough, -, hadmitted, -⟩ := selectFiles_ranked smallRoot (fun _ => false) (fun _ => rfl) largest .null
  have h : Admitted smallRoot largest .null [] := by
    refine ⟨rfl, nofun, ⟨smallRoot.stamp, smallRoot.entries, by rfl⟩, ?_⟩
    unfold Root.Accepts
    decide +kernel
  obtain ⟨out, hout, -, -, hranked⟩ := hadmitted [] h
  obtain ⟨ranked, hr, rfl⟩ := hranked (by decide +kernel) (by decide +kernel)
  have hperm : smallMatches.Perm (matching largest [] (reachable smallRoot largest)) := by decide +kernel
  have hsmall : Ranked smallRoot largest [] smallMatches := ⟨by decide +kernel, fun g => hperm.mem_iff⟩
  rw [hr.unique hsmall] at hout
  exact ⟨enough, hout⟩

/-- A root with a file and a symbolic link. -/
def linkRoot : Root where
  stamp := { identity := { inode := 1 } }
  entries := [(some ['l'], .closed .permission), (some ['a'], .file { identity := { inode := 2 } } true)]
  platformName _ := true
  distinct := by
    refine .folder (by decide) ?_
    simp only [List.forall_mem_cons, List.not_mem_nil, false_imp_iff, implies_true, and_true]
    exact ⟨.closed, .file⟩

def namedA (scanLimit : ℕ) : Selector where
  directory := ['.']
  name := ['a']
  take := 1
  scanLimit := scanLimit

/-- With two entries and a limit of five, the link is refused, although the limit is kept and a file matches. With a
limit of one, the error depends on which of the two entries is listed first. -/
theorem selectFiles_link :
    (entryCount (reachable linkRoot (namedA 5)) = 2 ∧
      matching (namedA 5) ['a'] (reachable linkRoot (namedA 5)) ≠ [] ∧
      selectFiles linkRoot .kept (.insertion _) (fun _ => false) 2 (namedA 5) .null =
        some (.error .permissionDenied)) ∧
    selectFiles linkRoot .kept (.insertion _) (fun _ => false) 2 (namedA 1) .null = some (.error .permissionDenied) ∧
    selectFiles linkRoot .reversed (.insertion _) (fun _ => false) 2 (namedA 1) .null =
      some (.error .limitExceeded) := by
  decide +kernel

end Onprest.Filesystem
