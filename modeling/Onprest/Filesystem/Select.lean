import Onprest.Contract.Binding
import Onprest.Filesystem.Write
import Onprest.Lib.Ranking

/-! Selecting files below a folder source: the traversal of a directory tree that does not change meanwhile, and the
files it returns. A directory may list its entries in any order. -/

namespace Onprest.Filesystem
open Lib

/-! ### The tree -/

/-- The categories of the errors of a selection; `context` is the error of an ended context. -/
inductive SelectError
  | validationFailed | permissionDenied | notFound | executionFailed | sourceChanged | limitExceeded | context
  deriving DecidableEq, Repr

/-- What `errors.Is` tells apart of the error of a system call, after `nativeError`. -/
inductive OsError
  | notExist | permission | other
  deriving DecidableEq, Repr

def osFailure : OsError → SelectError
  | .notExist => .notFound
  | .permission => .permissionDenied
  | .other => .executionFailed

/-- `stamp`; times are nanoseconds. -/
structure Stamp where
  identity : Identity
  links : ℕ := 1
  changed : ℤ := 0
  size : ℤ := 0
  mode : ℕ := 0
  modified : ℤ := 0
  deriving DecidableEq, Repr

/-- An entry of the file system; `closed` cannot be opened, as a symbolic link cannot. A name that is not valid UTF-8
is `none`. -/
inductive Node
  | folder (stamp : Stamp) (entries : List (Option Name × Node))
  | file (stamp : Stamp) (regular : Bool)
  | closed (e : OsError)

abbrev Entry := Option Name × Node

@[elab_as_elim, induction_eliminator]
theorem Node.induct {motive : Node → Prop} (folder : ∀ st es, (∀ e ∈ es, motive e.2) → motive (.folder st es))
    (file : ∀ st regular, motive (.file st regular)) (closed : ∀ e, motive (.closed e)) (n : Node) : motive n := by
  refine @Node.rec motive (fun es => ∀ e ∈ es, motive e.2) (fun e => motive e.2) folder file closed ?_ ?_ ?_ n
  · intro e he
    cases he
  · intro e es he hes f hf
    rcases List.mem_cons.mp hf with rfl | hf
    · exact he
    · exact hes f hf
  · intro _ n hn
    exact hn

/-- No folder has two entries of one name. -/
inductive Node.Distinct : Node → Prop
  | folder {st : Stamp} {es : List Entry} (names : (es.filterMap Prod.fst).Nodup) (below : ∀ e ∈ es, e.2.Distinct) :
      Distinct (.folder st es)
  | file {st : Stamp} {regular : Bool} : Distinct (.file st regular)
  | closed {e : OsError} : Distinct (.closed e)

/-- A pinned root directory and what the platform says of names. -/
structure Root where
  stamp : Stamp
  entries : List Entry
  platformName : Name → Bool
  distinct : (Node.folder stamp entries).Distinct

def Root.node (r : Root) : Node := .folder r.stamp r.entries

/-- The entry at a path of names. What is not a directory has nothing below it. -/
def Node.walk : List Name → Node → Except OsError Node
  | [], n => .ok n
  | _ :: _, .file _ _ => .error .permission
  | _ :: _, .closed e => .error e
  | c :: cs, .folder _ es =>
    match es.lookup (some c) with
    | some n => n.walk cs
    | none => .error .notExist

/-! ### Paths -/

def reserved (s : Name) : Bool := tempStart.isPrefixOf s

/-- `relative`, with valid UTF-8. -/
def relative (r : Root) (s : Name) : Bool :=
  s ≠ [] && !s.contains '\x00' && !s.contains '\\' && s.head? ≠ some '/' &&
    (s.splitOn '/').all fun part => part ≠ ['.', '.'] && r.platformName part

def allowedRelative (r : Root) (s : Name) : Bool :=
  relative r s && (s.splitOn '/').all fun part => !reserved part

/-- The names of a path. -/
def parts (s : Name) : List Name := (s.splitOn '/').filter fun part => part ≠ [] && part ≠ ['.']

/-- `path.Clean` of a relative path without `..`. -/
def clean (s : Name) : Name := if parts s = [] then ['.'] else ['/'].intercalate (parts s)

/-- `path.Join` of a directory and a name. -/
def joinPath (directory base : Name) : Name := clean (directory ++ '/' :: base)

/-- What an opened handle is. -/
inductive Opened
  | folder (stamp : Stamp) (entries : List Entry)
  | file (stamp : Stamp)

def Opened.stamp : Opened → Stamp
  | .folder st _ => st
  | .file st => st

def sameFilesystem (a b : Identity) : Bool := a.device = b.device && a.extra = b.extra && a.mount = b.mount

/-- The end of `Root.open`: links, special files, files with several names and other file systems are refused. -/
def Root.inspect (r : Root) : Node → Except SelectError Opened
  | .closed e => .error (osFailure e)
  | .folder st es =>
    if sameFilesystem r.stamp.identity st.identity then .ok (.folder st es) else .error .permissionDenied
  | .file st regular =>
    if sameFilesystem r.stamp.identity st.identity && regular && st.links = 1 then .ok (.file st)
    else .error .permissionDenied

/-- `Root.open`. -/
def Root.open (r : Root) (path : Name) : Except SelectError Opened :=
  if !allowedRelative r path then .error .permissionDenied
  else
    match r.node.walk (parts path) with
    | .error e => .error (osFailure e)
    | .ok n => r.inspect n

/-! ### The selection -/

inductive SortBy
  | name | modifiedAt | size
  deriving DecidableEq, Repr

/-- `Selector`; `expression` decides which names match, and the pointer is empty where the name is fixed. -/
structure Selector where
  directory : Name
  name : Name := []
  pointer : String := ""
  expression : Option (Name → Bool) := none
  recursive : Bool := false
  by' : SortBy := .name
  desc : Bool := false
  take : ℕ
  scanLimit : ℕ

/-- `Selection` without its root. -/
structure Selection where
  relativePath : Name
  name : Name
  sizeBytes : ℤ
  modifiedAt : ℤ
  original : Stamp
  deriving DecidableEq, Repr

structure Queued where
  path : Name
  expected : Option Stamp

/-- The variables of the loop; the top of the stack is first. -/
structure Scan where
  pending : List Queued
  scanned : ℕ := 0
  matches' : List Selection := []

/-- The order in which each directory lists its names. -/
structure Listing where
  order : Name → List (Option Name) → List (Option Name)
  perm : ∀ d ns, (order d ns).Perm ns

section Select
variable (r : Root) (listing : Listing) (ended : ℕ → Bool) (sel : Selector) (name : Name)

def Selector.picks (base : Name) : Bool :=
  match sel.expression with
  | some e => e base
  | none => base = name

def selectionOf (directory base : Name) (st : Stamp) : Selection :=
  ⟨joinPath directory base, base, st.size, st.modified, st⟩

/-- The body of the loop over the names of a directory. -/
def scanEntry (directory : Name) (s : Scan) (base : Option Name) : Except SelectError Scan :=
  if s.scanned = sel.scanLimit then .error .limitExceeded
  else
    let s := { s with scanned := s.scanned + 1 }
    match base with
    | none => .error .permissionDenied
    | some base =>
      if !validateBasename base then .error .permissionDenied
      else if reserved base then .ok s
      else
        match r.open (joinPath directory base) with
        | .error e => .error (if e = .notFound then .sourceChanged else e)
        | .ok (.folder st _) =>
          if sel.recursive then .ok { s with pending := ⟨joinPath directory base, some st⟩ :: s.pending } else .ok s
        | .ok (.file st) =>
          if sel.picks name base then .ok { s with matches' := s.matches' ++ [selectionOf directory base st] }
          else .ok s

/-- The loop over the names of a directory; the context is asked before each one and before the end. -/
def scanEntries (directory : Name) (s : Scan) : List (Option Name) → Except SelectError Scan
  | [] => if ended s.scanned then .error .context else .ok s
  | base :: bases =>
    if ended s.scanned then .error .context
    else
      match scanEntry r sel name directory s base with
      | .error e => .error e
      | .ok s => scanEntries directory s bases

/-- What the loop does with the directory it took from the stack. -/
def scanQueued (s : Scan) (q : Queued) : Except SelectError Scan :=
  match r.open q.path with
  | .error e => .error (if q.expected.isSome then .sourceChanged else e)
  | .ok before =>
    if q.expected.any (· ≠ before.stamp) then .error .sourceChanged
    else
      match before with
      | .file _ => .error .permissionDenied
      | .folder st es =>
        match scanEntries r ended sel name q.path s (listing.order q.path (es.map Prod.fst)) with
        | .error e => .error e
        | .ok s =>
          match r.open q.path with
          | .error _ => .error .sourceChanged
          | .ok current => if current.stamp ≠ st then .error .sourceChanged else .ok s

/-- The loop over the stack; `none` means that `fuel` turns were not enough. -/
def scanLoop : ℕ → Scan → Option (Except SelectError Scan)
  | fuel, s =>
    match s.pending with
    | [] => some (.ok s)
    | q :: rest =>
      match fuel with
      | 0 => none
      | fuel + 1 =>
        if ended s.scanned then some (.error .context)
        else
          match scanQueued r listing ended sel name { s with pending := rest } q with
          | .error e => some (.error e)
          | .ok s => scanLoop fuel s

end Select

/-- The comparison `selectFiles` sorts with. -/
def selectionLess (sel : Selector) : Selection → Selection → Bool :=
  match sel.by' with
  | .name => rankLess Selection.name Selection.relativePath sel.desc
  | .size => rankLess Selection.sizeBytes Selection.relativePath sel.desc
  | .modifiedAt => rankLess Selection.modifiedAt Selection.relativePath sel.desc

/-- The name a request selects by. -/
def selectName (sel : Selector) (params : Contract.Value) : Except SelectError Name :=
  if sel.pointer = "" then .ok sel.name
  else
    match Contract.pointerValue params sel.pointer with
    | some (.str s) => .ok s.toList
    | _ => .error .validationFailed

/-- `selectFiles`. -/
def selectFiles (r : Root) (listing : Listing) (sorting : Sorting Selection) (ended : ℕ → Bool) (fuel : ℕ)
    (sel : Selector) (params : Contract.Value) : Option (Except SelectError (List Selection)) :=
  match selectName sel params with
  | .error e => some (.error e)
  | .ok name =>
    if sel.expression.isNone && !(validateBasename name && r.platformName name) then some (.error .validationFailed)
    else
      match scanLoop r listing ended sel name fuel { pending := [⟨sel.directory, none⟩] } with
      | none => none
      | some (.error e) => some (.error e)
      | some (.ok s) =>
        if s.matches' = [] then some (.error .notFound)
        else some (.ok ((sorting.sort (selectionLess sel) s.matches').take sel.take))

/-! ### Paths below a directory -/

variable {n d s part : Name} {c : Char} {ps : List Name} {r : Root} {es : List Entry} {child node : Node}
  {st : Stamp}

theorem validateBasename_spec (h : validateBasename n = true) :
    n ≠ [] ∧ n ≠ ['.'] ∧ n ≠ ['.', '.'] ∧ '/' ∉ n ∧ '\\' ∉ n ∧ '\x00' ∉ n := by
  simp only [validateBasename, Bool.and_eq_true, decide_eq_true_eq, Bool.not_eq_true', List.contains_eq_mem,
    decide_eq_false_iff_not] at h
  obtain ⟨⟨⟨⟨⟨⟨hlen, -⟩, hdot⟩, hdots⟩, hslash⟩, hback⟩, hcontrol⟩ := h
  refine ⟨?_, hdot, hdots, hslash, hback, ?_⟩
  · rintro rfl
    simp [byteLength] at hlen
  · intro hnul
    have hany : n.any isControl = true := List.any_eq_true.mpr ⟨_, hnul, by decide⟩
    rw [hcontrol] at hany
    cases hany

theorem splitOn_of_not_mem (h : '/' ∉ n) : n.splitOn '/' = [n] := by
  have hsplit := @List.splitOn_intercalate _ [n] _ _ '/' (by simpa using h) (by simp)
  simpa [List.intercalate] using hsplit

theorem parts_append (h : validateBasename n = true) : parts (d ++ '/' :: n) = parts d ++ [n] := by
  obtain ⟨hne, hdot, -, hslash, -, -⟩ := validateBasename_spec h
  have hsplit : (d ++ '/' :: n).splitOn '/' = d.splitOn '/' ++ n.splitOn '/' :=
    List.splitOnP_append_cons d n (by simp)
  rw [parts, hsplit, splitOn_of_not_mem hslash, List.filter_append, parts]
  simp [hne, hdot]

theorem mem_parts (h : part ∈ parts s) : part ∈ s.splitOn '/' ∧ part ≠ [] ∧ part ≠ ['.'] ∧ '/' ∉ part := by
  obtain ⟨hmem, hcond⟩ := List.mem_filter.mp h
  simp only [Bool.and_eq_true, decide_eq_true_eq] at hcond
  exact ⟨hmem, hcond.1, hcond.2, Contract.slash_not_mem_splitOn s part hmem⟩

theorem splitOn_clean (h : parts s ≠ []) : (clean s).splitOn '/' = parts s := by
  rw [clean, if_neg h]
  exact List.splitOn_intercalate '/' (fun part hpart => (mem_parts hpart).2.2.2) h

theorem splitOn_joinPath (h : validateBasename n = true) : (joinPath d n).splitOn '/' = parts d ++ [n] := by
  rw [joinPath, splitOn_clean, parts_append h]
  rw [parts_append h]
  simp

theorem parts_joinPath (h : validateBasename n = true) : parts (joinPath d n) = parts d ++ [n] := by
  rw [parts, splitOn_joinPath h, List.filter_eq_self, ← parts_append h]
  intro part hpart
  obtain ⟨-, hne, hdot, -⟩ := mem_parts hpart
  simp [hne, hdot]

theorem mem_intercalate : c ∈ ['/'].intercalate ps → c = '/' ∨ ∃ p ∈ ps, c ∈ p := by
  induction ps with
  | nil => simp [List.intercalate]
  | cons p ps ih =>
    intro h
    cases ps with
    | nil => exact .inr ⟨p, List.mem_cons_self, by simpa [List.intercalate] using h⟩
    | cons q ps =>
      rw [List.intercalate_cons_cons, List.mem_append, List.mem_append] at h
      rcases h with (h | h) | h
      · exact .inr ⟨p, List.mem_cons_self, h⟩
      · exact .inl (by simpa using h)
      · rcases ih h with h | ⟨q', hq', h⟩
        · exact .inl h
        · exact .inr ⟨q', List.mem_cons_of_mem _ hq', h⟩

theorem mem_of_mem_part (hpart : part ∈ s.splitOn '/') (hc : c ∈ part) : c ∈ s := by
  have hjoin : ∀ ps : List Name, part ∈ ps → c ∈ ['/'].intercalate ps := by
    intro ps hps
    induction ps with
    | nil => cases hps
    | cons p ps ih =>
      cases ps with
      | nil =>
        rw [List.mem_singleton] at hps
        subst hps
        simpa [List.intercalate] using hc
      | cons q ps =>
        rw [List.intercalate_cons_cons, List.mem_append, List.mem_append]
        rcases List.mem_cons.mp hps with rfl | hps
        · exact .inl (.inl hc)
        · exact .inr (ih hps)
  have h := hjoin _ hpart
  rwa [List.intercalate_splitOn] at h

theorem allowedRelative_joinPath (hd : allowedRelative r d = true) (hn : validateBasename n = true)
    (hreserved : reserved n = false) : allowedRelative r (joinPath d n) = r.platformName n := by
  obtain ⟨hne, hdot, hdots, hslash, hback, hnul⟩ := validateBasename_spec hn
  simp only [allowedRelative, relative, Bool.and_eq_true, decide_eq_true_eq, Bool.not_eq_true', List.all_eq_true,
    List.contains_eq_mem, decide_eq_false_iff_not] at hd
  obtain ⟨⟨⟨⟨⟨-, hdnul⟩, hdback⟩, -⟩, hdparts⟩, hdreserved⟩ := hd
  have hjoin : joinPath d n = ['/'].intercalate (parts d ++ [n]) := by
    rw [joinPath, clean, parts_append hn, if_neg (by simp)]
  have hchar : ∀ c, c ≠ '/' → c ∉ d → c ∉ n → c ∉ joinPath d n := by
    intro c hc hcd hcn hmem
    rw [hjoin] at hmem
    rcases mem_intercalate hmem with h | ⟨part, hpart, h⟩
    · exact hc h
    · rcases List.mem_append.mp hpart with hpart | hpart
      · exact hcd (mem_of_mem_part (mem_parts hpart).1 h)
      · rw [List.mem_singleton] at hpart
        exact hcn (hpart ▸ h)
  have hhead : joinPath d n ≠ [] ∧ (joinPath d n).head? ≠ some '/' := by
    have hfirst : ∀ part ∈ parts d ++ [n], part ≠ [] ∧ '/' ∉ part := by
      intro part hpart
      rcases List.mem_append.mp hpart with hpart | hpart
      · exact ⟨(mem_parts hpart).2.1, (mem_parts hpart).2.2.2⟩
      · rw [List.mem_singleton] at hpart
        exact hpart ▸ ⟨hne, hslash⟩
    rw [hjoin]
    cases hps : parts d ++ [n] with
    | nil => simp at hps
    | cons p ps =>
      obtain ⟨hp, hpslash⟩ := hfirst p (hps ▸ List.mem_cons_self)
      obtain ⟨c, cs, rfl⟩ := List.exists_cons_of_ne_nil hp
      rw [List.mem_cons, not_or] at hpslash
      cases ps with
      | nil => simp [List.intercalate, Ne.symm hpslash.1]
      | cons q ps => simp [List.intercalate_cons_cons, Ne.symm hpslash.1]
  have hall : ∀ part ∈ parts d, part ≠ ['.', '.'] ∧ r.platformName part = true ∧ reserved part = false := by
    intro part hpart
    have hmem := (mem_parts hpart).1
    exact ⟨(hdparts part hmem).1, (hdparts part hmem).2, hdreserved part hmem⟩
  rw [Bool.eq_iff_iff]
  simp only [allowedRelative, relative, splitOn_joinPath hn, Bool.and_eq_true, decide_eq_true_eq, Bool.not_eq_true',
    List.all_eq_true, List.contains_eq_mem, decide_eq_false_iff_not, List.forall_mem_append,
    List.forall_mem_singleton]
  constructor
  · rintro ⟨⟨-, -, -, h⟩, -⟩
    exact h
  · intro h
    exact ⟨⟨⟨⟨⟨hhead.1, hchar _ (by decide) hdnul hnul⟩, hchar _ (by decide) hdback hback⟩, hhead.2⟩,
      fun part hpart => ⟨(hall part hpart).1, (hall part hpart).2.1⟩, hdots, h⟩,
      fun part hpart => (hall part hpart).2.2, hreserved⟩

theorem lookup_of_mem (hnodup : (es.filterMap Prod.fst).Nodup) (h : (some n, child) ∈ es) :
    es.lookup (some n) = some child := by
  induction es with
  | nil => cases h
  | cons e es ih =>
    obtain ⟨base, node⟩ := e
    rw [List.lookup_cons]
    rcases List.mem_cons.mp h with heq | hmem
    · cases heq
      simp
    · have hin : n ∈ es.filterMap Prod.fst := List.mem_filterMap.mpr ⟨_, hmem, rfl⟩
      cases base with
      | none => exact ih hnodup hmem
      | some b =>
        change (b :: es.filterMap Prod.fst).Nodup at hnodup
        rw [List.nodup_cons] at hnodup
        have hne : (some n == some b) = false := by
          rw [beq_eq_false_iff_ne]
          rintro heq
          exact hnodup.1 (Option.some.inj heq ▸ hin)
        rw [hne]
        exact ih hnodup.2 hmem

theorem mem_of_lookup {base : Option Name} (h : es.lookup base = some child) : (base, child) ∈ es := by
  obtain ⟨l₁, l₂, rfl, -⟩ := List.lookup_eq_some_iff.mp h
  simp

theorem walk_append (h : node.walk ps = .ok (.folder st es)) (hlookup : es.lookup (some n) = some child) :
    node.walk (ps ++ [n]) = .ok child := by
  induction ps generalizing node with
  | nil =>
    rw [Node.walk, Except.ok.injEq] at h
    subst h
    simp [Node.walk, hlookup]
  | cons p ps ih =>
    cases node with
    | file st regular | closed e => simp [Node.walk] at h
    | folder st' es' =>
      rw [List.cons_append, Node.walk]
      rw [Node.walk] at h
      cases hp : es'.lookup (some p) with
      | none => simp [hp] at h
      | some next =>
        rw [hp] at h
        exact ih h

theorem distinct_walk {n : Node} (hnode : node.Distinct) (h : node.walk ps = .ok n) : n.Distinct := by
  induction ps generalizing node with
  | nil =>
    rw [Node.walk, Except.ok.injEq] at h
    exact h ▸ hnode
  | cons p ps ih =>
    cases hnode with
    | file | closed => simp [Node.walk] at h
    | @folder st es names below =>
      rw [Node.walk] at h
      cases hp : es.lookup (some p) with
      | none => simp [hp] at h
      | some next =>
        rw [hp] at h
        exact ih (below _ (mem_of_lookup hp)) h

theorem open_eq_folder (h : r.open d = .ok (.folder st es)) :
    allowedRelative r d = true ∧ r.node.walk (parts d) = .ok (.folder st es) := by
  rw [Root.open] at h
  split at h
  · cases h
  · rename_i hallowed
    refine ⟨by simpa using hallowed, ?_⟩
    cases hwalk : r.node.walk (parts d) with
    | error e => simp [hwalk] at h
    | ok n =>
      rw [hwalk] at h
      cases n with
      | closed e => simp [Root.inspect] at h
      | file st regular =>
        simp only [Root.inspect] at h
        split at h <;> cases h
      | folder st' es' =>
        simp only [Root.inspect] at h
        split at h
        · cases h
          rfl
        · cases h

/-- Opening an entry of a directory that was opened depends only on the entry. -/
theorem open_joinPath (hd : r.open d = .ok (.folder st es)) (hmem : (some n, child) ∈ es)
    (hn : validateBasename n = true) (hreserved : reserved n = false) :
    r.open (joinPath d n) = if r.platformName n then r.inspect child else .error .permissionDenied := by
  obtain ⟨hallowed, hwalk⟩ := open_eq_folder hd
  have hnames : (es.filterMap Prod.fst).Nodup := by
    cases distinct_walk r.distinct hwalk with
    | folder names below => exact names
  rw [Root.open, allowedRelative_joinPath hallowed hn hreserved, parts_joinPath hn,
    walk_append hwalk (lookup_of_mem hnames hmem)]
  cases r.platformName n <;> rfl

end Onprest.Filesystem
