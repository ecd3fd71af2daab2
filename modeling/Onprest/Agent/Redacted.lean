import Onprest.Agent.Redaction

/-! When redaction is complete: exactly when cutting the recorded texts out of each captured text, in the order in
which they are replaced, leaves nothing of it. -/

namespace Onprest.Agent.Redaction
open Lib
variable {isPrint : Char → Bool} {sorting : Sorting Text}

/-! ### What is recorded -/

variable {r : Redactor} {t : Text} {cs : List Captured}

theorem mem_add_secrets {encoded : Text} : t ∈ (r.add encoded).secrets → t ∈ r.secrets ∨ t = encoded := by
  unfold Redactor.add
  split
  · exact .inl
  · simp

theorem mem_addAll_secrets {es : List Text} (h : t ∈ (es.foldl Redactor.add r).secrets) :
    t ∈ r.secrets ∨ t ∈ es := by
  induction es generalizing r with
  | nil => exact .inl h
  | cons e es ih =>
    rcases ih h with h | h
    · rcases mem_add_secrets h with h | rfl
      · exact .inl h
      · exact .inr List.mem_cons_self
    · exact .inr (List.mem_cons_of_mem e h)

theorem sql_addAll (es : List Text) (r : Redactor) : (es.foldl Redactor.add r).sql = r.sql := by
  induction es generalizing r with
  | nil => rfl
  | cons e es ih =>
    rw [List.foldl_cons, ih, Redactor.add]
    split <;> rfl

theorem sql_secret (r : Redactor) (value : Text) : (r.secret isPrint sorting value).sql = r.sql := by
  unfold Redactor.secret
  split
  · rfl
  · exact sql_addAll _ r

theorem mem_secret_secrets {value : Text} (h : t ∈ (r.secret isPrint sorting value).secrets) :
    t ∈ r.secrets ∨ value ≠ [] ∧ t ∈ encodings isPrint value := by
  unfold Redactor.secret at h
  split at h
  · exact .inl h
  · rename_i hnew
    rw [not_or] at hnew
    rcases mem_addAll_secrets ((sorting.perm longer _).mem_iff.mp h) with h | h
    · exact .inl h
    · exact .inr ⟨hnew.1, h⟩

theorem captureAll_append (cs : List Captured) (c : Captured) :
    captureAll isPrint sorting (cs ++ [c]) = (captureAll isPrint sorting cs).capture isPrint sorting c := by
  rw [captureAll, List.foldl_append]
  rfl

/-- The redactor holds the captured SQL texts in their order, and for secrets nothing but their encodings. -/
theorem captureAll_texts (cs : List Captured) :
    (captureAll isPrint sorting cs).sql = sqlTexts cs ∧
      ∀ t ∈ (captureAll isPrint sorting cs).secrets, t ∈ (secretValues cs).flatMap (encodings isPrint) := by
  induction cs using List.reverseRecOn with
  | nil => exact ⟨rfl, nofun⟩
  | append_singleton cs c ih =>
    obtain ⟨hsql, hsecrets⟩ := ih
    rw [captureAll_append]
    simp only [sqlTexts, secretValues, List.filterMap_append, List.flatMap_append,
      List.mem_append] at hsql hsecrets ⊢
    cases c with
    | setting sql =>
      by_cases hnil : sql = []
      · simpa [Redactor.capture, hnil, hsql] using hsecrets
      · simpa [Redactor.capture, hnil, hsql] using hsecrets
    | converted sql => simpa [Redactor.capture, hsql] using hsecrets
    | secret value =>
      refine ⟨by simpa [Redactor.capture, sql_secret] using hsql, ?_⟩
      intro t ht
      rcases mem_secret_secrets ht with ht | ⟨hnil, ht⟩
      · exact .inl (hsecrets t ht)
      · exact .inr (by simpa [hnil] using ht)

/-! ### Redaction as passes -/

/-- The replacements of `redact`. -/
def Redactor.replacements (r : Redactor) : List (Text × Text) :=
  r.sql.map (·, sqlMarker) ++ r.secrets.map (·, secretMarker)

theorem foldl_stringsReplaceAll {m : Text} {ts : List Text} (hts : ∀ t ∈ ts, t ≠ []) (s : Text) :
    ts.foldl (fun s t => stringsReplaceAll s t m) s = passes (ts.map (·, m)) s := by
  induction ts generalizing s with
  | nil => rfl
  | cons t ts ih =>
    rw [List.forall_mem_cons] at hts
    rw [List.foldl_cons, ih hts.2, stringsReplaceAll, if_neg hts.1]
    rfl

theorem redact_eq_passes (hsql : ∀ t ∈ r.sql, t ≠ []) (hsecrets : ∀ t ∈ r.secrets, t ≠ []) (s : Text) :
    r.redact s = passes r.replacements s := by
  rw [Redactor.redact, foldl_stringsReplaceAll hsql, foldl_stringsReplaceAll hsecrets]
  rw [Redactor.replacements, passes, passes, passes, List.foldl_append]

theorem map_fst_replacements (r : Redactor) : r.replacements.map Prod.fst = r.sql ++ r.secrets := by
  simp [Redactor.replacements, Function.comp_def]

theorem mem_replacements {p : Text × Text} (h : p ∈ r.replacements) : p.1 ∈ r.sql ++ r.secrets ∧ p.2 ∈ markers := by
  rw [Redactor.replacements, List.mem_append, List.mem_map, List.mem_map] at h
  rw [List.mem_append]
  rcases h with ⟨t, ht, rfl⟩ | ⟨t, ht, rfl⟩
  · exact ⟨.inl ht, List.mem_cons_self⟩
  · exact ⟨.inr ht, List.mem_cons_of_mem _ List.mem_cons_self⟩

/-- A redactor all of whose texts are clear of the markers. -/
structure Redactor.Ready (r : Redactor) : Prop where
  clear : ∀ t ∈ r.sql ++ r.secrets, Clear t

theorem Clear.ne_nil (h : Clear t) : t ≠ [] := by
  obtain ⟨a, t', rfl, -⟩ := h.first
  exact List.cons_ne_nil a t'

namespace Redactor.Ready
variable {r : Redactor} (hr : r.Ready)
include hr

theorem redact (s : Text) : r.redact s = passes r.replacements s :=
  redact_eq_passes (fun t ht => (hr.clear t (List.mem_append_left _ ht)).ne_nil)
    (fun t ht => (hr.clear t (List.mem_append_right _ ht)).ne_nil) s

theorem woven (s : Text) : Woven markers (leftover (r.sql ++ r.secrets) s) (r.redact s) := by
  rw [hr.redact, ← map_fst_replacements]
  refine woven_passes (fun m => marker_ne_nil) ?_ (fun p hp => (mem_replacements hp).2) s
  intro p hp m hm
  exact (hr.clear p.1 (mem_replacements hp).1).apart hm

variable {t : Text}

theorem not_infix (ht : t ∈ r.sql ++ r.secrets) (s : Text) : ¬t <:+: r.redact s := by
  intro hinside
  obtain ⟨x, hx, hinside⟩ := (hr.woven s).infix_piece (fun m => marker_ne_nil)
    (fun m => (hr.clear t ht).apart) hinside
  exact not_infix_of_leftover (fun c hc => (hr.clear c hc).ne_nil) hx ht hinside

theorem redact_between {u v : Text}
    (h : ∀ t ∈ r.sql ++ r.secrets, List.Disjoint u t ∧ List.Disjoint v t) (s : Text) :
    r.redact (u ++ s ++ v) = u ++ r.redact s ++ v := by
  rw [hr.redact, hr.redact]
  refine passes_between ?_ ?_ s
  · intro p hp
    have hmem := (mem_replacements hp).1
    exact apart_of_disjoint (hr.clear p.1 hmem).ne_nil (h p.1 hmem).1
  · intro p hp
    have hmem := (mem_replacements hp).1
    exact apart_of_disjoint (hr.clear p.1 hmem).ne_nil (h p.1 hmem).2

/-- Only markers are left of a text exactly when the recorded texts leave nothing of it. -/
theorem only_markers (ht : Clear t) :
    (∃ ms : List Text, (∀ m ∈ ms, m ∈ markers) ∧ r.redact t = ms.flatten) ↔
      ∀ piece ∈ leftover (r.sql ++ r.secrets) t, piece = [] := by
  refine (hr.woven t).only_markers markers_distinct ?_
  intro piece hpiece hbracket
  have hinside := infix_of_leftover (fun c hc => (hr.clear c hc).ne_nil) hpiece
  exact ht.bracket (hinside.subset hbracket)

end Redactor.Ready

theorem clear_texts (hmark : ∀ t ∈ sqlTexts cs ++ secretValues cs, ∀ m ∈ markers, List.Disjoint m t)
    (ht : t ∈ texts isPrint cs) (hne : t ∈ sqlTexts cs → t ≠ []) : Clear t := by
  rcases List.mem_append.mp ht with ht | ht
  · exact clear_of_disjoint (hne ht) (hmark t (List.mem_append_left _ ht))
  · obtain ⟨value, hvalue, ht⟩ := List.mem_flatMap.mp ht
    have hnil : value ≠ [] := by
      obtain ⟨c, -, hc⟩ := List.mem_filterMap.mp hvalue
      cases c with
      | secret v =>
        by_cases hv : v = []
        · simp [hv] at hc
        · obtain rfl : v = value := by simpa [hv] using hc
          exact hv
      | setting sql => cases hc
      | converted sql => cases hc
    exact clear_encodings (clear_of_disjoint hnil (hmark value (List.mem_append_right _ hvalue))) t ht

theorem mem_texts_of_recorded
    (ht : t ∈ (captureAll isPrint sorting cs).sql ++ (captureAll isPrint sorting cs).secrets) :
    t ∈ texts isPrint cs := by
  obtain ⟨hsql, hsecrets⟩ := @captureAll_texts isPrint sorting cs
  rcases List.mem_append.mp ht with ht | ht
  · exact List.mem_append_left _ (hsql ▸ ht)
  · exact List.mem_append_right _ (hsecrets t ht)

theorem ready_captureAll (hmark : ∀ t ∈ sqlTexts cs ++ secretValues cs, ∀ m ∈ markers, List.Disjoint m t)
    (hsql : ∀ t ∈ sqlTexts cs, t ≠ []) :
    (captureAll isPrint sorting cs).Ready :=
  ⟨fun t ht => clear_texts hmark (mem_texts_of_recorded ht) (hsql t)⟩

/-! ### Complete redaction -/

/-- Redaction after the given captures is complete: no detail shows a captured text or an encoding of a secret, and
where one stands between characters that none of them has, only markers take its place. A character is a byte here,
and the captured texts are the SQL texts, the secrets and the encodings of the secrets. -/
structure Complete (isPrint : Char → Bool) (sorting : Sorting Text) (cs : List Captured) : Prop where
  hidden : ∀ detail, ∀ t ∈ texts isPrint cs, ¬t <:+: (captureAll isPrint sorting cs).redact detail
  whole : ∀ u t v, t ∈ texts isPrint cs → (∀ t' ∈ texts isPrint cs, List.Disjoint u t' ∧ List.Disjoint v t') →
    ∃ ms : List Text, (∀ m ∈ ms, m ∈ markers) ∧
      (captureAll isPrint sorting cs).redact (u ++ t ++ v) = u ++ ms.flatten ++ v

/-- Cutting the SQL texts and then the recorded encodings out of a captured text leaves nothing of it. -/
def Consumed (isPrint : Char → Bool) (sorting : Sorting Text) (cs : List Captured) (t : Text) : Prop :=
  t ≠ [] ∧ ∀ piece ∈ leftover ((captureAll isPrint sorting cs).sql ++ (captureAll isPrint sorting cs).secrets) t,
    piece = []

section Completeness
variable {cs : List Captured} (hmark : ∀ t ∈ sqlTexts cs ++ secretValues cs, ∀ m ∈ markers, List.Disjoint m t)
include hmark

theorem consumed_of_complete (h : Complete isPrint sorting cs) (ht : t ∈ texts isPrint cs) :
    Consumed isPrint sorting cs t := by
  have hne : ∀ t ∈ texts isPrint cs, t ≠ [] := by
    rintro t ht rfl
    exact h.hidden [] [] ht List.nil_infix
  have hready := @ready_captureAll isPrint sorting cs hmark fun t ht => hne t (List.mem_append_left _ ht)
  refine ⟨hne t ht, (hready.only_markers (clear_texts hmark ht fun _ => hne t ht)).mp ?_⟩
  simpa using h.whole [] t [] ht fun t' _ => ⟨List.disjoint_nil_left t', List.disjoint_nil_left t'⟩

theorem complete_of_consumed (h : ∀ t ∈ texts isPrint cs, Consumed isPrint sorting cs t) :
    Complete isPrint sorting cs := by
  have hready := @ready_captureAll isPrint sorting cs hmark fun t ht => (h t (List.mem_append_left _ ht)).1
  constructor
  · intro detail t ht hinside
    obtain ⟨hne, hleft⟩ := h t ht
    -- A text that contains no recorded one would be left as it is.
    have hrecorded : ∃ c ∈ (captureAll isPrint sorting cs).sql ++ (captureAll isPrint sorting cs).secrets,
        c <:+: t := by
      by_contra hnone
      push Not at hnone
      rw [leftover_of_absent hnone] at hleft
      exact hne (hleft t (List.mem_singleton_self t))
    obtain ⟨c, hc, hct⟩ := hrecorded
    exact hready.not_infix hc detail (hct.trans hinside)
  · intro u t v ht hdisjoint
    obtain ⟨hne, hleft⟩ := h t ht
    obtain ⟨ms, hms, heq⟩ := (hready.only_markers (clear_texts hmark ht fun _ => hne)).mpr hleft
    refine ⟨ms, hms, ?_⟩
    rw [hready.redact_between fun t' ht' => hdisjoint t' (mem_texts_of_recorded ht'), heq]

end Completeness

/-- Of captures that share no byte with a marker: redaction is complete exactly when cutting the recorded texts out
of each captured text, encodings included, leaves nothing of it. -/
theorem redact_complete_iff (isPrint : Char → Bool) (sorting : Sorting Text) (cs : List Captured)
    (hmark : ∀ t ∈ sqlTexts cs ++ secretValues cs, ∀ m ∈ markers, List.Disjoint m t) :
    Complete isPrint sorting cs ↔ ∀ t ∈ texts isPrint cs, Consumed isPrint sorting cs t := by
  constructor
  · intro hcomplete t ht
    exact consumed_of_complete hmark hcomplete ht
  · intro hconsumed
    exact complete_of_consumed hmark hconsumed

/-- The printable characters of ASCII. -/
def isPrintAscii (c : Char) : Bool := ' ' ≤ c && c ≤ '~'

/-- A statement with a parameter, the same with a placeholder, and a password. -/
theorem redact_complete_plain :
    Complete isPrintAscii (Sorting.insertion Text)
      [.setting (ascii "x=:p"), .converted (ascii "x=$1"), .secret (ascii "a/b\"")] := by
  refine (redact_complete_iff isPrintAscii (Sorting.insertion Text) _ ?_).mpr ?_
  · simp only [List.disjoint_left]
    decide +kernel
  · simp only [Consumed]
    decide +kernel

/-- The second password is an encoding of the first one, so none of its own encodings are recorded. -/
theorem redact_encoded_password :
    (∀ t ∈ sqlTexts [.secret (ascii "a%b"), .secret (ascii "a%25b")] ++
        secretValues [.secret (ascii "a%b"), .secret (ascii "a%25b")], ∀ m ∈ markers, List.Disjoint m t) ∧
      ¬Complete isPrintAscii (Sorting.insertion Text) [.secret (ascii "a%b"), .secret (ascii "a%25b")] := by
  refine ⟨by simp only [List.disjoint_left]; decide +kernel, fun hcomplete => ?_⟩
  have htext : ascii "a%2525b" ∈ texts isPrintAscii [.secret (ascii "a%b"), .secret (ascii "a%25b")] := by
    decide +kernel
  have hredact : (captureAll isPrintAscii (Sorting.insertion Text)
      [.secret (ascii "a%b"), .secret (ascii "a%25b")]).redact (ascii "a%2525b") =
        ascii "a%2525b" := by decide +kernel
  have hhidden := hcomplete.hidden (ascii "a%2525b") _ htext
  rw [hredact] at hhidden
  exact hhidden List.infix_rfl

-- SQL texts are replaced in capture order: one that lies inside a later one leaves the rest of it.
example : (captureAll isPrintAscii (Sorting.insertion Text) [.setting (ascii "x"), .setting (ascii "xy")]).redact
    (ascii "xy") = ascii "[SQL REDACTED]y" := by decide +kernel

/-! ### Texts that do not get in each other's way -/

/-- Every text that was seen is replaced. -/
def Redactor.Synced (r : Redactor) : Prop := ∀ t, t ∈ r.seen ↔ t ∈ r.secrets

theorem synced_add (h : r.Synced) (e : Text) :
    (r.add e).Synced ∧ e ∈ (r.add e).secrets ∧ ∀ t ∈ r.secrets, t ∈ (r.add e).secrets := by
  unfold Redactor.add
  split
  · rename_i hseen
    exact ⟨h, (h e).mp hseen, fun t ht => ht⟩
  · refine ⟨fun t => ?_, by simp, fun t ht => by simp [ht]⟩
    simp [h t, or_comm]

theorem synced_addAll (h : r.Synced) (es : List Text) :
    (es.foldl Redactor.add r).Synced ∧ (∀ e ∈ es, e ∈ (es.foldl Redactor.add r).secrets) ∧
      ∀ t ∈ r.secrets, t ∈ (es.foldl Redactor.add r).secrets := by
  induction es generalizing r with
  | nil => exact ⟨h, nofun, fun t ht => ht⟩
  | cons e es ih =>
    obtain ⟨hadd, hown, hkeep⟩ := synced_add h e
    obtain ⟨hsynced, hall, hrest⟩ := ih hadd
    exact ⟨hsynced, List.forall_mem_cons.mpr ⟨hrest e hown, hall⟩, fun t ht => hrest t (hkeep t ht)⟩

theorem synced_secret (h : r.Synced) (value : Text) :
    (r.secret isPrint sorting value).Synced ∧ (∀ t ∈ r.secrets, t ∈ (r.secret isPrint sorting value).secrets) ∧
      (value ≠ [] → value ∉ r.seen → ∀ e ∈ encodings isPrint value,
        e ∈ (r.secret isPrint sorting value).secrets) := by
  unfold Redactor.secret
  split
  · rename_i hskip
    exact ⟨h, fun t ht => ht, fun hne hnew => absurd hskip (not_or.mpr ⟨hne, hnew⟩)⟩
  · obtain ⟨hsynced, hall, hrest⟩ := synced_addAll h (encodings isPrint value)
    have hperm := sorting.perm longer ((encodings isPrint value).foldl Redactor.add r).secrets
    exact ⟨fun t => (hsynced t).trans hperm.mem_iff.symm, fun t ht => hperm.mem_iff.mpr (hrest t ht),
      fun _ _ e he => hperm.mem_iff.mpr (hall e he)⟩

theorem strictWeak_longer : StrictWeak longer where
  irrefl := fun a => by simp [longer]
  trans := fun a b c hab hbc => by
    simp only [longer, decide_eq_true_eq] at *
    omega
  ties := fun a b c hab hbc => by
    simp only [longer, decide_eq_false_iff_not] at *
    omega

/-- The secrets are replaced from the longest to the shortest. -/
theorem longest_first (cs : List Captured) :
    (captureAll isPrint sorting cs).secrets.Pairwise fun a b => longer b a = false := by
  induction cs using List.reverseRecOn with
  | nil => exact List.Pairwise.nil
  | append_singleton cs c ih =>
    rw [captureAll_append]
    generalize captureAll isPrint sorting cs = r at ih ⊢
    cases c with
    | setting sql =>
      rw [Redactor.capture]
      split <;> exact ih
    | converted sql => exact ih
    | secret value =>
      rw [Redactor.capture, Redactor.secret]
      split
      · exact ih
      · exact sorting.sorted longer _ strictWeak_longer

/-- If no secret is an encoding of another one, all encodings of all secrets are replaced. -/
theorem encodings_recorded (hown : ∀ v ∈ secretValues cs, ∀ w ∈ secretValues cs, v ∈ encodings isPrint w → v = w) :
    (captureAll isPrint sorting cs).Synced ∧
      ∀ v ∈ secretValues cs, ∀ e ∈ encodings isPrint v, e ∈ (captureAll isPrint sorting cs).secrets := by
  induction cs using List.reverseRecOn with
  | nil => exact ⟨fun t => Iff.rfl, nofun⟩
  | append_singleton cs c ih =>
    have hvalues : ∀ v ∈ secretValues cs, v ∈ secretValues (cs ++ [c]) := by
      intro v hv
      rw [secretValues, List.filterMap_append]
      exact List.mem_append_left _ hv
    obtain ⟨hsynced, hall⟩ := ih fun v hv w hw => hown v (hvalues v hv) w (hvalues w hw)
    rw [captureAll_append]
    cases c with
    | setting sql =>
      have hsame : secretValues (cs ++ [.setting sql]) = secretValues cs := by simp [secretValues]
      rw [hsame]
      rw [Redactor.capture]
      split <;> exact ⟨hsynced, hall⟩
    | converted sql =>
      have hsame : secretValues (cs ++ [.converted sql]) = secretValues cs := by simp [secretValues]
      rw [hsame]
      exact ⟨hsynced, hall⟩
    | secret value =>
      obtain ⟨hsynced', hkeep, hnew⟩ := @synced_secret isPrint sorting _ hsynced value
      refine ⟨hsynced', ?_⟩
      intro v hv e he
      by_cases hold : v ∈ secretValues cs
      · exact hkeep e (hall v hold e he)
      · have hlast : value ≠ [] ∧ v = value := by
          rw [secretValues, List.filterMap_append, List.mem_append] at hv
          have hv := hv.resolve_left hold
          by_cases hnil : value = []
          · simp [hnil] at hv
          · exact ⟨hnil, by simpa [hnil] using hv⟩
        obtain ⟨hnil, rfl⟩ := hlast
        refine hnew hnil (fun hseen => hold ?_) e he
        -- A value seen before is an encoding of an earlier secret, so it is that secret.
        obtain ⟨w, hw, hvw⟩ := List.mem_flatMap.mp ((captureAll_texts cs).2 v ((hsynced v).mp hseen))
        exact hown v hv w (hvalues w hw) hvw ▸ hw

/-- Redaction is complete where no secret is an encoding of another one and no SQL text lies inside another captured
text or an encoding of a secret. -/
theorem complete_of_separate (hmark : ∀ t ∈ sqlTexts cs ++ secretValues cs, ∀ m ∈ markers, List.Disjoint m t)
    (hsql : ∀ q ∈ sqlTexts cs, q ≠ [])
    (hown : ∀ v ∈ secretValues cs, ∀ w ∈ secretValues cs, v ∈ encodings isPrint w → v = w)
    (hseparate : ∀ q ∈ sqlTexts cs, ∀ t ∈ texts isPrint cs, q <:+: t → q = t) : Complete isPrint sorting cs := by
  refine complete_of_consumed hmark fun t ht => ?_
  have hne : ∀ t ∈ texts isPrint cs, t ≠ [] := fun t ht => (clear_texts hmark ht (hsql t)).ne_nil
  obtain ⟨hsqls, -⟩ := @captureAll_texts isPrint sorting cs
  refine ⟨hne t ht, ?_⟩
  have hrecorded : ∀ d ∈ (captureAll isPrint sorting cs).sql ++ (captureAll isPrint sorting cs).secrets, d ≠ [] :=
    fun d hd => hne d (mem_texts_of_recorded hd)
  by_cases hmem : t ∈ sqlTexts cs
  · obtain ⟨before, after, hsplit, hfirst⟩ := List.eq_append_cons_of_mem (hsqls ▸ hmem)
    rw [hsplit, List.append_assoc, List.cons_append] at hrecorded ⊢
    refine leftover_own (hne t ht) ?_ fun d hd => hrecorded d (by simp [List.mem_append.mp hd])
    intro d hd hinside
    refine hfirst (hseparate d ?_ t ht hinside ▸ hd)
    rw [← hsqls, hsplit]
    exact List.mem_append_left _ hd
  · have hsecret : t ∈ (captureAll isPrint sorting cs).secrets := by
      obtain ⟨v, hv, ht⟩ := List.mem_flatMap.mp ((List.mem_append.mp ht).resolve_left hmem)
      exact (encodings_recorded hown).2 v hv t ht
    obtain ⟨before, after, hsplit, hfirst⟩ := List.eq_append_cons_of_mem hsecret
    have hlong := @longest_first isPrint sorting cs
    rw [hsplit, List.pairwise_append] at hlong
    rw [hsplit, ← List.append_assoc] at hrecorded ⊢
    refine leftover_own (hne t ht) ?_ fun d hd => hrecorded d (by simp [hd])
    intro d hd hinside
    rcases List.mem_append.mp hd with hd | hd
    · exact hmem (hseparate d (hsqls ▸ hd) t ht hinside ▸ hsqls ▸ hd)
    · -- A text that comes earlier is at least as long.
      have hlength := hlong.2.2 d hd t List.mem_cons_self
      simp only [longer, decide_eq_false_iff_not, not_lt] at hlength
      exact hfirst (hinside.eq_of_length_le hlength ▸ hd)

/-- A statement and two passwords, neither of them an encoding of the other. -/
theorem complete_of_separate_plain :
    Complete isPrintAscii (Sorting.insertion Text)
      [.setting (ascii "x=:p"), .secret (ascii "a/b\""), .secret (ascii "a/b")] := by
  refine complete_of_separate ?_ (by decide +kernel) (by decide +kernel) (by decide +kernel)
  simp only [List.disjoint_left]
  decide +kernel

end Onprest.Agent.Redaction
