import Mathlib.Data.List.Infix

/-! Replacing every occurrence of a string by a marker: leftmost occurrences first, none of them overlapping. A
string after any number of such passes is the pieces that are left of it, woven with markers. -/

namespace Onprest.Lib
variable {α : Type*} [DecidableEq α]

/-! ### The first occurrence -/

/-- What stands before the first occurrence of `c`, and what follows it. -/
def cut (c : List α) : List α → Option (List α × List α)
  | [] => if c = [] then some ([], []) else none
  | a :: s => if c <+: a :: s then some ([], (a :: s).drop c.length) else (cut c s).map fun p => (a :: p.1, p.2)

variable {c s x y m p v t : List α} {M xs cs : List (List α)} {ps : List (List α × List α)}

theorem cut_eq_none_iff : cut c s = none ↔ ¬c <:+: s := by
  induction s with
  | nil => simp [cut]
  | cons a s ih =>
    rw [cut, List.infix_cons_iff, not_or, ← ih]
    split <;> simp [*]

theorem eq_of_cut (h : cut c s = some (x, y)) : s = x ++ c ++ y := by
  induction s generalizing x with
  | nil =>
    simp only [cut, Option.ite_none_right_eq_some, Option.some.injEq, Prod.mk.injEq] at h
    obtain ⟨rfl, rfl, rfl⟩ := h
    rfl
  | cons a s ih =>
    rw [cut] at h
    split at h
    · cases h
      rename_i hinitial
      exact (List.prefix_iff_eq_append.mp hinitial).symm
    · obtain ⟨⟨x', y'⟩, hcut, heq⟩ := Option.map_eq_some_iff.mp h
      obtain ⟨rfl, rfl⟩ := Prod.mk.inj heq
      rw [ih hcut]
      rfl

/-- There is no occurrence before the first one. -/
theorem not_infix_of_cut (hc : c ≠ []) (h : cut c s = some (x, y)) : ¬c <:+: x := by
  induction s generalizing x with
  | nil => simp [cut, hc] at h
  | cons a s ih =>
    rw [cut] at h
    split at h
    · cases h
      simpa using hc
    · rename_i hinitial
      obtain ⟨⟨x', y'⟩, hcut, heq⟩ := Option.map_eq_some_iff.mp h
      obtain ⟨rfl, rfl⟩ := Prod.mk.inj heq
      rw [List.infix_cons_iff, not_or]
      refine ⟨fun hx => hinitial (hx.trans ?_), ih hcut⟩
      rw [eq_of_cut hcut, List.append_assoc]
      exact ⟨c ++ y', rfl⟩

theorem length_of_cut (hc : c ≠ []) (h : cut c s = some (x, y)) : y.length < s.length := by
  have hpos := List.length_pos_of_ne_nil hc
  rw [eq_of_cut h, List.length_append, List.length_append]
  omega

/-! ### Splitting and replacing -/

/-- The pieces between the occurrences of `c`. -/
def splitAll (c s : List α) : List (List α) :=
  if _hc : c = [] then [s]
  else
    match _h : cut c s with
    | none => [s]
    | some (x, y) => x :: splitAll c y
termination_by s.length
decreasing_by exact length_of_cut _hc _h

/-- `s` with `m` in place of every occurrence of `c`, for a `c` that is not empty. -/
def replaceAll (c m s : List α) : List α :=
  if _hc : c = [] then s
  else
    match _h : cut c s with
    | none => s
    | some (x, y) => x ++ m ++ replaceAll c m y
termination_by s.length
decreasing_by exact length_of_cut _hc _h

theorem splitAll_none (hc : c ≠ []) (h : cut c s = none) : splitAll c s = [s] := by
  rw [splitAll, dif_neg hc]
  split
  · rfl
  · simp_all

theorem splitAll_some (hc : c ≠ []) (h : cut c s = some (x, y)) : splitAll c s = x :: splitAll c y := by
  rw [splitAll, dif_neg hc]
  split
  · simp_all
  · simp_all

theorem replaceAll_none (hc : c ≠ []) (h : cut c s = none) : replaceAll c m s = s := by
  rw [replaceAll, dif_neg hc]
  split
  · rfl
  · simp_all

theorem replaceAll_some (hc : c ≠ []) (h : cut c s = some (x, y)) :
    replaceAll c m s = x ++ m ++ replaceAll c m y := by
  rw [replaceAll, dif_neg hc]
  split
  · simp_all
  · simp_all

/-- Induction along the occurrences of `c`. -/
theorem cut_induction (hc : c ≠ []) {P : List α → Prop} (none : ∀ s, cut c s = none → P s)
    (some : ∀ s x y, cut c s = some (x, y) → P y → P s) (s : List α) : P s := by
  cases h : cut c s with
  | none => exact none s h
  | some p => exact some s p.1 p.2 h (cut_induction hc none some p.2)
termination_by s.length
decreasing_by exact length_of_cut hc h

theorem splitAll_inside (hc : c ≠ []) (hp : p ∈ splitAll c s) : p <:+: s := by
  induction s using cut_induction hc with
  | none s h =>
    rw [splitAll_none hc h, List.mem_singleton] at hp
    rw [hp]
  | some s x y h ih =>
    rw [splitAll_some hc h, List.mem_cons] at hp
    rw [eq_of_cut h]
    rcases hp with rfl | hp
    · exact ⟨[], c ++ y, by simp⟩
    · exact (ih hp).trans (List.suffix_append _ _).isInfix

theorem not_infix_of_mem_splitAll (hc : c ≠ []) (hp : p ∈ splitAll c s) : ¬c <:+: p := by
  induction s using cut_induction hc with
  | none s h =>
    rw [splitAll_none hc h, List.mem_singleton] at hp
    rw [hp, ← cut_eq_none_iff]
    exact h
  | some s x y h ih =>
    rw [splitAll_some hc h, List.mem_cons] at hp
    rcases hp with rfl | hp
    · exact not_infix_of_cut hc h
    · exact ih hp

theorem splitAll_self (hc : c ≠ []) : splitAll c c = [[], []] := by
  have hcut : cut c c = some ([], []) := by
    cases c with
    | nil => exact absurd rfl hc
    | cons a c => simp [cut]
  have hnil : cut c [] = none := by simp [cut, hc]
  rw [splitAll_some hc hcut, splitAll_none hc hnil]

/-! ### Strings around an occurrence -/

/-- `c` does not occur across the left or the right end of `v`, nor inside it. -/
structure Apart (v c : List α) : Prop where
  first : ∃ a c', c = a :: c' ∧ a ∉ v
  bound : ∀ b v', v = b :: v' → b ∉ c

omit [DecidableEq α] in
theorem Apart.ne_nil (h : Apart v c) : c ≠ [] := by
  obtain ⟨a, c', rfl, -⟩ := h.first
  exact List.cons_ne_nil a c'

omit [DecidableEq α] in
theorem apart_of_disjoint (hc : c ≠ []) (h : List.Disjoint v c) : Apart v c := by
  obtain ⟨a, c', rfl⟩ := List.exists_cons_of_ne_nil hc
  refine ⟨⟨a, c', rfl, fun ha => h ha List.mem_cons_self⟩, ?_⟩
  rintro b v' rfl
  exact h List.mem_cons_self

theorem cut_apart_append (h : Apart v c) (s : List α) : cut c (v ++ s) = (cut c s).map fun p => (v ++ p.1, p.2) := by
  obtain ⟨a, c', rfl, ha⟩ := h.first
  clear h
  induction v with
  | nil => simp
  | cons b v ih =>
    rw [List.mem_cons, not_or] at ha
    rw [List.cons_append, cut, if_neg fun hinitial => ha.1 (List.cons_prefix_cons.mp hinitial).1,
      ih ha.2, Option.map_map]
    rfl

omit [DecidableEq α] in
theorem prefix_append_apart (h : Apart v c) (hv : v ≠ []) (s t : List α) : c <+: s ++ (v ++ t) ↔ c <+: s := by
  obtain ⟨b, v', rfl⟩ := List.exists_cons_of_ne_nil hv
  have hb := h.bound b v' rfl
  clear h
  induction s generalizing c with
  | nil =>
    cases c with
    | nil => simp
    | cons a c =>
      have hne : a ≠ b := fun heq => hb (heq ▸ List.mem_cons_self)
      simp [List.cons_prefix_cons, hne]
  | cons d s ih =>
    cases c with
    | nil => simp
    | cons a c =>
      have hc : b ∉ c := fun hmem => hb (List.mem_cons_of_mem a hmem)
      rw [List.cons_append, List.cons_prefix_cons, List.cons_prefix_cons]
      exact and_congr_right fun _ => ih hc

theorem cut_append_apart (h : Apart v c) (hv : v ≠ []) (s t : List α) : cut c (s ++ (v ++ t)) = match cut c s with
      | some (x, y) => some (x, y ++ (v ++ t))
      | none => (cut c t).map fun p => (s ++ v ++ p.1, p.2) := by
  induction s with
  | nil => simp [cut_apart_append h, cut, h.ne_nil]
  | cons a s ih =>
    have hinitial := prefix_append_apart h hv (a :: s) t
    rw [List.cons_append] at hinitial
    rw [List.cons_append, cut, cut, ih]
    by_cases hc : c <+: a :: s
    · rw [if_pos (hinitial.mpr hc), if_pos hc]
      simp only [Option.some.injEq, Prod.mk.injEq, true_and]
      exact List.drop_append_of_le_length hc.length_le
    · rw [if_neg (mt hinitial.mp hc), if_neg hc]
      cases cut c s with
      | none => simp [Option.map_map, Function.comp_def]
      | some p => rfl

theorem replaceAll_nil (c m : List α) : replaceAll c m [] = [] := by
  by_cases hc : c = []
  · rw [replaceAll, dif_pos hc]
  · exact replaceAll_none hc (by simp [cut, hc])

theorem replaceAll_append (h : Apart v c) (hv : v ≠ []) (m s t : List α) :
    replaceAll c m (s ++ (v ++ t)) = replaceAll c m s ++ (v ++ replaceAll c m t) := by
  induction s using cut_induction h.ne_nil with
  | none s hs =>
    have hcut := cut_append_apart h hv s t
    rw [hs] at hcut
    rw [replaceAll_none h.ne_nil hs]
    cases ht : cut c t with
    | none =>
      rw [ht] at hcut
      rw [replaceAll_none h.ne_nil hcut, replaceAll_none h.ne_nil ht]
    | some p =>
      rw [ht] at hcut
      rw [replaceAll_some h.ne_nil hcut, replaceAll_some h.ne_nil ht]
      simp only [List.append_assoc]
  | some s x y hs ih =>
    have hcut := cut_append_apart h hv s t
    rw [hs] at hcut
    rw [replaceAll_some h.ne_nil hcut, replaceAll_some h.ne_nil hs, ih]
    simp only [List.append_assoc]

theorem infix_append_apart (h : Apart v c) (hv : v ≠ []) (hc : c <:+: s ++ (v ++ t)) : c <:+: s ∨ c <:+: t := by
  by_contra hnot
  rw [not_or, ← cut_eq_none_iff, ← cut_eq_none_iff] at hnot
  have hcut := cut_append_apart h hv s t
  rw [hnot.1, hnot.2] at hcut
  exact cut_eq_none_iff.mp hcut hc

/-! ### Passes -/

/-- One replacement after the other. -/
def passes (ps : List (List α × List α)) (s : List α) : List α := ps.foldl (fun s p => replaceAll p.1 p.2 s) s

/-- What is left of a string when the strings `cs` are cut out of it, one after the other. -/
def leftover : List (List α) → List α → List (List α)
  | [], s => [s]
  | c :: cs, s => (splitAll c s).flatMap (leftover cs)

/-- The pieces `xs`, with a string of `M` between each two. -/
inductive Woven (M : List (List α)) : List (List α) → List α → Prop
  | one (x : List α) : Woven M [x] x
  | cons {xs : List (List α)} {s : List α} (x : List α) {m : List α} (hm : m ∈ M) (h : Woven M xs s) :
      Woven M (x :: xs) (x ++ (m ++ s))

omit [DecidableEq α] in
theorem Woven.append {ys : List (List α)} (hs : Woven M xs s) (hm : m ∈ M) (ht : Woven M ys t) :
    Woven M (xs ++ ys) (s ++ (m ++ t)) := by
  induction hs with
  | one x => exact .cons x hm ht
  | cons x hm' _ ih =>
    simp only [List.append_assoc, List.cons_append]
    exact .cons x hm' ih

theorem passes_append (hv : v ≠ []) (h : ∀ p ∈ ps, Apart v p.1) (s t : List α) :
    passes ps (s ++ (v ++ t)) = passes ps s ++ (v ++ passes ps t) := by
  induction ps generalizing s t with
  | nil => rfl
  | cons p ps ih =>
    have hone := replaceAll_append (h p List.mem_cons_self) hv p.2 s t
    have hrest := ih (fun q hq => h q (List.mem_cons_of_mem p hq)) (replaceAll p.1 p.2 s) (replaceAll p.1 p.2 t)
    calc passes (p :: ps) (s ++ (v ++ t)) = passes ps (replaceAll p.1 p.2 (s ++ (v ++ t))) := rfl
      _ = _ := by rw [hone, hrest]; rfl

theorem passes_nil (ps : List (List α × List α)) : passes ps [] = [] := by
  induction ps with
  | nil => rfl
  | cons p ps ih =>
    calc passes (p :: ps) [] = passes ps (replaceAll p.1 p.2 []) := rfl
      _ = [] := by rw [replaceAll_nil, ih]

/-- Passes over strings that have nothing in common with `u` and `v` leave these alone. -/
theorem passes_between {u : List α} (hu : ∀ p ∈ ps, Apart u p.1) (hv : ∀ p ∈ ps, Apart v p.1) (s : List α) :
    passes ps (u ++ s ++ v) = u ++ passes ps s ++ v := by
  have hleft : ∀ t, passes ps (u ++ t) = u ++ passes ps t := by
    intro t
    by_cases hnil : u = []
    · simp [hnil]
    · have happend := passes_append hnil hu [] t
      rwa [passes_nil, List.nil_append, List.nil_append] at happend
  have hright : ∀ t, passes ps (t ++ v) = passes ps t ++ v := by
    intro t
    by_cases hnil : v = []
    · simp [hnil]
    · have happend := passes_append hnil hv t []
      rwa [passes_nil, List.append_nil] at happend
  rw [hright, hleft]

/-- The result of the passes: what they leave of the string, woven with the markers. -/
theorem woven_passes (hM : ∀ m ∈ M, m ≠ []) (happart : ∀ p ∈ ps, ∀ m ∈ M, Apart m p.1) (hmark : ∀ p ∈ ps, p.2 ∈ M)
    (s : List α) : Woven M (leftover (ps.map Prod.fst) s) (passes ps s) := by
  induction ps generalizing s with
  | nil => exact .one s
  | cons p ps ih =>
    have hm := hmark p List.mem_cons_self
    have hc : p.1 ≠ [] := (happart p List.mem_cons_self p.2 hm).ne_nil
    have hrest := ih (fun q hq => happart q (List.mem_cons_of_mem p hq)) fun q hq =>
      hmark q (List.mem_cons_of_mem p hq)
    have hsplit : ∀ s, passes (p :: ps) s = passes ps (replaceAll p.1 p.2 s) := fun _ => rfl
    -- The later passes go over each piece of the first one.
    induction s using cut_induction hc with
    | none s h =>
      rw [List.map_cons, leftover, hsplit, splitAll_none hc h, replaceAll_none hc h]
      simpa using hrest s
    | some s x y h ih' =>
      rw [List.map_cons, leftover, hsplit, splitAll_some hc h, replaceAll_some hc h, List.append_assoc,
        passes_append (hM _ hm) fun q hq => happart q (List.mem_cons_of_mem p hq) _ hm]
      exact (hrest x).append hm ih'

theorem infix_of_leftover (hcs : ∀ c ∈ cs, c ≠ []) (hp : p ∈ leftover cs s) : p <:+: s := by
  induction cs generalizing s with
  | nil =>
    rw [List.mem_singleton.mp hp]
  | cons c cs ih =>
    obtain ⟨q, hq, hp⟩ := List.mem_flatMap.mp hp
    exact (ih (fun d hd => hcs d (List.mem_cons_of_mem c hd)) hp).trans
      (splitAll_inside (hcs c List.mem_cons_self) hq)

theorem not_infix_of_leftover (hcs : ∀ c ∈ cs, c ≠ []) (hp : p ∈ leftover cs s) (hc : c ∈ cs) : ¬c <:+: p := by
  induction cs generalizing s with
  | nil => cases hc
  | cons d cs ih =>
    obtain ⟨q, hq, hpq⟩ := List.mem_flatMap.mp hp
    have hrest : ∀ c ∈ cs, c ≠ [] := fun d' hd' => hcs d' (List.mem_cons_of_mem d hd')
    rcases List.mem_cons.mp hc with rfl | hc
    · intro hinside
      exact not_infix_of_mem_splitAll (hcs c List.mem_cons_self) hq (hinside.trans (infix_of_leftover hrest hpq))
    · exact ih hrest hpq hc

theorem leftover_of_absent (h : ∀ c ∈ cs, ¬c <:+: s) : leftover cs s = [s] := by
  induction cs with
  | nil => rfl
  | cons c cs ih =>
    rw [List.forall_mem_cons] at h
    have hc : c ≠ [] := by
      rintro rfl
      exact h.1 List.nil_infix
    rw [leftover, splitAll_none hc (cut_eq_none_iff.mpr h.1), List.flatMap_singleton, ih h.2]

/-- A string that is among those cut out and contains no earlier one is cut out as a whole. -/
theorem leftover_own {before after : List (List α)} (hc : c ≠ []) (hbefore : ∀ d ∈ before, ¬d <:+: c)
    (hafter : ∀ d ∈ after, d ≠ []) : ∀ piece ∈ leftover (before ++ c :: after) c, piece = [] := by
  induction before with
  | nil =>
    have hnil : leftover after [] = [[]] := leftover_of_absent fun d hd => by simpa using hafter d hd
    simp [leftover, splitAll_self hc, hnil]
  | cons d before ih =>
    rw [List.forall_mem_cons] at hbefore
    have hd : d ≠ [] := by
      rintro rfl
      exact hbefore.1 List.nil_infix
    rw [List.cons_append, leftover, splitAll_none hd (cut_eq_none_iff.mpr hbefore.1), List.flatMap_singleton]
    exact ih hbefore.2

/-- A string that is apart from the markers occurs in a woven string only inside a piece. -/
theorem Woven.infix_piece (hM : ∀ m ∈ M, m ≠ []) (hc : ∀ m ∈ M, Apart m c) (h : Woven M xs s) (hs : c <:+: s) :
    ∃ x ∈ xs, c <:+: x := by
  induction h with
  | one x => exact ⟨x, List.mem_singleton_self x, hs⟩
  | @cons xs s x m hm _ ih =>
    rcases infix_append_apart (hc m hm) (hM m hm) hs with hx | hs
    · exact ⟨x, List.mem_cons_self, hx⟩
    · obtain ⟨y, hy, hs⟩ := ih hs
      exact ⟨y, List.mem_cons_of_mem x hy, hs⟩

/-! ### Only markers -/

/-- Markers that can be told apart and whose first symbol is `b`. -/
structure Markers (M : List (List α)) (b : α) : Prop where
  head : ∀ m ∈ M, ∃ m', m = b :: m'
  free : ∀ m ∈ M, ∀ n ∈ M, m <+: n → m = n

omit [DecidableEq α] in
/-- A woven string consists of markers exactly when its pieces are empty. -/
theorem Woven.only_markers {b : α} (hM : Markers M b) (h : Woven M xs s) (hxs : ∀ x ∈ xs, b ∉ x) :
    (∃ ms : List (List α), (∀ m ∈ ms, m ∈ M) ∧ s = ms.flatten) ↔ ∀ x ∈ xs, x = [] := by
  induction h with
  | one x =>
    rw [List.forall_mem_singleton] at hxs ⊢
    constructor
    · rintro ⟨ms, hms, rfl⟩
      cases ms with
      | nil => rfl
      | cons m ms =>
        obtain ⟨m', rfl⟩ := hM.head m (hms m List.mem_cons_self)
        simp at hxs
    · rintro rfl
      exact ⟨[], by simp, rfl⟩
  | @cons xs s x m hm _ ih =>
    rw [List.forall_mem_cons] at hxs ⊢
    rw [← ih hxs.2]
    constructor
    · rintro ⟨ms, hms, heq⟩
      cases ms with
      | nil =>
        obtain ⟨m', rfl⟩ := hM.head m hm
        simp at heq
      | cons n ms =>
        rw [List.forall_mem_cons] at hms
        obtain ⟨n', hn⟩ := hM.head n hms.1
        have hx : x = [] := by
          cases x with
          | nil => rfl
          | cons a x =>
            rw [hn, List.flatten_cons, List.cons_append, List.cons_append, List.cons.injEq] at heq
            exact absurd (heq.1 ▸ List.mem_cons_self) hxs.1
        rw [hx, List.nil_append, List.flatten_cons] at heq
        -- Of two markers at the front of one string, one begins with the other.
        have hmn : m = n := by
          rcases List.prefix_or_prefix_of_prefix (List.prefix_append m s) (heq ▸ List.prefix_append n _) with h | h
          · exact hM.free m hm n hms.1 h
          · exact (hM.free n hms.1 m hm h).symm
        subst hmn
        exact ⟨hx, ms, hms.2, List.append_cancel_left heq⟩
    · rintro ⟨rfl, ms, hms, rfl⟩
      exact ⟨m :: ms, List.forall_mem_cons.mpr ⟨hm, hms⟩, by simp⟩

end Onprest.Lib
