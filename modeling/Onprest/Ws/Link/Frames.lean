import Onprest.Ws.Local.Step

/-! Counting and ordering the frames of one transfer on a channel. -/

namespace Onprest.Ws
open Lib Protocol

/-- The frame is of kind `k` and belongs to the transfer `id`. -/
def isFor (k : FrameType) (id : String) (f : Frame) : Bool := f.type = k && f.transferID = id

/-- The number of frames of kind `k` of a transfer. -/
def count (k : FrameType) (id : String) (l : List Frame) : ℤ := (l.countP (isFor k id) : ℕ)

/-- The frames of kind `k` of a transfer are numbered from `n` on. -/
def Numbered (k : FrameType) (id : String) : ℤ → List Frame → Prop
  | _, [] => True
  | n, f :: l => if isFor k id f then f.sequence = n ∧ Numbered k id (n + 1) l else Numbered k id n l

/-- A frame with stream content: a chunk or the end. -/
def isData (id : String) (f : Frame) : Bool := isFor .transferChunk id f || isFor .transferEnd id f

/-- Nothing of the stream follows its end. -/
def EndLast (id : String) (l : List Frame) : Prop :=
  l.Pairwise fun f g => isFor .transferEnd id f = true → isData id g = false

variable {k : FrameType} {id : String} {l : List Frame} {f : Frame} {n : ℤ}

theorem isFor_iff : isFor k id f = true ↔ f.type = k ∧ f.transferID = id := by
  simp [isFor]

theorem isFor_kind {k' : FrameType} (hk : f.type = k') (hne : k' ≠ k) : isFor k id f = false := by
  simp [isFor, hk, hne]

theorem count_nonneg (k : FrameType) (id : String) (l : List Frame) : 0 ≤ count k id l :=
  Int.natCast_nonneg _

@[simp] theorem count_nil : count k id [] = 0 := rfl

theorem count_append (l m : List Frame) : count k id (l ++ m) = count k id l + count k id m := by
  simp [count]

theorem count_cons (f : Frame) (l : List Frame) :
    count k id (f :: l) = count k id l + if isFor k id f then 1 else 0 := by
  cases h : isFor k id f <;> simp [count, h]

theorem Numbered.cons_self (hf : isFor k id f = true) :
    Numbered k id n (f :: l) ↔ f.sequence = n ∧ Numbered k id (n + 1) l := by
  rw [Numbered, if_pos hf]

theorem Numbered.cons_other (hf : isFor k id f = false) :
    Numbered k id n (f :: l) ↔ Numbered k id n l := by
  rw [Numbered, if_neg (by simp [hf])]

variable {m : List Frame}

theorem Numbered.append (h : Numbered k id n l) (hm : Numbered k id (n + count k id l) m) :
    Numbered k id n (l ++ m) := by
  induction l generalizing n with
  | nil => simpa using hm
  | cons f l ih =>
    rw [List.cons_append]
    cases hf : isFor k id f with
    | true =>
      rw [Numbered.cons_self hf] at h ⊢
      refine ⟨h.1, ih h.2 ?_⟩
      rw [count_cons, hf, if_pos rfl] at hm
      rwa [add_assoc, add_comm 1]
    | false =>
      rw [Numbered.cons_other hf] at h ⊢
      rw [count_cons, hf, if_neg (by decide), add_zero] at hm
      exact ih h hm

theorem EndLast.append (h : EndLast id l) (hm : EndLast id m)
    (hend : l.any (isFor .transferEnd id) = true → ∀ f ∈ m, isData id f = false) : EndLast id (l ++ m) :=
  List.pairwise_append.mpr ⟨h, hm, fun f hf g hg he => hend (List.any_eq_true.mpr ⟨f, hf, he⟩) g hg⟩

/-- The frame in the middle of a numbered channel carries the number of the frames before it. -/
theorem Numbered.sequence (h : Numbered k id n (l ++ f :: m)) (hf : isFor k id f = true) :
    f.sequence = n + count k id l := by
  induction l generalizing n with
  | nil => simpa using ((Numbered.cons_self hf).mp h).1
  | cons g l ih =>
    rw [List.cons_append] at h
    cases hg : isFor k id g with
    | true =>
      rw [ih ((Numbered.cons_self hg).mp h).2, count_cons, hg, if_pos rfl]
      omega
    | false =>
      rw [ih ((Numbered.cons_other hg).mp h), count_cons, hg, if_neg (by decide), add_zero]

/-- Before a frame of the stream there is no end. -/
theorem EndLast.none_before (h : EndLast id (l ++ f :: m)) (hf : isData id f = true) :
    l.any (isFor .transferEnd id) = false := by
  rw [List.any_eq_false]
  intro g hg hend
  have hlast := (List.pairwise_append.mp h).2.2 g hg f (List.mem_cons_self ..)
  exact absurd (hlast hend) (by simp [hf])

/-- The frame grants the initial credit of the transfer `id`. -/
def grantsFor (id : String) (f : Frame) : Bool := f.isGrant && f.transferID = id

end Onprest.Ws
