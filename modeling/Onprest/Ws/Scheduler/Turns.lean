import Onprest.Ws.Scheduler.Answers

/-! Turns: normal and transfer jobs alternate while both wait, and a waiting transfer has its turn after at most one
job of each other transfer. -/

namespace Onprest.Ws.Scheduler
open Lib

/-! ### Alternation -/

/-- The last job taken from another lane than the control lane was a normal one. -/
def lastNormalOf : List Event → Bool
  | [] => false
  | .took j _ :: earlier =>
    match j.lane with
    | .control => lastNormalOf earlier
    | .normal => true
    | .transfer _ => false
  | .posted _ :: earlier => lastNormalOf earlier
  | .ran _ :: earlier => lastNormalOf earlier
  | .answered _ _ :: earlier => lastNormalOf earlier

/-- While both wait, a normal job is taken exactly when the last one was not normal. -/
def Alternates : Event → List Event → Prop
  | .took j true, earlier => j.lane = .control ∨ (j.lane = .normal ↔ lastNormalOf earlier = false)
  | _, _ => True

structure Turns (s : Sched) : Prop where
  last : s.lastNormal = lastNormalOf s.history
  history : Causal Alternates s.history

theorem lastNormalOf_answered (a : Answer) (js : List Job) (history : List Event) :
    lastNormalOf ((js.map fun j => Event.answered j a).reverse ++ history) = lastNormalOf history := by
  rw [← List.map_reverse]
  induction js.reverse with
  | nil => rfl
  | cons j js ih => exact ih

variable {s t u : Sched} {j : Job} {id : String} {ahead : List String} {recent : List Event}

theorem turns_took (hsorted : Sorted s) (hs : Turns s) (hframe : Frame s t j) (hpick : Pick s t j) : Turns t := by
  cases hpick with
  | control taken others order last =>
    have hlane : j.lane = .control := hsorted.front (l := .control) taken
    refine ⟨?_, ?_⟩
    · rw [last, hframe.history, lastNormalOf, hlane, hs.last]
    · rw [hframe.history]
      refine ⟨?_, hs.history⟩
      cases s.both
      · trivial
      · exact .inl hlane
  | normal taken others turn order last =>
    have hlane : j.lane = .normal := hsorted.front (l := .normal) taken
    refine ⟨?_, ?_⟩
    · rw [last, hframe.history, lastNormalOf, hlane]
    · rw [hframe.history]
      refine ⟨?_, hs.history⟩
      cases hboth : s.both with
      | false => trivial
      | true =>
        have horder : s.order ≠ [] := by
          simp only [Sched.both, Bool.and_eq_true, decide_eq_true_iff] at hboth
          exact hboth.2
        exact .inr (iff_of_true hlane (hs.last ▸ turn.resolve_left horder))
  | transfer id rest taken others turn first order last =>
    have hlane : j.lane = .transfer id := hsorted.front taken
    refine ⟨?_, ?_⟩
    · rw [last, hframe.history, lastNormalOf, hlane]
    · rw [hframe.history]
      refine ⟨?_, hs.history⟩
      cases hboth : s.both with
      | false => trivial
      | true =>
        have hnormal : s.normal ≠ [] := by
          simp only [Sched.both, Bool.and_eq_true, decide_eq_true_iff] at hboth
          exact hboth.1
        have hlast : lastNormalOf s.history = true := hs.last ▸ turn.resolve_left hnormal
        exact .inr (iff_of_false (by simp [hlane]) (by simp [hlast]))

theorem turns_effect (hsorted : Sorted s) (hs : Turns s) (h : Effect s t) : Turns t := by
  rcases h.lanes with ⟨j, h⟩ | ⟨j, -, hframe, hpick⟩ | ⟨ids, -, -, rfl⟩ | h
  · refine ⟨?_, ?_⟩
    · rw [h.last, h.history, hs.last]
      rfl
    · rw [h.history]
      exact ⟨trivial, hs.history⟩
  · exact turns_took hsorted hs hframe hpick
  · refine ⟨?_, causal_answered (fun _ _ => trivial) hs.history _⟩
    simp only [Sched.drain]
    rw [lastNormalOf_answered, hs.last]
  · rcases h.history with heq | ⟨e, heq, hposts, htakes⟩
    · exact ⟨by rw [h.last, heq, hs.last], heq ▸ hs.history⟩
    · refine ⟨?_, ?_⟩
      · rw [h.last, heq, hs.last]
        cases e with
        | posted j => rfl
        | took j both => exact absurd rfl (htakes j both)
        | ran j => rfl
        | answered j a => rfl
      · rw [heq]
        cases e with
        | posted j | ran j | answered j a => exact ⟨trivial, hs.history⟩
        | took j both => exact absurd rfl (htakes j both)

/-! ### A waiting transfer -/

/-- The transfers that had their turn, the newest first. -/
def turnsOf (history : List Event) : List String :=
  history.filterMap fun
    | .took j _ =>
      match j.lane with
      | .transfer id => some id
      | _ => none
    | _ => none

/-- The number of normal jobs taken. -/
def normalsOf (history : List Event) : ℕ :=
  history.countP fun
    | .took j _ => j.lane = .normal
    | _ => false

/-- Since a state in which `ahead` stood before `id` in the order, the transfers of `ahead` have had their turns from
the front, each one once, with at most one normal job before each. -/
structure Waits (s : Sched) (id : String) (ahead : List String) (recent : List Event) (t : Sched) : Prop where
  history : t.history = recent ++ s.history
  turns : ∃ left, ahead = (turnsOf recent).reverse ++ left ∧
    (t.phase ≠ .done → ∃ behind, t.order = left ++ id :: behind)
  normals : normalsOf recent + s.lastNormal.toNat ≤ (turnsOf recent).length + t.lastNormal.toNat

theorem turnsOf_answered (js : List Job) (a : Answer) (history : List Event) :
    turnsOf ((js.map fun j => Event.answered j a).reverse ++ history) = turnsOf history := by
  rw [turnsOf, List.filterMap_append, ← List.map_reverse, List.filterMap_map]
  simp [turnsOf]

theorem normalsOf_answered (js : List Job) (a : Answer) (history : List Event) :
    normalsOf ((js.map fun j => Event.answered j a).reverse ++ history) = normalsOf history := by
  rw [normalsOf, List.countP_append, ← List.map_reverse, List.countP_map]
  simp [normalsOf, Function.comp_def]

theorem history_effect (h : Effect s t) : ∃ new, t.history = new ++ s.history := by
  rcases h.lanes with ⟨j, hp⟩ | ⟨j, -, hframe, -⟩ | ⟨ids, -, -, rfl⟩ | hsame
  · exact ⟨[_], hp.history⟩
  · exact ⟨[_], hframe.history⟩
  · exact ⟨_, rfl⟩
  · rcases hsame.history with heq | ⟨e, heq, -⟩
    · exact ⟨[], heq⟩
    · exact ⟨[e], heq⟩

theorem waits_took (hsorted : Sorted t) (h : Waits s id ahead recent t) (hphase : t.phase = .looking)
    (hframe : Frame t u j) (hpick : Pick t u j) (hnot : id ∉ turnsOf (.took j t.both :: recent)) :
    Waits s id ahead (.took j t.both :: recent) u := by
  obtain ⟨left, hahead, horder⟩ := h.turns
  obtain ⟨behind, horder⟩ := horder (by simp [hphase])
  have hnormals := h.normals
  have hhistory : u.history = .took j t.both :: recent ++ s.history := by rw [hframe.history, h.history]; rfl
  cases hpick with
  | control taken others order last =>
    have hlane : j.lane = .control := hsorted.front (l := .control) taken
    refine ⟨hhistory, ⟨left, by simpa [turnsOf, hlane] using hahead, fun _ => ⟨behind, order ▸ horder⟩⟩, ?_⟩
    rw [last]
    simpa [turnsOf, normalsOf, hlane] using hnormals
  | normal taken others turn order last =>
    have hlane : j.lane = .normal := hsorted.front (l := .normal) taken
    have hlast : t.lastNormal = false := turn.resolve_left (by simp [horder])
    refine ⟨hhistory, ⟨left, by simpa [turnsOf, hlane] using hahead, fun _ => ⟨behind, order ▸ horder⟩⟩, ?_⟩
    rw [hlast] at hnormals
    simp only [normalsOf, turnsOf] at hnormals
    simp [turnsOf, normalsOf, hlane, last] at hnormals ⊢
    omega
  | transfer id' rest taken others turn first order last =>
    have hlane : j.lane = .transfer id' := hsorted.front taken
    rw [first] at horder
    cases left with
    | nil =>
      obtain ⟨rfl, -⟩ := List.cons.inj horder
      simp [turnsOf, hlane] at hnot
    | cons id'' left =>
      obtain ⟨rfl, hrest⟩ := List.cons.inj horder
      refine ⟨hhistory, ⟨left, by simpa [turnsOf, hlane] using hahead, fun _ => ?_⟩, ?_⟩
      · rw [order]
        split
        · exact ⟨behind, hrest⟩
        · exact ⟨behind ++ [id'], by simp [hrest]⟩
      · rw [last]
        have hflag := t.lastNormal.toNat_le
        simp only [normalsOf, turnsOf] at hnormals
        simp [turnsOf, normalsOf, hlane] at hnormals ⊢
        omega

theorem waits_effect (hsorted : Sorted t) (h : Waits s id ahead recent t) (heffect : Effect t u) :
    ∃ recent', u.history = recent' ++ s.history ∧ (id ∉ turnsOf recent' → Waits s id ahead recent' u) := by
  obtain ⟨left, hahead, horder⟩ := h.turns
  rcases heffect.lanes with ⟨j, hp⟩ | ⟨j, hphase, hframe, hpick⟩ | ⟨ids, -, -, rfl⟩ | hsame
  · have hhistory : u.history = .posted j :: recent ++ s.history := by rw [hp.history, h.history]; rfl
    refine ⟨.posted j :: recent, hhistory, fun _ => ⟨hhistory, ⟨left, hahead, ?_⟩, hp.last ▸ h.normals⟩⟩
    intro hdone
    obtain ⟨behind, horder⟩ := horder (hp.phase ▸ hdone)
    rcases hp.order with ⟨heq, -⟩ | ⟨id', -, -, heq⟩
    · exact ⟨behind, heq ▸ horder⟩
    · exact ⟨behind ++ [id'], by simp [heq, horder]⟩
  · refine ⟨.took j t.both :: recent, by rw [hframe.history, h.history]; rfl, ?_⟩
    exact waits_took hsorted h hphase hframe hpick
  · have hhistory : (t.drain ids).history =
        ((t.waiting ids).map fun j => .answered j (.drained t.failed)).reverse ++ recent ++ s.history := by
      simp [Sched.drain, h.history]
    refine ⟨_, hhistory, fun _ => ⟨hhistory, ⟨left, ?_, fun hdone => absurd rfl hdone⟩, ?_⟩⟩
    · rw [turnsOf_answered]
      exact hahead
    · rw [turnsOf_answered, normalsOf_answered]
      exact h.normals
  · rcases hsame.history with heq | ⟨e, heq, hposts, htakes⟩
    · have hhistory : u.history = recent ++ s.history := by rw [heq, h.history]
      refine ⟨recent, hhistory, fun _ => ⟨hhistory, ⟨left, hahead, ?_⟩, hsame.last ▸ h.normals⟩⟩
      intro hdone
      obtain ⟨behind, horder⟩ := horder fun hp => hdone (hsame.done hp)
      exact ⟨behind, hsame.order ▸ horder⟩
    · have hhistory : u.history = e :: recent ++ s.history := by rw [heq, h.history]; rfl
      have hturns : turnsOf (e :: recent) = turnsOf recent ∧ normalsOf (e :: recent) = normalsOf recent := by
        cases e with
        | posted j | ran j | answered j a => exact ⟨rfl, rfl⟩
        | took j both => exact absurd rfl (htakes j both)
      refine ⟨e :: recent, hhistory, fun _ => ⟨hhistory, ⟨left, hturns.1 ▸ hahead, ?_⟩, ?_⟩⟩
      · intro hdone
        obtain ⟨behind, horder⟩ := horder fun hp => hdone (hsame.done hp)
        exact ⟨behind, hsame.order ▸ horder⟩
      · rw [hturns.1, hturns.2, hsame.last]
        exact h.normals

/-- As long as a waiting transfer has had no turn, the other turns are among those that stood before it. -/
theorem waits_run {behind : List String} {as : List Act} (hs : Ordered s) (hsorted : Sorted s)
    (horder : s.order = ahead ++ id :: behind) (hrun : scheduler.run s as = some t) :
    ∃ recent, t.history = recent ++ s.history ∧ (id ∉ turnsOf recent → Waits s id ahead recent t) := by
  have hstart : Waits s id ahead [] s := ⟨rfl, ⟨ahead, rfl, fun _ => ⟨behind, horder⟩⟩, by simp [normalsOf, turnsOf]⟩
  have hkeep := run_effect (I := fun t => Sorted t ∧ ∃ recent, t.history = recent ++ s.history ∧
    (id ∉ turnsOf recent → Waits s id ahead recent t)) ?_ hs ⟨hsorted, [], rfl, fun _ => hstart⟩ hrun
  · exact hkeep.2.2
  · rintro t u - ⟨ht, recent, hhistory, hwaits⟩ heffect
    refine ⟨sorted_effect ht heffect, ?_⟩
    by_cases hnot : id ∈ turnsOf recent
    · -- Its turn stays in the history.
      obtain ⟨new, hnew⟩ := history_effect heffect
      refine ⟨new ++ recent, by rw [hnew, hhistory, List.append_assoc], fun hturn => absurd ?_ hturn⟩
      rw [turnsOf, List.filterMap_append]
      exact List.mem_append_right _ hnot
    · exact waits_effect ht (hwaits hnot) heffect

end Onprest.Ws.Scheduler
