import Onprest.Filesystem.Write

/-! Publishing a temporary file: whatever fails and wherever a crash stops it, the destination shows what it showed
before or the whole temporary file, and nothing else changes. Removing one takes nothing but that file. -/

namespace Onprest.Filesystem

open Onprest.Lib.Crash
open Onprest.Lib.Crash.Prog

section
variable {α : Type} {h : Host} {d : Identity} {n temp : Name} {Q : α → Disk → Prop} {U : Unit → Disk → Prop}
  {E : Err → Disk → Prop} {C : Disk → Prop} {k : Disk} {temporary : FileIdentity}

/-! ### Calls that change nothing -/

theorem wp_ask {f : Disk → Except Err α} (hQ : ∀ a, f k = .ok a → Q a k)
    (hE : ∀ e, f k = .error e ∨ e = [.os] → E e k) (hC : C k) : wp (ask f) Q E C k := by
  refine wp_step ?_ ?_ (fun _ => hE _ (.inr rfl)) hC
  · intro _ a _ hw
    rw [Prod.mk.injEq] at hw
    exact hw.2 ▸ hQ a hw.1
  · intro _ e _ hw
    rw [Prod.mk.injEq] at hw
    exact hw.2 ▸ hE e (.inl hw.1)

theorem wp_close (hU : U () k) (hE : ∀ e, E e k) (hC : C k) : wp close U E C k :=
  wp_ask (fun _ _ => hU) (fun e _ => hE e) hC

theorem wp_openBelow {Q : Identity → Disk → Prop} (hQ : ∀ i, k.now d n = some i → Q i k)
    (hE : ∀ e, (e = [.notExist] → k.now d n = none) → E e k) (hC : C k) : wp (openBelow d n) Q E C k := by
  cases hnow : k.now d n with
  | none => exact wp_ask (fun i hi => by simp [hnow] at hi) (fun e _ => hE e fun _ => hnow) hC
  | some j =>
    refine wp_ask (fun i hi => hQ i ?_) (fun e he => hE e ?_) hC
    · simpa [hnow] using hi
    · rintro rfl
      simp [hnow] at he

variable {i : Identity} {overwrite : Bool} {expected : Option FileIdentity} {e : Option Err} {k' : Disk}
  {answer : Option (Bool × Option Err)}

theorem wp_inspectRegular {p : Bool} {Q : FileIdentity → Disk → Prop} (hQ : ∀ f, k.files i = some f →
      f.regular = true ∧ f.links = 1 → (p = true → privateTemp h f = true) → Q (f.identify i) k)
    (hE : ∀ e, E e k) (hC : C k) : wp (inspectRegular h i p) Q E C k := by
  refine wp_ask (fun v hv => ?_) (fun e _ => hE e) hC
  split at hv
  · cases hv
  · rename_i f hf
    split_ifs at hv with hregular hprivate
    cases hv
    exact hQ f hf (by simpa using hregular) (by simpa using hprivate)

theorem wp_look {p : Bool} {Q : FileIdentity → Disk → Prop} (hQ : ∀ v, v.identity = i → Q v k) (hE : ∀ e, E e k)
    (hC : C k) : wp (do let v ← inspectRegular h i p; close; pure v) Q E C k := by
  exact wp_bind (wp_inspectRegular (fun f _ _ _ => wp_bind (wp_close (wp_pure (hQ _ rfl)) hE hC)) hE hC)

theorem wp_verify (hU : k.now d n = some temporary.identity → U () k) (hE : ∀ e, E e k) (hC : C k) :
    wp (verify h d n temporary) U E C k := by
  refine wp_bind (wp_attempt (wp_openBelow (fun i hi => ?_) (fun e _ => wp_fail (hE _)) hC))
  refine wp_bind (wp_attempt (wp_look (fun v hv => ?_) (fun e => wp_fail (hE _)) hC))
  dsimp only
  split
  · exact wp_fail (hE _)
  · rename_i hne
    rw [not_or, not_not, hv] at hne
    exact wp_pure (hU (hne.1 ▸ hi))

/-! ### Calls that change the disk -/

theorem wp_change {f : ℕ → Disk → Except Err Disk} (hU : ∀ t k', f t k = .ok k' → U () k') (hE : ∀ e, E e k)
    (hC : C k) : wp (change f) U E C k := by
  refine wp_step ?_ ?_ (fun _ => hE _) hC
  · intro t _ w' hw
    cases hf : f t k with
    | ok k' =>
      simp only [hf, Prod.mk.injEq] at hw
      exact hw.2 ▸ hU t k' hf
    | error e => simp [hf] at hw
  · intro t e w' hw
    cases hf : f t k with
    | ok k' => simp [hf] at hw
    | error e =>
      simp only [hf, Prod.mk.injEq] at hw
      exact hw.2 ▸ hE _

/-- The file of `a` is now under `b`, and what was under `b` is under `a`. -/
def Moved (k : Disk) (d : Identity) (a b : Name) (k' : Disk) : Prop := ∃ is t, k' = (k.exchange d a b).stamp is t

theorem wp_renameExclusive (hU : ∀ k', Moved k d temp n k' → U () k') (hE : ∀ e, E e k) (hC : C k) :
    wp (renameExclusive d temp n) U E C k := by
  refine wp_change (fun t k' hk => ?_) hE hC
  split at hk
  · cases hk
  · split at hk
    · cases hk
    · exact hU k' ⟨_, t, (Except.ok.inj hk).symm⟩

theorem wp_renameExchange (hU : ∀ k', Moved k d temp n k' → U () k') (hE : ∀ e, E e k) (hC : C k) :
    wp (renameExchange d temp n) U E C k := by
  refine wp_change (fun t k' hk => ?_) hE hC
  split at hk
  · exact hU k' ⟨_, t, (Except.ok.inj hk).symm⟩
  · cases hk

theorem wp_publishBelow {Q : Bool × Option Err → Disk → Prop} (hno : ∀ e, Q (false, some e) k) (hC : C k)
    (hyes : ∀ k', Moved k d temp n k' → C k' ∧ ∀ e, Q (true, e) k') :
    wp (publishBelow h d temp n overwrite expected) Q E C k := by
  rw [publishBelow.eq_def]
  split
  · rename_i x
    split
    · exact wp_pure (hno _)
    refine wp_bind (wp_attempt (wp_bind (wp_openBelow (fun i _ => ?_) (fun e _ => wp_pure (hno _)) hC)))
    refine wp_look (fun v _ => ?_) (fun e => wp_pure (hno _)) hC
    dsimp only
    split
    · exact wp_pure (hno _)
    refine wp_bind (wp_attempt (wp_renameExchange (fun k' hmoved => ?_) (fun e => wp_pure (hno _)) hC))
    obtain ⟨hcrash, hdone⟩ := hyes k' hmoved
    refine wp_bind (wp_attempt (wp_openBelow (fun j _ => ?_) (fun e _ => wp_pure (hdone _)) hcrash))
    refine wp_bind (wp_attempt (wp_look (fun w _ => ?_) (fun e => wp_pure (hdone _)) hcrash))
    dsimp only
    split <;> exact wp_pure (hdone _)
  · refine wp_bind (wp_attempt (wp_renameExclusive (fun k' hmoved => ?_) (fun e => wp_pure (hno _)) hC))
    exact wp_pure ((hyes k' hmoved).2 _)

/-- An installed file is reported without an error only after the directory was synced. -/
theorem wp_confirm {Q : Option Err → Disk → Prop} (hQ : ∀ e, Q (some e) k)
    (hsync : Q none (k.syncFolder d)) (hC : C k) :
    wp (confirm h d n temporary e) Q E C k := by
  cases e with
  | some e => exact wp_pure (hQ _)
  | none =>
    refine wp_bind (wp_attempt (wp_bind (wp_verify (fun _ => ?_) (fun e => wp_pure (hQ _)) hC)))
    refine wp_change (fun _ k' hk => ?_) (fun e => wp_pure (hQ _)) hC
    cases hk
    exact wp_pure hsync

theorem wp_releasePin {Q : Bool × Option Err → Disk → Prop} (hQ : Q (true, e) k) (hE : ∀ e, Q (true, some e) k)
    (hC : C k) : wp (releasePin true e) Q E C k :=
  wp_bind (wp_attempt (wp_close (wp_pure hQ) (fun _ => wp_pure (hE _)) hC))

/-- Publishing either leaves the disk as it is and says so, or has moved the temporary file, which it found under its
name, to the destination. -/
theorem wp_publish {Q : Bool × Option Err → Disk → Prop} (hno : ∀ e, Q (false, some e) k) (hC : C k)
    (hyes : k.now d temp = some temporary.identity → ∀ k', Moved k d temp n k' → (C k' ∧ ∀ e, Q (true, some e) k') ∧
      C (k'.syncFolder d) ∧ ∀ e, Q (true, e) (k'.syncFolder d)) :
    wp (publish h d temp n overwrite temporary expected) Q E C k := by
  have hctx {U : Unit → Disk → Prop} {E : Err → Disk → Prop} (hU : U () k) (hE : E [.canceled] k) :
      wp ctxErr U E C k := by
    refine wp_step ?_ ?_ (fun _ => hE) hC
    · rintro _ _ _ ⟨⟩
      exact hU
    · rintro _ _ _ ⟨⟩
  refine wp_bind (wp_attempt (wp_bind (hctx ?_ (wp_pure (hno _)))))
  split
  · exact wp_fail (wp_pure (hno _))
  refine wp_bind (wp_ofExcept (fun _ hname => ?_) (fun e _ => wp_pure (hno _)))
  refine wp_bind (wp_verify (fun hat => ?_) (fun e => wp_pure (hno _)) hC)
  refine wp_close ?_ (fun e => wp_pure (hno _)) hC
  refine wp_bind (wp_publishBelow (fun e => wp_bind (wp_pure (wp_pure (hno e)))) hC fun k' hk' => ?_)
  obtain ⟨⟨hcrash, hdone⟩, hcrash', hdone'⟩ := hyes hat k' hk'
  refine ⟨hcrash, fun e => wp_bind (wp_confirm (fun e => ?_) ?_ hcrash)⟩
  · exact wp_releasePin (hdone e) hdone hcrash
  · exact wp_releasePin (hdone' none) (fun e => hdone' _) hcrash'

/-! ### What is left on the disk -/

/-- What publishing may change: the destination names the temporary file, and the temporary name what the destination
named. -/
def Swapped (k : Disk) (d : Identity) (temp n : Name) (i c : Identity) (m : Name) (x : Option Identity) : Prop :=
  c = d ∧ (m = n ∧ x = some i ∨ m = temp ∧ x = k.now d n)

theorem Moved.now (hk : Moved k d temp n k') :
    k'.now d = Function.update (Function.update (k.now d) temp (k.now d n)) n (k.now d temp) := by
  obtain ⟨is, t, rfl⟩ := hk
  change (k.exchange d temp n).now d = _
  rw [Disk.exchange, Disk.relink_now]

theorem Moved.kept (hk : Moved k d temp n k') (hi : k.now d temp = some i) :
    Disk.Kept k (Swapped k d temp n i) False k' := by
  obtain ⟨is, t, rfl⟩ := hk
  refine (Disk.Kept.refl.relink fun m => ?_).stamp is t
  by_cases hn : m = n
  · rw [hn, Function.update_self]
    exact .inr ⟨rfl, .inl ⟨rfl, hi⟩⟩
  · rw [Function.update_of_ne hn]
    by_cases ht : m = temp
    · rw [ht, Function.update_self]
      exact .inr ⟨rfl, .inr ⟨rfl, rfl⟩⟩
    · rw [Function.update_of_ne ht]
      exact .inl rfl

/-- How publishing leaves the disk when it returns or, without an answer, when a crash stops it. -/
structure Left (k : Disk) (d : Identity) (temp n : Name) (i : Identity)
    (answer : Option (Bool × Option Err)) (k' : Disk) :
    Prop where
  kept : Disk.Kept k (Swapped k d temp n i) False k'
  refused : ∀ e, answer = some (false, e) → e ≠ none ∧ k' = k
  installed : ∀ e, answer = some (true, e) → k'.now d n = some i
  synced : answer = some (true, none) → ∀ v ∈ (k'.folders d).versions, v n = some i

theorem left_self (ha : ∀ a, answer = some a → a.1 = false ∧ a.2 ≠ none) : Left k d temp n i answer k where
  kept := .refl
  refused _ he := ⟨(ha _ he).2, rfl⟩
  installed _ he := absurd (ha _ he).1 nofun
  synced he := absurd (ha _ he).1 nofun

theorem left_moved (hi : k.now d temp = some i) (hk : Moved k d temp n k')
    (ha : ∀ a, answer = some a → a.1 = true ∧ a.2 ≠ none) : Left k d temp n i answer k' where
  kept := hk.kept hi
  refused _ he := absurd (ha _ he).1 nofun
  installed _ _ := by rw [hk.now, Function.update_self, hi]
  synced he := absurd rfl (ha _ he).2

theorem left_synced (hi : k.now d temp = some i) (hk : Moved k d temp n k')
    (ha : ∀ a, answer = some a → a.1 = true) :
    Left k d temp n i answer (k'.syncFolder d) where
  kept := (hk.kept hi).syncFolder
  refused _ he := absurd (ha _ he) nofun
  installed _ _ := by rw [Disk.syncFolder_now, hk.now, Function.update_self, hi]
  synced _ v hv := by rw [(Disk.mem_versions_syncFolder _ _ hv).2 rfl, hk.now, Function.update_self, hi]

/-- Whatever the system answers, wherever the machine stops and whatever of the directories and of unsynced files the
crash loses: every entry is as it was in a version from before, except that the destination may name the temporary
file and the temporary name what the destination named, and every synced file has its content. A refusal has changed
nothing. Success means that the destination names the temporary file in spite of any later crash, with the content it
was synced with. -/
theorem publish_crash_safe (h : Host) (d : Identity) (temp n : Name) (overwrite : Bool) (temporary : FileIdentity)
    (expected : Option FileIdentity) (k : Disk) (fs : List Fate) :
    let r := publish h d temp n overwrite temporary expected k fs
    (∀ loss, Disk.Kept k (Swapped k d temp n temporary.identity) True (r.2.1.crash loss)) ∧
    (∀ e, r.1 ≠ .failed e) ∧ (∀ e, r.1 = .done (false, e) → e ≠ none ∧ r.2.1 = k) ∧
    (∀ e, r.1 = .done (true, e) → r.2.1.now d n = some temporary.identity) ∧
    (r.1 = .done (true, none) → ∀ f, k.files temporary.identity = some f → f.synced = true →
      ∀ loss, (r.2.1.crash loss).content d n = some f.content) := by
  have hwp : wp (publish h d temp n overwrite temporary expected)
      (fun a => Left k d temp n temporary.identity (some a)) (fun _ _ => False)
        (Left k d temp n temporary.identity none)
      k := by
    refine wp_publish (fun e => left_self ?_) (left_self nofun) fun hi k' hk => ⟨⟨?_, fun e => ?_⟩, ?_, fun e => ?_⟩
    · rintro _ ⟨⟩
      exact ⟨rfl, nofun⟩
    · exact left_moved hi hk nofun
    · refine left_moved hi hk ?_
      rintro _ ⟨⟩
      exact ⟨rfl, nofun⟩
    · exact left_synced hi hk nofun
    · refine left_synced hi hk ?_
      rintro _ ⟨⟩
      rfl
  intro r
  obtain ⟨answer, hleft, hanswer, hfailed⟩ : ∃ answer, Left k d temp n temporary.identity answer r.2.1 ∧
      (∀ a, r.1 = .done a → answer = some a) ∧ ∀ e, r.1 ≠ .failed e := by
    obtain ⟨a, hr, hleft⟩ | ⟨e, -, hfalse⟩ | ⟨hr, hleft⟩ := run_of_wp hwp fs
    · exact ⟨some a, hleft, by simp [r, hr], by simp [r, hr]⟩
    · exact hfalse.elim
    · exact ⟨none, hleft, by simp [r, hr], by simp [r, hr]⟩
  refine ⟨fun loss => hleft.kept.crash loss, hfailed, fun e he => hleft.refused e (hanswer _ he),
    fun e he => hleft.installed e (hanswer _ he), fun hr f hf hsynced loss => ?_⟩
  have hnow : (r.2.1.crash loss).now d n = some temporary.identity := by
    refine hleft.synced (hanswer _ hr) _ ?_
    exact (Durable.mem_versions_crash ((r.2.1.crash loss).folders d).now_mem).2
  obtain ⟨f', hf', hcontent | hlost, -⟩ := (hleft.kept.crash loss).files _ f hf
  · rw [Disk.content, hnow, Option.bind_some, hf', Option.map_some, hcontent]
  · rw [hsynced] at hlost
    cases hlost.2

/-! ### Removing -/

theorem wp_unlinkBelow (hU : U () (k.unlink d n)) (hE : ∀ e, E e k) (hC : C k) : wp (unlinkBelow d n i) U E C k := by
  refine wp_bind (wp_openBelow (fun j _ => wp_bind (wp_close ?_ hE hC)) (fun e _ => hE e) hC)
  split
  · exact wp_fail (hE _)
  · refine wp_change (fun _ k' hk => ?_) hE hC
    cases hk
    exact hU

variable {ids : List FileIdentity} {emptyOnly : Bool} {f : File}

/-- A file that may be removed: a private one that is listed, or one that was displaced and is as it was. -/
structure Spent (h : Host) (ids : List FileIdentity) (emptyOnly : Bool) (i : Identity) (f : File) : Prop where
  regular : f.regular = true ∧ f.links = 1
  empty : emptyOnly = true → f.content = []
  known : privateTemp h f = true ∧ (ids = [] ∨ ∃ x ∈ ids, i = x.identity ∧ f.owner = x.owner) ∨
    ∃ x ∈ ids, (f.identify i).matchesDisplaced x = true

theorem spent_of_removable (hregular : f.regular = true ∧ f.links = 1)
    (hprivate : (emptyOnly || ids.isEmpty) = true → privateTemp h f = true)
    (hfirst : some i = ids.head?.map FileIdentity.identity → privateTemp h f = true)
    (hremovable : removable (f.identify i) ids emptyOnly = true) : Spent h ids emptyOnly i f := by
  simp only [removable, tempMatches, Bool.and_eq_true, Bool.or_eq_true, decide_eq_true_eq,
    List.any_eq_true] at hremovable
  obtain ⟨hsize, hids⟩ := hremovable
  refine ⟨hregular, fun he => ?_, ?_⟩
  · simpa [he, File.identify] using hsize
  · obtain hnil | ⟨x, hx, hsame, hhead | hdisplaced⟩ := hids
    · exact .inl ⟨hprivate (by simp [hnil]), .inl (List.isEmpty_iff.mp hnil)⟩
    · exact .inl ⟨hfirst (hhead ▸ congrArg some hsame.1), .inr ⟨x, hx, hsame⟩⟩
    · exact .inr ⟨x, hx, hdisplaced⟩

/-- What removing a temporary file may do to the disk: take away its entry, if the file may be removed. -/
def Cleared (h : Host) (k : Disk) (d : Identity) (n : Name) (ids : List FileIdentity) (emptyOnly : Bool) :
    Prop → Disk → Prop :=
  k.Kept fun c m x => c = d ∧ m = n ∧ x = none ∧ ∃ i f, k.now d n = some i ∧ k.files i = some f ∧
    Spent h ids emptyOnly i f

theorem cleared_unlink (hi : k.now d n = some i) (hf : k.files i = some f) (hspent : Spent h ids emptyOnly i f) :
    Cleared h k d n ids emptyOnly False (k.unlink d n) := by
  refine Disk.Kept.refl.relink fun m => ?_
  by_cases hm : m = n
  · rw [hm, Function.update_self]
    exact .inr ⟨rfl, rfl, rfl, i, f, hi, hf, hspent⟩
  · exact .inl (Function.update_of_ne hm ..)

/-- Whatever the system answers and wherever the machine stops, removing a temporary file takes no entry but its own,
and that only from a file that may be removed. Success means that the name is free. -/
theorem removeTemp_crash_safe (h : Host) (d : Identity) (n : Name) (ids : List FileIdentity)
    (emptyOnly : Bool) (k : Disk) (fs : List Fate) :
    let r := removeTemp h d n ids emptyOnly k fs
    (∀ loss, Cleared h k d n ids emptyOnly True (r.2.1.crash loss)) ∧ (r.1 = .done () → r.2.1.now d n = none) := by
  let I := Cleared h k d n ids emptyOnly False
  have hself : I k := .refl
  have hwp : wp (removeTemp h d n ids emptyOnly) (fun _ k' => k'.now d n = none ∧ I k') (fun _ => I) I k := by
    unfold removeTemp
    split
    · exact wp_fail hself
    refine wp_bind (wp_attempt (wp_openBelow (fun i hi => ?_) (fun e he => ?_) hself))
    · refine wp_bind (wp_inspectRegular (fun f hf hregular hprivate => ?_) (fun _ => hself) hself)
      split
      · exact wp_fail hself
      rename_i hremovable
      rw [Bool.not_eq_true, Bool.not_eq_false'] at hremovable
      have hunlink (hfirst : some i = ids.head?.map FileIdentity.identity → privateTemp h f = true) :
          wp (do unlinkBelow d n i; close; close) (fun _ k' => k'.now d n = none ∧ I k') (fun _ => I) I k := by
        have hkept : I (k.unlink d n) :=
          cleared_unlink hi hf (spent_of_removable hregular hprivate hfirst hremovable)
        refine wp_bind (wp_unlinkBelow ?_ (fun _ => hself) hself)
        refine wp_bind (wp_close (wp_close ⟨?_, hkept⟩ (fun _ => hkept) hkept) (fun _ => hkept) hkept)
        rw [Disk.unlink, Disk.relink_now, Function.update_self]
      refine wp_bind (wp_close ?_ (fun _ => hself) hself)
      split
      · refine wp_bind (wp_inspectRegular (fun g hg _ hown => ?_) (fun _ => hself) hself)
        rw [hf, Option.some.injEq] at hg
        exact hunlink fun _ => hg ▸ hown rfl
      · rename_i hne
        exact hunlink fun hi => absurd hi hne
    · dsimp only
      split
      · rename_i hnone
        exact wp_close ⟨he hnone, hself⟩ (fun _ => hself) hself
      · exact wp_fail hself
  intro r
  obtain ⟨-, -, hgone, hkept⟩ | ⟨e, hr, hkept⟩ | ⟨hr, hkept⟩ := run_of_wp hwp fs
  · exact ⟨hkept.crash, fun _ => hgone⟩
  · exact ⟨hkept.crash, by simp [r, hr]⟩
  · exact ⟨hkept.crash, by simp [r, hr]⟩

end
end Onprest.Filesystem
