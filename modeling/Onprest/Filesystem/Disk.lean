import Mathlib.Logic.Function.Basic
import Onprest.Lib.Crash
import Onprest.Lib.Utf8

/-! The file system below the agent: directories as maps from names to files, whose changes are durable
once the directory was synced, and files whose content is durable once the file was synced. -/

namespace Onprest.Filesystem

open Lib Lib.Crash

abbrev Name := List Char

/-- The identity of a directory or a file. -/
structure Identity where
  device : ℕ := 0
  inode : ℕ
  extra : ℕ := 0
  mount : String := ""
  deriving DecidableEq, Repr

/-- A file as the system keeps it. `changed` is the change time, seconds and nanoseconds in one. -/
structure File where
  content : Bytes := []
  synced : Bool := false
  owner : String
  mode : ℕ
  modified : ℕ := 0
  changed : ℕ := 0
  regular : Bool := true
  links : ℕ := 1
  deriving DecidableEq, Repr

/-- `f` is what has become of `f₀`: with its content, unless it was lost in a crash before it was synced. -/
def File.Remains (lost : Prop) (f₀ f : File) : Prop :=
  (f.content = f₀.content ∨ lost ∧ f₀.synced = false) ∧ (f₀.synced = true → f.synced = true)

/-- No version of a directory names a file that does not exist. -/
structure Disk where
  folders : Identity → Durable (Name → Option Identity)
  files : Identity → Option File
  linked : ∀ d, ∀ e ∈ (folders d).versions, ∀ n i, e n = some i → (files i).isSome

namespace Disk

def now (k : Disk) (d : Identity) : Name → Option Identity := (k.folders d).now

/-- What a reader finds under a name. -/
def content (k : Disk) (d : Identity) (n : Name) : Option Bytes :=
  (k.now d n).bind fun i => (k.files i).map File.content

/-! ### Operations -/

/-- Replace the entries of one directory. -/
def relink (k : Disk) (d : Identity) (e : Name → Option Identity)
    (he : ∀ n i, e n = some i → (k.files i).isSome) : Disk where
  folders := Function.update k.folders d ((k.folders d).put e)
  files := k.files
  linked := by
    intro c v hv
    by_cases hc : c = d
    · subst hc
      rw [Function.update_self, Durable.mem_versions_put] at hv
      rcases hv with rfl | hv
      · exact he
      · exact k.linked c v hv
    · rw [Function.update_of_ne hc] at hv
      exact k.linked c v hv

theorem linked_now (k : Disk) {d : Identity} {n : Name} {i : Identity} (h : k.now d n = some i) :
    (k.files i).isSome :=
  k.linked d _ (k.folders d).now_mem n i h

def unlink (k : Disk) (d : Identity) (a : Name) : Disk :=
  k.relink d (Function.update (k.now d) a none) (by
    intro n i h
    by_cases hn : n = a
    · simp [hn] at h
    · rw [Function.update_of_ne hn] at h
      exact k.linked_now h)

/-- Give `a` the file of `b` and `b` the file of `a`; with nothing under `b` this is a plain rename. -/
def exchange (k : Disk) (d : Identity) (a b : Name) : Disk :=
  k.relink d (Function.update (Function.update (k.now d) a (k.now d b)) b (k.now d a)) (by
    intro n i h
    by_cases hb : n = b
    · rw [hb, Function.update_self] at h
      exact k.linked_now h
    · rw [Function.update_of_ne hb] at h
      by_cases ha : n = a
      · rw [ha, Function.update_self] at h
        exact k.linked_now h
      · rw [Function.update_of_ne ha] at h
        exact k.linked_now h)

def syncFolder (k : Disk) (d : Identity) : Disk where
  folders := Function.update k.folders d (k.folders d).sync
  files := k.files
  linked := by
    intro c v hv
    by_cases hc : c = d
    · subst hc
      rw [Function.update_self, Durable.mem_versions_sync] at hv
      exact hv ▸ k.linked c _ (k.folders c).now_mem
    · rw [Function.update_of_ne hc] at hv
      exact k.linked c v hv

/-- Set the change time of some files. -/
def stamp (k : Disk) (is : List Identity) (t : ℕ) : Disk where
  folders := k.folders
  files i := if i ∈ is then (k.files i).map fun f => { f with changed := t } else k.files i
  linked := by
    intro d e he n i h
    have hi := k.linked d e he n i h
    split
    · rw [Option.isSome_map]
      exact hi
    · exact hi

/-- What a crash does to the disk: the version each directory falls back to, and what is left of a file
that was not synced. -/
structure Loss where
  version : Identity → ℕ := fun _ => 0
  content : Identity → Bytes := fun _ => []

def crash (k : Disk) (c : Loss) : Disk where
  folders d := (k.folders d).crash (c.version d)
  files i := (k.files i).map fun f => if f.synced then f else { f with content := c.content i, synced := true }
  linked := by
    intro d e he n i h
    rw [Option.isSome_map]
    exact k.linked d e (Durable.mem_versions_crash he).2 n i h

section Simp
variable (k : Disk) (d : Identity) (e : Name → Option Identity) (he : ∀ n i, e n = some i → (k.files i).isSome)

@[simp] theorem relink_now : (k.relink d e he).now d = e := by simp [relink, now]

variable {c : Identity} {v : Name → Option Identity}

theorem mem_versions_relink :
    v ∈ ((k.relink d e he).folders c).versions ↔ c = d ∧ v = e ∨ v ∈ (k.folders c).versions := by
  by_cases h : c = d
  · subst h
    simp [relink]
  · simp [relink, h]

theorem mem_versions_syncFolder (h : v ∈ ((k.syncFolder d).folders c).versions) :
    v ∈ (k.folders c).versions ∧ (c = d → v = k.now d) := by
  by_cases hc : c = d
  · subst hc
    obtain rfl : v = k.now c := by simpa [syncFolder, now] using h
    exact ⟨(k.folders c).now_mem, fun _ => rfl⟩
  · refine ⟨?_, fun h => absurd h hc⟩
    simpa [syncFolder, hc] using h

theorem crash_files {k : Disk} {i : Identity} {f : File} (h : k.files i = some f) (c : Loss) :
    (k.crash c).files i = some (if f.synced then f else { f with content := c.content i, synced := true }) := by
  simp [crash, h]

@[simp] theorem syncFolder_now (c : Identity) : (k.syncFolder d).now c = k.now c := by
  by_cases h : c = d
  · subst h
    simp [syncFolder, now]
  · simp [syncFolder, now, h]

end Simp

/-! ### What a change of the disk keeps -/

/-- Every version of every directory is a version of `k₀`, but for the entries that `allow` admits, and
every file of `k₀` is there. `lost` tells whether there was a crash. -/
structure Kept (k₀ : Disk) (allow : Identity → Name → Option Identity → Prop) (lost : Prop) (k : Disk) : Prop where
  views : ∀ d, ∀ e ∈ (k.folders d).versions, ∃ e₀ ∈ (k₀.folders d).versions, ∀ n, e n = e₀ n ∨ allow d n (e n)
  files : ∀ i f₀, k₀.files i = some f₀ → ∃ f, k.files i = some f ∧ f₀.Remains lost f

section Kept
variable {k₀ k : Disk} {allow : Identity → Name → Option Identity → Prop} {lost : Prop} {d : Identity}

theorem Kept.refl : Kept k₀ allow lost k₀ where
  views _ e he := ⟨e, he, fun _ => .inl rfl⟩
  files _ f h := ⟨f, h, .inl rfl, id⟩

theorem Kept.relink (h : Kept k₀ allow lost k) {e : Name → Option Identity}
    {he : ∀ n i, e n = some i → (k.files i).isSome} (hallow : ∀ n, e n = k.now d n ∨ allow d n (e n)) :
    Kept k₀ allow lost (k.relink d e he) where
  views c v hv := by
    rcases (mem_versions_relink ..).mp hv with ⟨rfl, rfl⟩ | hv
    · obtain ⟨e₀, he₀, hnow⟩ := h.views c _ (k.folders c).now_mem
      refine ⟨e₀, he₀, fun n => ?_⟩
      rcases hallow n with heq | ha
      · rw [heq]
        exact hnow n
      · exact .inr ha
    · exact h.views c v hv
  files := h.files

theorem stamp_files {is : List Identity} {t : ℕ} {i : Identity} {f : File} (h : k.files i = some f) :
    ∃ t', (k.stamp is t).files i = some { f with changed := t' } := by
  by_cases hi : i ∈ is
  · exact ⟨t, by simp [stamp, hi, h]⟩
  · exact ⟨f.changed, by simp [stamp, hi, h]⟩

theorem Kept.stamp (h : Kept k₀ allow lost k) (is : List Identity) (t : ℕ) : Kept k₀ allow lost (k.stamp is t) where
  views := h.views
  files i f₀ hi := by
    obtain ⟨f, hf, hrem⟩ := h.files i f₀ hi
    obtain ⟨t', ht'⟩ := @stamp_files k is t i f hf
    exact ⟨_, ht', hrem⟩

theorem Kept.syncFolder (h : Kept k₀ allow lost k) : Kept k₀ allow lost (k.syncFolder d) where
  views c v hv := h.views c v (mem_versions_syncFolder k d hv).1
  files := h.files

/-- A crash brings back a version of each directory and may destroy what was not synced. -/
theorem Kept.crash (h : Kept k₀ allow lost k) (c : Loss) : Kept k₀ allow True (k.crash c) where
  views d e he := h.views d e (Durable.mem_versions_crash he).2
  files i f₀ hi := by
    obtain ⟨f, hf, hc, hs⟩ := h.files i f₀ hi
    refine ⟨_, crash_files hf c, ?_, ?_⟩
    · by_cases hsync : f.synced = true
      · rw [if_pos hsync]
        exact hc.imp id fun h => ⟨trivial, h.2⟩
      · refine .inr ⟨trivial, ?_⟩
        by_contra h₀
        exact hsync (hs (by simpa using h₀))
    · intro h₀
      rw [if_pos (hs h₀)]
      exact hs h₀

end Kept

end Disk
end Onprest.Filesystem
