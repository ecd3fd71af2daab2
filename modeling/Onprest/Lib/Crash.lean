import Mathlib.Data.List.Basic
import Mathlib.Data.Nat.Notation

/-! Programs over a state that survives a crash. The environment decides at every primitive whether it
takes effect, fails or finds the machine stopped, so a run is determined by the list of those decisions.
Triples have three postconditions: for a result, for an error and for a crash. The last part is a value
that is durable only after it was synced. -/

namespace Onprest.Lib.Crash

/-- The decision about one primitive: it takes effect, with a choice left to the environment; it reports
an error, possibly after a part of its work; or the machine stops before it. -/
inductive Fate
  | ok (n : ℕ)
  | fail (n : ℕ)
  | crash
  deriving DecidableEq, Repr

inductive Exit (ε α : Type)
  | done (a : α)
  | failed (e : ε)
  | crashed
  deriving DecidableEq, Repr

/-- A program reads its fates from a list; past its end every primitive takes effect. -/
def Prog (σ ε α : Type) : Type := σ → List Fate → Exit ε α × σ × List Fate

namespace Prog
variable {σ ε α β : Type}

instance : Monad (Prog σ ε) where
  pure a := fun w fs => (.done a, w, fs)
  bind p f := fun w fs =>
    match p w fs with
    | (.done a, w, fs) => f a w fs
    | (.failed e, w, fs) => (.failed e, w, fs)
    | (.crashed, w, fs) => (.crashed, w, fs)

def fail (e : ε) : Prog σ ε α := fun w fs => (.failed e, w, fs)

/-- A primitive: what it does if it takes effect, and what it has done when it reports an error. -/
def step (yes : ℕ → σ → Except ε α × σ) (no : ℕ → σ → ε × σ) : Prog σ ε α := fun w fs =>
  match fs.headD (.ok 0) with
  | .ok n =>
    match yes n w with
    | (.ok a, w) => (.done a, w, fs.tail)
    | (.error e, w) => (.failed e, w, fs.tail)
  | .fail n => (.failed (no n w).1, (no n w).2, fs.tail)
  | .crash => (.crashed, w, fs.tail)

/-- Turn an error into a value; a crash ends the program all the same. -/
def attempt (p : Prog σ ε α) : Prog σ ε (Except ε α) := fun w fs =>
  match p w fs with
  | (.done a, w, fs) => (.done (.ok a), w, fs)
  | (.failed e, w, fs) => (.done (.error e), w, fs)
  | (.crashed, w, fs) => (.crashed, w, fs)

def ofExcept : Except ε α → Prog σ ε α
  | .ok a => pure a
  | .error e => fail e

/-- The weakest precondition: whatever the environment decides, a result satisfies `Q`, an error `E` and
the state at a crash `C`. -/
def wp (p : Prog σ ε α) (Q : α → σ → Prop) (E : ε → σ → Prop) (C : σ → Prop) (w : σ) : Prop :=
  ∀ fs, match p w fs with
    | (.done a, w', _) => Q a w'
    | (.failed e, w', _) => E e w'
    | (.crashed, w', _) => C w'

section Rules
variable {p : Prog σ ε α} {Q : α → σ → Prop} {S : β → σ → Prop} {E : ε → σ → Prop} {C : σ → Prop} {w : σ}

theorem wp_pure {a : α} (h : Q a w) : wp (pure a : Prog σ ε α) Q E C w := fun _ => h

theorem wp_fail {e : ε} (h : E e w) : wp (fail e : Prog σ ε α) Q E C w := fun _ => h

theorem wp_bind {f : α → Prog σ ε β} (h : wp p (fun a w => wp (f a) S E C w) E C w) :
    wp (p >>= f) S E C w := by
  intro fs
  have hfs := h fs
  simp only [bind]
  revert hfs
  rcases p w fs with ⟨_ | _ | _, w', fs'⟩
  · exact fun hfs => hfs fs'
  · exact id
  · exact id

theorem wp_step {yes : ℕ → σ → Except ε α × σ} {no : ℕ → σ → ε × σ}
    (hok : ∀ n a w', yes n w = (.ok a, w') → Q a w') (herr : ∀ n e w', yes n w = (.error e, w') → E e w')
    (hno : ∀ n, E (no n w).1 (no n w).2) (hcrash : C w) : wp (step yes no) Q E C w := by
  intro fs
  rw [step]
  cases fs.headD (.ok 0) with
  | ok n =>
    dsimp only
    rcases hn : yes n w with ⟨e | a, w'⟩
    · exact herr n e w' hn
    · exact hok n a w' hn
  | fail n => exact hno n
  | crash => exact hcrash

theorem wp_attempt {S : Except ε α → σ → Prop}
    (h : wp p (fun a w => S (.ok a) w) (fun e w => S (.error e) w) C w) : wp (attempt p) S E C w := by
  intro fs
  have hfs := h fs
  rw [attempt]
  revert hfs
  rcases p w fs with ⟨_ | _ | _, w', fs'⟩
  · exact id
  · exact id
  · exact id

theorem wp_ofExcept {r : Except ε α} (hok : ∀ a, r = .ok a → Q a w) (herr : ∀ e, r = .error e → E e w) :
    wp (ofExcept r : Prog σ ε α) Q E C w := by
  cases r with
  | ok a => exact wp_pure (hok a rfl)
  | error e => exact wp_fail (herr e rfl)

/-- What a run satisfies, from its weakest precondition. -/
theorem run_of_wp (h : wp p Q E C w) (fs : List Fate) :
    (∃ a, (p w fs).1 = .done a ∧ Q a (p w fs).2.1) ∨ (∃ e, (p w fs).1 = .failed e ∧ E e (p w fs).2.1) ∨
      (p w fs).1 = .crashed ∧ C (p w fs).2.1 := by
  have hfs := h fs
  revert hfs
  rcases p w fs with ⟨a | e | _, w', fs'⟩
  · exact fun hfs => .inl ⟨a, rfl, hfs⟩
  · exact fun hfs => .inr (.inl ⟨e, rfl, hfs⟩)
  · exact fun hfs => .inr (.inr ⟨rfl, hfs⟩)

end Rules
end Prog

/-! ### Durable values -/

/-- The current value and the earlier ones a crash may bring back, the latest first. -/
structure Durable (α : Type) where
  now : α
  past : List α := []

namespace Durable
variable {α : Type}

/-- Everything a crash may leave. -/
def versions (v : Durable α) : List α := v.now :: v.past

def put (v : Durable α) (a : α) : Durable α := ⟨a, v.versions⟩

def sync (v : Durable α) : Durable α := ⟨v.now, []⟩

/-- Crash: the environment chooses a version. -/
def crash (v : Durable α) (n : ℕ) : Durable α := ⟨v.versions.getD n v.now, []⟩

@[simp] theorem put_now (v : Durable α) (a : α) : (v.put a).now = a := rfl
@[simp] theorem sync_now (v : Durable α) : v.sync.now = v.now := rfl

variable {v : Durable α} {b : α}

@[simp] theorem mem_versions_put {a : α} : b ∈ (v.put a).versions ↔ b = a ∨ b ∈ v.versions := by
  simp [versions, put]

@[simp] theorem mem_versions_sync : b ∈ v.sync.versions ↔ b = v.now := by
  simp [versions, sync]

theorem now_mem (v : Durable α) : v.now ∈ v.versions := List.mem_cons_self

theorem mem_versions_crash {n : ℕ} (h : b ∈ (v.crash n).versions) : b = (v.crash n).now ∧ b ∈ v.versions := by
  obtain rfl : b = v.versions.getD n v.now := by simpa [versions, crash] using h
  refine ⟨rfl, ?_⟩
  rw [List.getD_eq_getElem?_getD]
  cases hn : v.versions[n]? with
  | none => exact v.now_mem
  | some b => exact List.mem_of_getElem? hn

end Durable
end Onprest.Lib.Crash
