import Mathlib.Logic.Relation
import Mathlib.Data.List.Basic

/-! Executable state machines: a partial step function over labelled actions, its runs over action
lists, and the invariant rules every state machine of the development is verified with. -/

namespace Onprest.Lib

/-- A state machine whose nondeterminism is carried by the action labels; `none` means that the action
is not enabled. -/
structure Machine (σ α : Type*) where
  step : σ → α → Option σ

namespace Machine
variable {σ α : Type*} (m : Machine σ α)

/-- Execute a list of actions, failing at the first one that is not enabled. -/
def run : σ → List α → Option σ
  | s, [] => some s
  | s, a :: as =>
    match m.step s a with
    | some s' => run s' as
    | none => none

@[simp] theorem run_nil (s : σ) : m.run s [] = some s := rfl

variable {s t : σ} {a : α} {as : List α} {I : σ → Prop} {g : σ → α → Bool}

theorem run_cons : m.run s (a :: as) = some t ↔ ∃ s', m.step s a = some s' ∧ m.run s' as = some t := by
  rw [run]
  cases h : m.step s a with
  | none => simp
  | some s' => simp

theorem run_append {bs : List α} : m.run s (as ++ bs) = some t ↔ ∃ s', m.run s as = some s' ∧
    m.run s' bs = some t := by
  induction as generalizing s with
  | nil => simp
  | cons a as ih =>
    simp only [List.cons_append, run_cons, ih]
    constructor
    · rintro ⟨s₁, h₁, s₂, h₂, h₃⟩
      exact ⟨s₂, ⟨s₁, h₁, h₂⟩, h₃⟩
    · rintro ⟨s₂, ⟨s₁, h₁, h₂⟩, h₃⟩
      exact ⟨s₁, h₁, s₂, h₂, h₃⟩

/-- What one step preserves, a whole run preserves. -/
theorem run_invariant (hstep : ∀ s a s', I s → m.step s a = some s' → I s') (hs : I s) (hrun : m.run s as = some t) :
    I t := by
  induction as generalizing s with
  | nil =>
    rw [run_nil, Option.some.injEq] at hrun
    exact hrun ▸ hs
  | cons a as ih =>
    obtain ⟨s', hs', hrun⟩ := m.run_cons.mp hrun
    exact ih (hstep s a s' hs hs') hrun

/-- What one step carries on together with the actions taken so far, newest first, a whole run carries on. -/
theorem run_history {I : List α → σ → Prop}
    (hstep : ∀ past s a s', I past s → m.step s a = some s' → I (a :: past) s')
    {past : List α} (hs : I past s) (hrun : m.run s as = some t) : I (as.reverse ++ past) t := by
  induction as generalizing s past with
  | nil =>
    rw [run_nil, Option.some.injEq] at hrun
    exact hrun ▸ hs
  | cons a as ih =>
    obtain ⟨s', hs', hrun⟩ := m.run_cons.mp hrun
    rw [List.reverse_cons, List.append_assoc]
    exact ih (hstep past s a s' hs hs') hrun

/-- The machine that takes only the steps a guard admits. -/
def guarded (g : σ → α → Bool) : Machine σ α where
  step s a := if g s a then m.step s a else none

theorem guarded_step : (m.guarded g).step s a = some t ↔ g s a = true ∧ m.step s a = some t := by
  simp [guarded]

theorem run_of_guarded (h : (m.guarded g).run s as = some t) : m.run s as = some t := by
  induction as generalizing s with
  | nil => exact h
  | cons a as ih =>
    obtain ⟨s', hs', h⟩ := (m.guarded g).run_cons.mp h
    exact m.run_cons.mpr ⟨s', (m.guarded_step.mp hs').2, ih h⟩

/-- The number of steps of a run that `g` selects. -/
def steps (g : σ → α → Bool) : σ → List α → ℕ
  | _, [] => 0
  | s, a :: as =>
    match m.step s a with
    | some s' => (g s a).toNat + steps g s' as
    | none => 0

/-- A measure that no step increases and every selected step decreases bounds the selected steps. -/
theorem run_measure {r : σ → ℕ} (hstep : ∀ s a s', I s → m.step s a = some s' → I s' ∧ r s' + (g s a).toNat ≤ r s)
    (hs : I s) (hrun : m.run s as = some t) : r t + m.steps g s as ≤ r s := by
  induction as generalizing s with
  | nil =>
    rw [run_nil, Option.some.injEq] at hrun
    exact hrun ▸ Nat.le_refl _
  | cons a as ih =>
    obtain ⟨s', hs', hrun⟩ := m.run_cons.mp hrun
    obtain ⟨hinv, hrank⟩ := hstep s a s' hs hs'
    have htail := ih hinv hrun
    simp only [steps, hs']
    omega

end Machine

/-! ### Histories -/

section Histories
variable {ρ : Type*} {P Q : ρ → List ρ → Prop}

/-- In a history with its newest record first, every record is in relation `P` with the ones before it. -/
def Causal (P : ρ → List ρ → Prop) : List ρ → Prop
  | [] => True
  | r :: earlier => P r earlier ∧ Causal P earlier

theorem Causal.at {later earlier : List ρ} {r : ρ} (h : Causal P (later ++ r :: earlier)) : P r earlier := by
  induction later with
  | nil => exact h.1
  | cons l later ih => exact ih h.2

end Histories
end Onprest.Lib
