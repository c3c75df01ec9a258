import Mathlib

/-!
# Runs of operations

A run performs one operation after another. `Meets` says that a condition holds at each operation, of the
state that the operation finds; `Meets.invariant` is the induction over such runs.
-/

namespace Runs

universe u v

variable {σ : Type u} {α : Type v} {step : σ → α → σ} {C D : σ → α → Prop}

/-- The condition holds at each operation of a run. -/
def Meets (step : σ → α → σ) (C : σ → α → Prop) : σ → List α → Prop
  | _, [] => True
  | s, a :: l => C s a ∧ Meets step C (step s a) l

/-- What each operation preserves holds after a run. -/
theorem Meets.invariant {I : σ → Prop} (hstep : ∀ s a, I s → C s a → I (step s a)) {s : σ} (hs : I s)
    {l : List α} (h : Meets step C s l) : I (l.foldl step s) := by
  induction l generalizing s with
  | nil => exact hs
  | cons a l ih => exact ih (hstep s a hs h.1) h.2

/-- A condition on each operation that holds after each run before it. -/
theorem Meets.mono (hCD : ∀ s a, C s a → D s a) {s : σ} {l : List α} (h : Meets step C s l) :
    Meets step D s l := by
  induction l generalizing s with
  | nil => trivial
  | cons a l ih => exact ⟨hCD s a h.1, ih h.2⟩

def decideMeets [∀ s a, Decidable (C s a)] : (l : List α) → (s : σ) → Decidable (Meets step C s l)
  | [], _ => .isTrue trivial
  | a :: l, s =>
    have := decideMeets l (step s a)
    inferInstanceAs (Decidable (C s a ∧ Meets step C (step s a) l))

instance [∀ s a, Decidable (C s a)] (s : σ) (l : List α) : Decidable (Meets step C s l) :=
  decideMeets l s

end Runs
