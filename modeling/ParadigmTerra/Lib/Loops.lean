import Mathlib

/-!
# Counted loops

A loop over a range of numbers, of which each pass may stop the program: `none` is a program that stopped.
`run_up` is the induction on the number of the pass for loops that count up, and `run_down` the one for loops
that count down; both say that the loop ends, in a state with the invariant.
-/

namespace Loops

universe u

variable {σ : Type u} {f : σ → ℕ → Option σ} {P : ℕ → σ → Prop}

/-- A loop that counts up from `lo`. -/
theorem run_up {lo n : ℕ} (step : ∀ i s, lo ≤ i → i < lo + n → P i s → ∃ t, f s i = some t ∧ P (i + 1) t)
    {s : σ} (h : P lo s) : ∃ t, (List.range' lo n).foldlM f s = some t ∧ P (lo + n) t := by
  induction n generalizing lo s with
  | zero => exact ⟨s, rfl, h⟩
  | succ n ih =>
    obtain ⟨next, hnext, hP⟩ := step lo s le_rfl (by omega) h
    obtain ⟨t, ht, hend⟩ := ih (fun i s hlo hi => step i s (by omega) (by omega)) hP
    refine ⟨t, ?_, ?_⟩
    · rw [List.range'_succ, List.foldlM_cons, hnext]
      exact ht
    · rw [show lo + (n + 1) = lo + 1 + n by omega]
      exact hend

/-- A loop that counts up from zero. -/
theorem run_range {n : ℕ} (step : ∀ i s, i < n → P i s → ∃ t, f s i = some t ∧ P (i + 1) t) {s : σ}
    (h : P 0 s) : ∃ t, (List.range n).foldlM f s = some t ∧ P n t := by
  obtain ⟨t, ht, hend⟩ := run_up (n := n) (fun i s (_ : 0 ≤ i) hi => step i s (by omega)) h
  rw [Nat.zero_add] at hend
  rw [List.range_eq_range']
  exact ⟨t, ht, hend⟩

/-- A loop that counts down to zero. The invariant is about the passes that are left. -/
theorem run_down {n : ℕ} (step : ∀ i s, i < n → P (i + 1) s → ∃ t, f s i = some t ∧ P i t) {s : σ}
    (h : P n s) : ∃ t, (List.range n).reverse.foldlM f s = some t ∧ P 0 t := by
  induction n generalizing s with
  | zero => exact ⟨s, rfl, h⟩
  | succ n ih =>
    obtain ⟨next, hnext, hP⟩ := step n s (by omega) h
    obtain ⟨t, ht, hend⟩ := ih (fun i s hi => step i s (by omega)) hP
    refine ⟨t, ?_, hend⟩
    rw [List.range_succ, List.reverse_append, List.reverse_singleton, List.singleton_append,
      List.foldlM_cons, hnext]
    exact ht

end Loops
