import Mathlib

/-!
# The first element of each key

`split` takes from a list the first element of each key that was not seen before, and keeps the others. No
element is lost (`split_perm`), the elements of a key stay in their order when what was taken goes in front
(`filter_split`), and no two that are taken have one key (`nodup_split`).
-/

namespace Firsts

variable {α κ : Type*} [DecidableEq κ] (key : α → κ)

/-- The first element of each key that is not among those seen, and the other elements. -/
def split (seen : List κ) : List α → List α × List α
  | [] => ([], [])
  | a :: l =>
    if key a ∈ seen then
      let (taken, kept) := split seen l
      (taken, a :: kept)
    else
      let (taken, kept) := split (key a :: seen) l
      (a :: taken, kept)

variable {key} {seen : List κ} {a : α} {l : List α}

theorem split_of_mem (h : key a ∈ seen) :
    split key seen (a :: l) = ((split key seen l).1, a :: (split key seen l).2) := by
  rw [split, if_pos h]

theorem split_of_not_mem (h : key a ∉ seen) : split key seen (a :: l) =
    (a :: (split key (key a :: seen) l).1, (split key (key a :: seen) l).2) := by
  rw [split, if_neg h]

theorem split_perm (seen : List κ) (l : List α) :
    ((split key seen l).1 ++ (split key seen l).2).Perm l := by
  induction l generalizing seen with
  | nil => exact .nil
  | cons a l ih =>
    by_cases h : key a ∈ seen
    · rw [split_of_mem h]
      exact List.perm_middle.trans ((ih seen).cons a)
    · rw [split_of_not_mem h]
      exact (ih (key a :: seen)).cons a

/-- No element that is taken has a key that was seen. -/
theorem key_not_mem_of_mem_split {x : α} (h : x ∈ (split key seen l).1) : key x ∉ seen := by
  induction l generalizing seen with
  | nil => cases h
  | cons a l ih =>
    by_cases ha : key a ∈ seen
    · rw [split_of_mem ha] at h
      exact ih h
    · rw [split_of_not_mem ha] at h
      rcases List.mem_cons.mp h with rfl | h
      · exact ha
      · exact fun hx => ih h (List.mem_cons_of_mem _ hx)

theorem nodup_split (seen : List κ) (l : List α) : ((split key seen l).1.map key).Nodup := by
  induction l generalizing seen with
  | nil => exact .nil
  | cons a l ih =>
    by_cases h : key a ∈ seen
    · rw [split_of_mem h]
      exact ih seen
    · rw [split_of_not_mem h, List.map_cons, List.nodup_cons]
      refine ⟨fun hmem => ?_, ih (key a :: seen)⟩
      obtain ⟨x, hx, hkey⟩ := List.mem_map.mp hmem
      exact key_not_mem_of_mem_split hx (hkey ▸ List.mem_cons_self)

/-- The elements of one key, in their order: first the one that is taken. -/
theorem filter_split (k : κ) (seen : List κ) (l : List α) :
    (split key seen l).1.filter (key · = k) ++ (split key seen l).2.filter (key · = k) =
      l.filter (key · = k) := by
  induction l generalizing seen with
  | nil => rfl
  | cons a l ih =>
    by_cases h : key a ∈ seen
    · rw [split_of_mem h]
      by_cases hk : key a = k
      · -- nothing of this key is taken any more
        have hnone : (split key seen l).1.filter (key · = k) = [] := by
          rw [List.filter_eq_nil_iff]
          intro x hx hxk
          have hseen := key_not_mem_of_mem_split hx
          exact hseen (of_decide_eq_true hxk ▸ hk ▸ h)
        have hrec := ih seen
        rw [hnone, List.nil_append] at hrec
        rw [hnone, List.nil_append, List.filter_cons_of_pos (by simpa using hk),
          List.filter_cons_of_pos (by simpa using hk), hrec]
      · rw [List.filter_cons_of_neg (by simpa using hk), List.filter_cons_of_neg (by simpa using hk)]
        exact ih seen
    · rw [split_of_not_mem h]
      by_cases hk : key a = k
      · rw [List.filter_cons_of_pos (by simpa using hk), List.filter_cons_of_pos (by simpa using hk),
          List.cons_append, ih]
      · rw [List.filter_cons_of_neg (by simpa using hk), List.filter_cons_of_neg (by simpa using hk)]
        exact ih _

/-- The first element of a list is taken. -/
theorem length_split_lt (h : l ≠ []) : (split key [] l).2.length < l.length := by
  obtain ⟨a, l, rfl⟩ := List.exists_cons_of_ne_nil h
  have hlength := (@split_perm _ _ _ key [key a] l).length_eq
  rw [split_of_not_mem List.not_mem_nil]
  rw [List.length_append] at hlength
  simp only [List.length_cons]
  omega

theorem split_fst_ne_nil (h : l ≠ []) : (split key [] l).1 ≠ [] := by
  obtain ⟨a, l, rfl⟩ := List.exists_cons_of_ne_nil h
  rw [split_of_not_mem List.not_mem_nil]
  exact List.cons_ne_nil _ _

end Firsts
