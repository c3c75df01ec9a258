import Mathlib
import ParadigmTerra.Lib.OrderedMap

/-!
# The largest group

The positions of a list are put into groups by the keys there, and the first of the groups with the most
positions is taken. `largest_of_majority` says which one that is when a key has more than half of the
positions: all of its positions, and no others. `le_length_positions` counts the positions of a key that
all but a few of them have.
-/

namespace Groups

open OrderedMap

variable {κ : Type*} [DecidableEq κ]

/-- The positions of a key. -/
def positions (k : κ) (keys : List κ) : List ℕ :=
  (List.range keys.length).filter fun i => keys[i]? = some k

/-- A position put into the group of its key, which is made where there is none yet. -/
def push (groups : List (κ × List ℕ)) (k : κ) (i : ℕ) : List (κ × List ℕ) :=
  put (fun _ _ => false) k ((get k groups).getD [] ++ [i]) groups

/-- The groups, in the order of the first positions of their keys. -/
def groups (keys : List κ) : List (κ × List ℕ) :=
  keys.zipIdx.foldl (fun l p => push l p.1 p.2) []

/-- The first of the groups with the most positions. -/
def largest (l : List (κ × List ℕ)) : List ℕ :=
  l.foldl (fun winner g => if winner.length < g.2.length then g.2 else winner) []

variable {k k' : κ} {keys : List κ}

/-! ## Positions -/

theorem mem_positions {i : ℕ} : i ∈ positions k keys ↔ keys[i]? = some k := by
  simp only [positions, List.mem_filter, List.mem_range, decide_eq_true_eq, and_iff_right_iff_imp]
  intro h
  obtain ⟨hi, -⟩ := List.getElem?_eq_some_iff.mp h
  exact hi

theorem positions_append (k' : κ) : positions k (keys ++ [k']) =
    if k' = k then positions k keys ++ [keys.length] else positions k keys := by
  have hold : (List.range keys.length).filter (fun i => (keys ++ [k'])[i]? = some k) =
      positions k keys := by
    refine List.filter_congr fun i hi => ?_
    rw [List.getElem?_append_left (List.mem_range.mp hi)]
  unfold positions
  rw [List.length_append, List.length_singleton, List.range_succ, List.filter_append, hold]
  by_cases hk : k' = k
  · simp [hk, positions]
  · simp [hk, positions]

/-- Positions of two keys are different. -/
theorem length_positions_add (h : k ≠ k') :
    (positions k keys).length + (positions k' keys).length ≤ keys.length := by
  have hsplit := @List.length_eq_length_filter_add _ (List.range keys.length)
    fun i => decide (keys[i]? = some k)
  have hsub : ((List.range keys.length).filter fun i => decide (keys[i]? = some k')).Sublist
      ((List.range keys.length).filter fun i => !decide (keys[i]? = some k)) := by
    refine List.monotone_filter_right _ fun i hi => ?_
    have hi : keys[i]? = some k' := of_decide_eq_true hi
    simp [hi, h.symm]
  have hle := hsub.length_le
  rw [List.length_range] at hsplit
  unfold positions
  omega

/-- A key that all positions have but those of a set has all but as many. -/
theorem le_length_positions {others : Finset ℕ}
    (h : ∀ i < keys.length, i ∉ others → keys[i]? = some k) :
    keys.length ≤ (positions k keys).length + others.card := by
  have hsplit := @List.length_eq_length_filter_add _ (List.range keys.length)
    fun i => decide (keys[i]? = some k)
  -- the positions of other keys are in the set, and each is there once
  have hsub : ((List.range keys.length).filter fun i => !decide (keys[i]? = some k)).toFinset ⊆
      others := by
    intro i hi
    rw [List.mem_toFinset, List.mem_filter, List.mem_range] at hi
    by_contra hother
    simp [h i hi.1 hother] at hi
  have hcard := Finset.card_le_card hsub
  rw [List.toFinset_card_of_nodup (List.nodup_range.filter _)] at hcard
  rw [List.length_range] at hsplit
  unfold positions
  omega

/-! ## Groups -/

theorem groups_append (keys : List κ) (k : κ) :
    groups (keys ++ [k]) = push (groups keys) k keys.length := by
  simp [groups, List.zipIdx_append]

/-- Each key that occurs has a group, with all of its positions. -/
theorem get_groups (k : κ) (keys : List κ) :
    get k (groups keys) = if k ∈ keys then some (positions k keys) else none := by
  induction keys using List.reverseRecOn with
  | nil => rfl
  | append_singleton keys k' ih =>
    rw [groups_append, push, get_put, positions_append]
    by_cases hk : k' = k
    · subst hk
      have hgroup : (get k' (groups keys)).getD [] = positions k' keys := by
        rw [ih]
        split
        · rfl
        · next hmem =>
          rw [Option.getD_none, eq_comm, List.eq_nil_iff_forall_not_mem]
          exact fun i hi => hmem (List.mem_of_getElem? (mem_positions.mp hi))
      simp [hgroup]
    · have hmem : k ∈ keys ++ [k'] ↔ k ∈ keys := by simp [Ne.symm hk]
      simp only [hk, if_false, hmem, ih]

theorem nodup_groups (keys : List κ) : ((groups keys).map Prod.fst).Nodup := by
  have hnormal : Normal (fun _ _ => false) (groups keys) := by
    induction keys using List.reverseRecOn with
    | nil => exact normal_nil
    | append_singleton keys k ih =>
      rw [groups_append]
      exact ih.put (by simp) (by simp) _ _
  exact hnormal.nodup

theorem mem_groups {g : κ × List ℕ} : g ∈ groups keys ↔ g.1 ∈ keys ∧ g.2 = positions g.1 keys := by
  constructor
  · intro h
    have hget := get_of_mem (nodup_groups keys) (k := g.1) (v := g.2) h
    rw [get_groups] at hget
    split at hget
    · next hmem => exact ⟨hmem, (Option.some.inj hget).symm⟩
    · cases hget
  · rintro ⟨hmem, hg⟩
    have hget : get g.1 (groups keys) = some g.2 := by rw [get_groups, if_pos hmem, hg]
    exact mem_of_get hget

/-! ## The largest group -/

/-- A group that is larger than all others is the largest. -/
theorem largest_eq {l : List (κ × List ℕ)} {g : κ × List ℕ} (hg : g ∈ l) (hne : g.2 ≠ [])
    (h : ∀ g' ∈ l, g' ≠ g → g'.2.length < g.2.length) : largest l = g.2 := by
  -- up to the group all are smaller, and behind it none replaces it
  have hfold : ∀ (l : List (κ × List ℕ)) (winner : List ℕ),
      (∀ g' ∈ l, g' ≠ g → g'.2.length < g.2.length) →
      (g ∈ l ∧ winner.length < g.2.length ∨ winner = g.2) →
      l.foldl (fun winner g => if winner.length < g.2.length then g.2 else winner) winner = g.2 := by
    intro l
    induction l with
    | nil =>
      rintro winner - (⟨hmem, -⟩ | rfl)
      · cases hmem
      · rfl
    | cons g' l ih =>
      intro winner hall hwinner
      obtain ⟨hhead, htail⟩ := List.forall_mem_cons.mp hall
      rw [List.foldl_cons]
      refine ih _ htail ?_
      by_cases hg' : g' = g
      · subst hg'
        right
        rcases hwinner with ⟨-, hlt⟩ | rfl
        · rw [if_pos hlt]
        · rw [if_neg (lt_irrefl _)]
      · have hlt := hhead hg'
        rcases hwinner with ⟨hmem, hwinner⟩ | rfl
        · left
          refine ⟨(List.mem_cons.mp hmem).resolve_left (Ne.symm hg'), ?_⟩
          split
          · exact hlt
          · exact hwinner
        · right
          rw [if_neg (by omega)]
  exact hfold l [] h (.inl ⟨hg, List.length_pos_iff.mpr hne⟩)

/-- A key with more than half of the positions has the largest group. -/
theorem largest_of_majority (h : keys.length < 2 * (positions k keys).length) :
    largest (groups keys) = positions k keys := by
  have hne : positions k keys ≠ [] := by
    intro hnil
    rw [hnil] at h
    simp at h
  obtain ⟨i, hi⟩ := List.exists_mem_of_ne_nil _ hne
  have hmem : k ∈ keys := List.mem_of_getElem? (mem_positions.mp hi)
  refine largest_eq (g := (k, positions k keys)) (mem_groups.mpr ⟨hmem, rfl⟩) hne fun g hg hgk => ?_
  obtain ⟨-, hpos⟩ := mem_groups.mp hg
  have hkey : k ≠ g.1 := by
    intro hk
    subst hk
    exact hgk (Prod.ext rfl hpos)
  have hadd := @length_positions_add _ _ k g.1 keys hkey
  rw [hpos]
  dsimp only
  omega

end Groups
