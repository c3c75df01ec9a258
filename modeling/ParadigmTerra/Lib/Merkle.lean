import Mathlib

/-!
# Trees over lists

The levels of a binary tree whose leaves are the elements of a list: each level combines the elements of
the one below two by two, an odd last one with itself. `levels_inj` says that a level determines the leaves
where no two of the pairs that were combined collide.

An odd level repeats its last node, so that the root is the one of a complete tree whose leaves repeat some of
the list's. `roots_eq_iff` says that two lists have one root exactly if these complete trees are equal.
-/

namespace Merkle

variable {α : Type*} (node : α → α → α)

/-- The pairs that a level is made of. -/
def pairs : List α → List (α × α)
  | a :: b :: r => (a, b) :: pairs r
  | [a] => [(a, a)]
  | [] => []

/-- The level above a list. -/
def level (l : List α) : List α := (pairs l).map fun p => node p.1 p.2

/-- The `n`th level above a list. -/
def levels : ℕ → List α → List α
  | 0, l => l
  | n + 1, l => levels n (level node l)

/-- The pairs that are combined in the `n` levels above a list. -/
def combined : ℕ → List α → List (α × α)
  | 0, _ => []
  | n + 1, l => pairs l ++ combined n (level node l)

theorem length_pairs (l : List α) : (pairs l).length = (l.length + 1) / 2 := by
  induction l using pairs.induct with
  | case1 a b r ih =>
    simp only [pairs, List.length_cons, ih]
    omega
  | case2 a => simp [pairs]
  | case3 => simp [pairs]

theorem pairs_inj {l l' : List α} (hlen : l.length = l'.length) (h : pairs l = pairs l') :
    l = l' := by
  induction l using pairs.induct generalizing l' with
  | case1 a b r ih =>
    match l' with
    | c :: d :: r' =>
      simp only [pairs, List.cons.injEq, Prod.mk.injEq] at h
      obtain ⟨⟨rfl, rfl⟩, h⟩ := h
      rw [ih (by simpa using hlen) h]
  | case2 a =>
    match l' with
    | [c] =>
      simp only [pairs, List.cons.injEq, Prod.mk.injEq] at h
      rw [h.1.1]
  | case3 => exact (List.length_eq_zero_iff.mp hlen.symm).symm

theorem forall_mem_pairs {P : α → Prop} {l : List α} (hl : ∀ a ∈ l, P a) :
    ∀ p ∈ pairs l, P p.1 ∧ P p.2 := by
  induction l using pairs.induct with
  | case1 a b r ih =>
    obtain ⟨ha, hl⟩ := List.forall_mem_cons.mp hl
    obtain ⟨hb, hl⟩ := List.forall_mem_cons.mp hl
    exact List.forall_mem_cons.mpr ⟨⟨ha, hb⟩, ih hl⟩
  | case2 a =>
    have ha := hl a (by simp)
    exact List.forall_mem_cons.mpr ⟨⟨ha, ha⟩, nofun⟩
  | case3 => nofun

variable {node}

/-- What holds of the leaves and of each node holds of all that is combined. -/
theorem forall_mem_combined {P : α → Prop} (hnode : ∀ a b, P (node a b)) {n : ℕ} {l : List α}
    (hl : ∀ a ∈ l, P a) : ∀ p ∈ combined node n l, P p.1 ∧ P p.2 := by
  induction n generalizing l with
  | zero => nofun
  | succ n ih =>
    have hlevel : ∀ a ∈ level node l, P a := by
      intro a ha
      obtain ⟨p, -, rfl⟩ := List.mem_map.mp ha
      exact hnode p.1 p.2
    exact List.forall_mem_append.mpr ⟨forall_mem_pairs hl, ih hlevel⟩

/-- Functions that agree nowhere by chance: a mapped list determines the list. -/
theorem map_inj_on {β γ : Type*} {f : β → γ} {l l' : List β}
    (hinj : ∀ p ∈ l, ∀ q ∈ l', f p = f q → p = q) (h : l.map f = l'.map f) : l = l' := by
  induction l generalizing l' with
  | nil => exact (List.map_eq_nil_iff.mp h.symm).symm
  | cons p l ih =>
    cases l' with
    | nil => cases h
    | cons q l' =>
      rw [List.map_cons, List.map_cons, List.cons.injEq] at h
      rw [hinj p (by simp) q (by simp) h.1,
        ih (fun p hp q hq => hinj p (List.mem_cons_of_mem _ hp) q (List.mem_cons_of_mem _ hq)) h.2]

/-- A level determines the leaves, if none of the pairs combined below it collide. -/
theorem levels_inj {n : ℕ} {l l' : List α} (hlen : l.length = l'.length)
    (hinj : ∀ p ∈ combined node n l, ∀ q ∈ combined node n l', node p.1 p.2 = node q.1 q.2 → p = q)
    (h : levels node n l = levels node n l') : l = l' := by
  induction n generalizing l l' with
  | zero => exact h
  | succ n ih =>
    have hlevel : level node l = level node l' := by
      refine ih ?_ (fun p hp q hq => hinj p (List.mem_append_right _ hp) q (List.mem_append_right _ hq)) h
      rw [level, level, List.length_map, List.length_map, length_pairs, length_pairs, hlen]
    exact pairs_inj hlen (map_inj_on (fun p hp q hq => hinj p (List.mem_append_left _ hp) q
      (List.mem_append_left _ hq)) hlevel)

/-! ## The complete tree -/

/-- The leaves of the complete tree of `n` levels, with those that are repeated. -/
def fill : ℕ → {α : Type} → List α → List α
  | 0, _, l => l
  | n + 1, _, l => (fill n (pairs l)).flatMap fun p => [p.1, p.2]

/-- The number of levels above a list. -/
def height {α : Type*} (l : List α) : ℕ := Nat.clog 2 l.length

/-- The leaves of the complete tree over a list. -/
def filled {α : Type} (l : List α) : List α := fill (height l) l

section Fill

variable {α β : Type} {node : α → α → α}

theorem pairs_map (f : α → β) (l : List α) : pairs (l.map f) = (pairs l).map fun p => (f p.1, f p.2) := by
  induction l using pairs.induct with
  | case1 a b r ih => simp only [List.map_cons, pairs, ih]
  | case2 a => rfl
  | case3 => rfl

theorem fill_map {n : ℕ} : ∀ {α β : Type} (f : α → β) (l : List α), fill n (l.map f) = (fill n l).map f := by
  induction n with
  | zero => intros; rfl
  | succ n ih =>
    intro α β f l
    rw [fill, fill, pairs_map, ih, List.flatMap_map, List.map_flatMap]
    rfl

theorem mem_of_mem_pairs {l : List α} {p : α × α} (h : p ∈ pairs l) : p.1 ∈ l ∧ p.2 ∈ l :=
  forall_mem_pairs (P := fun a => a ∈ l) (fun _ ha => ha) p h

/-- Only leaves are repeated. -/
theorem mem_of_mem_fill {n : ℕ} : ∀ {α : Type} {l : List α} {a : α}, a ∈ fill n l → a ∈ l := by
  induction n with
  | zero => exact fun h => h
  | succ n ih =>
    intro α l a h
    obtain ⟨p, hp, ha⟩ := List.mem_flatMap.mp h
    have hmem := mem_of_mem_pairs (ih hp)
    simp only [List.mem_cons, List.not_mem_nil, or_false] at ha
    rcases ha with rfl | rfl
    · exact hmem.1
    · exact hmem.2

theorem exists_pair_of_mem {l : List α} {a : α} (h : a ∈ l) : ∃ p ∈ pairs l, a = p.1 ∨ a = p.2 := by
  induction l using pairs.induct with
  | case1 b c r ih =>
    rcases List.mem_cons.mp h with rfl | h
    · exact ⟨(a, c), List.mem_cons_self, .inl rfl⟩
    rcases List.mem_cons.mp h with rfl | h
    · exact ⟨(b, a), List.mem_cons_self, .inr rfl⟩
    obtain ⟨p, hp, ha⟩ := ih h
    exact ⟨p, List.mem_cons_of_mem _ hp, ha⟩
  | case2 b => exact ⟨(b, b), List.mem_cons_self, .inl (List.mem_singleton.mp h)⟩
  | case3 => cases h

/-- Every leaf is one of the complete tree. -/
theorem mem_fill {n : ℕ} : ∀ {α : Type} {l : List α} {a : α}, a ∈ l → a ∈ fill n l := by
  induction n with
  | zero => exact fun h => h
  | succ n ih =>
    intro α l a h
    obtain ⟨p, hp, ha⟩ := exists_pair_of_mem h
    refine List.mem_flatMap.mpr ⟨p, ih hp, ?_⟩
    simpa using ha

theorem pairs_ne_nil {l : List α} (h : l ≠ []) : pairs l ≠ [] := by
  match l with
  | [a] => simp [pairs]
  | a :: b :: r => simp [pairs]

theorem fill_ne_nil {n : ℕ} : ∀ {α : Type} {l : List α}, l ≠ [] → fill n l ≠ [] := by
  induction n with
  | zero => exact fun h => h
  | succ n ih =>
    intro α l h
    obtain ⟨p, r, hp⟩ := List.exists_cons_of_ne_nil (ih (pairs_ne_nil h))
    rw [fill, hp]
    simp

theorem length_unpaired (l : List (α × α)) : (l.flatMap fun p => [p.1, p.2]).length = 2 * l.length := by
  induction l with
  | nil => rfl
  | cons p l ih =>
    simp only [List.flatMap_cons, List.length_append, List.length_cons, List.length_nil, ih]
    omega

/-- The complete tree of `n` levels has `2 ^ n` leaves. -/
theorem length_fill {n : ℕ} : ∀ {α : Type} {l : List α}, l ≠ [] → l.length ≤ 2 ^ n →
    (fill n l).length = 2 ^ n := by
  induction n with
  | zero =>
    intro α l hne hle
    have hpos := List.length_pos_iff.mpr hne
    rw [fill, Nat.pow_zero] at *
    omega
  | succ n ih =>
    intro α l hne hle
    have hpairs : (pairs l).length ≤ 2 ^ n := by
      rw [length_pairs]
      rw [Nat.pow_succ] at hle
      omega
    rw [fill, length_unpaired, ih (pairs_ne_nil hne) hpairs, Nat.pow_succ]
    omega

theorem length_filled {l : List α} (hne : l ≠ []) : (filled l).length = 2 ^ height l :=
  length_fill hne (Nat.le_pow_clog (by decide) _)

/-- A list of pairs is determined by the list of their parts. -/
theorem unpaired_inj {l l' : List (α × α)}
    (h : (l.flatMap fun p => [p.1, p.2]) = l'.flatMap fun p => [p.1, p.2]) : l = l' := by
  induction l generalizing l' with
  | nil =>
    cases l' with
    | nil => rfl
    | cons q l' => cases h
  | cons p l ih =>
    cases l' with
    | nil => cases h
    | cons q l' =>
      simp only [List.flatMap_cons, List.cons_append, List.nil_append, List.cons.injEq] at h
      rw [ih h.2.2, Prod.ext h.1 h.2.1]

theorem level_unpaired (l : List (α × α)) :
    level node (l.flatMap fun p => [p.1, p.2]) = l.map fun p => node p.1 p.2 := by
  induction l with
  | nil => rfl
  | cons p l ih =>
    have hstep : level node (p.1 :: p.2 :: l.flatMap fun p => [p.1, p.2]) =
        node p.1 p.2 :: level node (l.flatMap fun p => [p.1, p.2]) := rfl
    rw [List.flatMap_cons, List.map_cons, ← ih]
    exact hstep

/-- The levels above the complete tree are those above the list. -/
theorem levels_fill {n : ℕ} {l : List α} : levels node n (fill n l) = levels node n l := by
  induction n generalizing l with
  | zero => rfl
  | succ n ih => rw [levels, levels, fill, level_unpaired, ← fill_map, ← level, ih]

/-- Equal levels mean equal complete trees, if none of the pairs combined below them collide. -/
theorem fill_eq_of_levels {n : ℕ} {l l' : List α}
    (hinj : ∀ p ∈ combined node n l, ∀ q ∈ combined node n l', node p.1 p.2 = node q.1 q.2 → p = q)
    (h : levels node n l = levels node n l') : fill n l = fill n l' := by
  induction n generalizing l l' with
  | zero => exact h
  | succ n ih =>
    have hlevel : fill n (level node l) = fill n (level node l') :=
      ih (fun p hp q hq => hinj p (List.mem_append_right _ hp) q (List.mem_append_right _ hq)) h
    rw [level, level, fill_map, fill_map] at hlevel
    rw [fill, fill, map_inj_on (fun p hp q hq => hinj p (List.mem_append_left _ (mem_of_mem_fill hp)) q
      (List.mem_append_left _ (mem_of_mem_fill hq))) hlevel]

theorem length_level (l : List α) : (level node l).length = (l.length + 1) / 2 := by
  rw [level, List.length_map, length_pairs]

theorem height_level {l : List α} (h : 2 ≤ l.length) : height l = height (level node l) + 1 := by
  rw [height, height, length_level, Nat.clog_of_two_le (by decide) h,
    show l.length + 2 - 1 = l.length + 1 by omega]

theorem levels_succ (n : ℕ) (l : List α) : levels node (n + 1) l = level node (levels node n l) := by
  induction n generalizing l with
  | zero => rfl
  | succ n ih => rw [levels, ih, levels]

theorem levels_add (m n : ℕ) (l : List α) : levels node (m + n) l = levels node m (levels node n l) := by
  induction n generalizing l with
  | zero => rfl
  | succ n ih => rw [← Nat.add_assoc, levels, ih, levels]

/-- What is combined in the upper levels is among what is combined in all. -/
theorem combined_add (m n : ℕ) (l : List α) :
    combined node (n + m) l = combined node n l ++ combined node m (levels node n l) := by
  induction n generalizing l with
  | zero => simp [combined, levels]
  | succ n ih =>
    rw [Nat.add_right_comm, combined, ih, combined, levels, List.append_assoc]

/-- A level above the leaves consists of combined pairs. -/
theorem exists_of_mem_levels {n : ℕ} {l : List α} {a : α} (h : a ∈ levels node (n + 1) l) :
    ∃ p ∈ combined node (n + 1) l, a = node p.1 p.2 := by
  rw [levels_succ] at h
  obtain ⟨p, hp, rfl⟩ := List.mem_map.mp h
  refine ⟨p, ?_, rfl⟩
  rw [combined_add 1 n]
  exact List.mem_append_right _ (List.mem_append_left _ hp)

theorem combined_sub {m n : ℕ} {l : List α} {p : α × α} (h : p ∈ combined node n l) :
    p ∈ combined node (n + m) l := by
  rw [combined_add]
  exact List.mem_append_left _ h

/-- What is combined is a leaf, or a node over what is combined. -/
theorem mem_or_node_of_combined {n : ℕ} {l : List α} {p : α × α} (h : p ∈ combined node n l) {a : α}
    (ha : a = p.1 ∨ a = p.2) : a ∈ l ∨ ∃ q ∈ combined node n l, a = node q.1 q.2 := by
  induction n generalizing l with
  | zero => cases h
  | succ n ih =>
    rcases List.mem_append.mp h with hp | hp
    · have hmem := mem_of_mem_pairs hp
      rcases ha with rfl | rfl
      · exact .inl hmem.1
      · exact .inl hmem.2
    · rcases ih hp with hlevel | ⟨q, hq, heq⟩
      · obtain ⟨q, hq, rfl⟩ := List.mem_map.mp hlevel
        exact .inr ⟨q, List.mem_append_left _ hq, rfl⟩
      · exact .inr ⟨q, List.mem_append_right _ hq, heq⟩

/-- No two of the pairs that are combined over the two lists collide, and no leaf of the one is a node over
the other. -/
structure Apart (node : α → α → α) (l l' : List α) : Prop where
  nodes : ∀ p ∈ combined node (height l) l, ∀ q ∈ combined node (height l') l',
    node p.1 p.2 = node q.1 q.2 → p = q
  leaves : ∀ a ∈ l, ∀ q ∈ combined node (height l') l', a ≠ node q.1 q.2
  leaves' : ∀ a ∈ l', ∀ p ∈ combined node (height l) l, a ≠ node p.1 p.2

theorem Apart.symm {l l' : List α} (h : Apart node l l') : Apart node l' l where
  nodes := fun p hp q hq heq => (h.nodes q hq p hp heq.symm).symm
  leaves := h.leaves'
  leaves' := h.leaves

/-- Trees with one root are equally high: the leaves of the lower one would be nodes of the other. -/
theorem height_le_of_root {l l' : List α} (hne : l ≠ []) (h : Apart node l l')
    (hroot : levels node (height l) l = levels node (height l') l') : height l' ≤ height l := by
  by_contra hlt
  obtain ⟨d, hd⟩ : ∃ d, height l' = height l + (d + 1) := ⟨height l' - height l - 1, by omega⟩
  rw [hd, levels_add] at hroot
  have hfill := @fill_eq_of_levels _ node _ _ _ (fun p hp q hq => h.nodes p hp q (by
    rw [hd, Nat.add_comm, combined_add]
    exact List.mem_append_right _ hq)) hroot
  obtain ⟨a, r, ha⟩ := List.exists_cons_of_ne_nil (fill_ne_nil (n := height l) hne)
  have hleaf : a ∈ l := mem_of_mem_fill (ha ▸ List.mem_cons_self)
  have hnode : a ∈ levels node (d + 1) l' := mem_of_mem_fill (n := height l) (by
    rw [← hfill, ha]
    exact List.mem_cons_self)
  obtain ⟨q, hq, rfl⟩ := exists_of_mem_levels hnode
  refine h.leaves _ hleaf q ?_ rfl
  rw [hd, Nat.add_comm (height l)]
  exact combined_sub hq

/-- Two trees have one root exactly if their complete leaf lists are equal, where nothing collides. -/
theorem roots_eq_iff {l l' : List α} (hne : l ≠ []) (hne' : l' ≠ []) (h : Apart node l l') :
    levels node (height l) l = levels node (height l') l' ↔ filled l = filled l' := by
  constructor
  · intro hroot
    have hheight : height l = height l' :=
      Nat.le_antisymm (height_le_of_root hne' h.symm hroot.symm) (height_le_of_root hne h hroot)
    rw [filled, filled, ← hheight]
    rw [← hheight] at hroot
    exact fill_eq_of_levels (fun p hp q hq => h.nodes p hp q (hheight ▸ hq)) hroot
  · intro hfill
    have hlength := congrArg List.length hfill
    rw [length_filled hne, length_filled hne'] at hlength
    have hheight : height l = height l' := Nat.pow_right_injective (by decide) hlength
    rw [filled, filled, ← hheight] at hfill
    rw [← hheight, ← levels_fill, hfill, levels_fill]

end Fill

end Merkle
