import Mathlib

/-!
# Maps that keep an order of their keys

A map is the list of its entries. `put` replaces the value of a key where the key stands; a new key
goes before the first key that `before` says it precedes, and to the end when there is none. This is
the order in which a language with ordered records enumerates their properties; with a `before` that
never holds it is insertion order.

`get_put` and `get_erase` are the laws of a finite map. `Normal` is the invariant of every map built
by `put` and `erase`: distinct keys, in an order that `before` allows; `foldl_put_normal` rebuilds a
normal map from its entries. `total_put` and `total_erase` say what the operations do to a sum over
the values.
-/

namespace OrderedMap

variable {α β γ : Type*} [DecidableEq α]

/-- The value of a key. -/
def get (k : α) : List (α × β) → Option β
  | [] => none
  | (l, w) :: m => if l = k then some w else get k m

/-- The value of a key replaced, where the key stands. -/
def replace (k : α) (v : β) : List (α × β) → List (α × β)
  | [] => []
  | (l, w) :: m => if l = k then (k, v) :: m else (l, w) :: replace k v m

/-- A new entry in its place. -/
def insert (before : α → α → Bool) (k : α) (v : β) : List (α × β) → List (α × β)
  | [] => [(k, v)]
  | (l, w) :: m => if before k l then (k, v) :: (l, w) :: m else (l, w) :: insert before k v m

/-- The value of a key set. -/
def put (before : α → α → Bool) (k : α) (v : β) (m : List (α × β)) : List (α × β) :=
  if (get k m).isSome then replace k v m else insert before k v m

/-- The entry of a key removed. -/
def erase (k : α) : List (α × β) → List (α × β)
  | [] => []
  | (l, w) :: m => if l = k then erase k m else (l, w) :: erase k m

variable {before : α → α → Bool} {k l : α} {v : β} {m : List (α × β)}

/-! ## The laws of a finite map -/

@[simp] theorem get_nil : get k ([] : List (α × β)) = none := rfl

theorem get_replace (h : (get k m).isSome) :
    get l (replace k v m) = if k = l then some v else get l m := by
  induction m with
  | nil => cases h
  | cons e m ih =>
    obtain ⟨j, w⟩ := e
    by_cases hj : j = k
    · subst hj
      by_cases hl : j = l <;> simp [replace, get, hl]
    · rw [get, if_neg hj] at h
      rw [replace, if_neg hj, get, get, ih h]
      by_cases hl : j = l
      · have hk : k ≠ l := fun e => hj (hl.trans e.symm)
        rw [if_pos hl, if_neg hk, if_pos hl]
      · rw [if_neg hl, if_neg hl]

theorem get_insert (h : get k m = none) :
    get l (insert before k v m) = if k = l then some v else get l m := by
  induction m with
  | nil => simp [insert, get]
  | cons e m ih =>
    obtain ⟨j, w⟩ := e
    have hj : j ≠ k := by
      rintro rfl
      simp [get] at h
    rw [get, if_neg hj] at h
    by_cases hb : before k j = true
    · rw [insert, if_pos hb, get]
    · rw [insert, if_neg hb, get, get, ih h]
      by_cases hl : j = l
      · have hk : k ≠ l := fun e => hj (hl.trans e.symm)
        rw [if_pos hl, if_neg hk, if_pos hl]
      · rw [if_neg hl, if_neg hl]

/-- Setting a key changes what that key holds, and nothing else. -/
theorem get_put (k l : α) (v : β) (m : List (α × β)) :
    get l (put before k v m) = if k = l then some v else get l m := by
  unfold put
  split
  · next h => exact get_replace h
  · next h => exact get_insert (by simpa using h)

@[simp] theorem get_put_self : get k (put before k v m) = some v := by rw [get_put, if_pos rfl]

theorem get_put_of_ne (h : k ≠ l) : get l (put before k v m) = get l m := by rw [get_put, if_neg h]

/-- Removing a key leaves nothing under it, and what the others hold. -/
theorem get_erase (k l : α) (m : List (α × β)) :
    get l (erase k m) = if k = l then none else get l m := by
  induction m with
  | nil => simp [erase]
  | cons e m ih =>
    obtain ⟨j, w⟩ := e
    by_cases hj : j = k
    · subst hj
      rw [erase, if_pos rfl, ih, get]
      split_ifs <;> rfl
    · rw [erase, if_neg hj, get, get, ih]
      by_cases hl : j = l
      · have hk : k ≠ l := fun e => hj (hl.trans e.symm)
        rw [if_pos hl, if_neg hk, if_pos hl]
      · rw [if_neg hl, if_neg hl]

@[simp] theorem get_erase_self : get k (erase k m) = none := by rw [get_erase, if_pos rfl]

theorem get_erase_of_ne (h : k ≠ l) : get l (erase k m) = get l m := by rw [get_erase, if_neg h]

theorem mem_of_get (h : get k m = some v) : (k, v) ∈ m := by
  induction m with
  | nil => cases h
  | cons e m ih =>
    obtain ⟨j, w⟩ := e
    rw [get] at h
    split_ifs at h with hj
    · obtain rfl := Option.some.inj h
      simp [hj]
    · exact List.mem_cons_of_mem _ (ih h)

theorem get_eq_none_iff : get k m = none ↔ ∀ e ∈ m, e.1 ≠ k := by
  induction m with
  | nil => simp
  | cons e m ih =>
    obtain ⟨j, w⟩ := e
    by_cases hj : j = k <;> simp [get, hj, ih]

/-- Something is held under the key of an entry. -/
theorem exists_get_of_mem {e : α × β} (h : e ∈ m) : ∃ v, get e.1 m = some v := by
  refine Option.ne_none_iff_exists'.mp fun hnone => ?_
  exact get_eq_none_iff.mp hnone e h rfl

/-- The entries of a map whose keys are distinct are what its keys hold. -/
theorem get_of_mem (hm : (m.map Prod.fst).Nodup) (h : (k, v) ∈ m) : get k m = some v := by
  induction m with
  | nil => cases h
  | cons e m ih =>
    obtain ⟨j, w⟩ := e
    rw [List.map_cons, List.nodup_cons] at hm
    rcases List.mem_cons.mp h with he | h
    · cases he
      simp [get]
    · have hj : j ≠ k := by
        rintro rfl
        exact hm.1 (List.mem_map.mpr ⟨_, h, rfl⟩)
      rw [get, if_neg hj, ih hm.2 h]

/-! ## Entries -/

theorem mem_replace {e : α × β} (h : e ∈ replace k v m) : e = (k, v) ∨ e ∈ m := by
  induction m with
  | nil => cases h
  | cons f m ih =>
    obtain ⟨j, w⟩ := f
    rw [replace] at h
    split_ifs at h with hj
    · exact (List.mem_cons.mp h).imp_right (List.mem_cons_of_mem _)
    · rcases List.mem_cons.mp h with rfl | h
      · exact .inr (by simp)
      · exact (ih h).imp_right (List.mem_cons_of_mem _)

theorem mem_insert {e : α × β} : e ∈ insert before k v m ↔ e = (k, v) ∨ e ∈ m := by
  induction m with
  | nil => simp [insert]
  | cons f m ih =>
    rw [insert]
    split_ifs
    · simp
    · simp only [List.mem_cons, ih]
      tauto

/-- The entries after a key is set. -/
theorem mem_put {e : α × β} (h : e ∈ put before k v m) : e = (k, v) ∨ e ∈ m := by
  unfold put at h
  split at h
  · exact mem_replace h
  · exact mem_insert.mp h

theorem erase_eq_filter (k : α) (m : List (α × β)) : erase k m = m.filter fun e => e.1 ≠ k := by
  induction m with
  | nil => rfl
  | cons e m ih =>
    obtain ⟨j, w⟩ := e
    by_cases hj : j = k <;> simp [erase, hj, ih]

theorem mem_erase {e : α × β} : e ∈ erase k m ↔ e ∈ m ∧ e.1 ≠ k := by
  simp [erase_eq_filter]

/-- Nothing is removed where the key has no entry. -/
theorem erase_of_get_eq_none (h : get k m = none) : erase k m = m := by
  rw [erase_eq_filter, List.filter_eq_self]
  intro e he
  simpa using get_eq_none_iff.mp h e he

/-! ## The order of keys -/

/-- Distinct keys, none of which should stand before an earlier one. -/
def Normal (before : α → α → Bool) (m : List (α × β)) : Prop :=
  m.Pairwise fun e f => e.1 ≠ f.1 ∧ before f.1 e.1 = false

instance : Decidable (Normal before m) := by unfold Normal; infer_instance

omit [DecidableEq α] in
theorem normal_nil : Normal before ([] : List (α × β)) := List.Pairwise.nil

omit [DecidableEq α] in
theorem Normal.nodup (h : Normal before m) : (m.map Prod.fst).Nodup :=
  List.pairwise_map.mpr (List.Pairwise.imp And.left h)

theorem Normal.erase (h : Normal before m) (k : α) : Normal before (erase k m) := by
  rw [erase_eq_filter]
  exact List.Pairwise.filter _ h

omit [DecidableEq α] in
/-- Normality reads the keys alone. -/
theorem Normal.of_keys {m' : List (α × γ)} (h : Normal before m)
    (hk : m'.map Prod.fst = m.map Prod.fst) : Normal before m' := by
  have h1 : (m.map Prod.fst).Pairwise fun a b => a ≠ b ∧ before b a = false :=
    List.pairwise_map.mpr h
  rw [← hk] at h1
  exact List.pairwise_map.mp h1

theorem map_fst_replace : (replace k v m).map Prod.fst = m.map Prod.fst := by
  induction m with
  | nil => rfl
  | cons e m ih =>
    obtain ⟨j, w⟩ := e
    by_cases hj : j = k <;> simp [replace, hj, ih]

theorem Normal.insert (trans : ∀ a b c, before a b = true → before b c = true → before a c = true)
    (asymm : ∀ a b, before a b = true → before b a = false)
    (h : Normal before m) (hk : get k m = none) : Normal before (insert before k v m) := by
  induction m with
  | nil => exact List.pairwise_singleton _ _
  | cons e m ih =>
    obtain ⟨j, w⟩ := e
    obtain ⟨hj, hm⟩ := List.pairwise_cons.mp h
    have hne : ∀ f ∈ (j, w) :: m, f.1 ≠ k := get_eq_none_iff.mp hk
    rw [OrderedMap.insert]
    split_ifs with hb
    · refine List.pairwise_cons.mpr ⟨fun f hf => ⟨(hne f hf).symm, ?_⟩, h⟩
      rcases List.mem_cons.mp hf with rfl | hf
      · exact asymm _ _ hb
      · -- a later key that went before `k` would go before `j`
        by_contra hc
        have := trans _ _ _ (by simpa using hc) hb
        rw [(hj f hf).2] at this
        cases this
    · refine List.pairwise_cons.mpr ⟨fun f hf => ?_, ih hm ?_⟩
      · rcases mem_insert.mp hf with rfl | hf
        · exact ⟨hne _ (by simp), by simpa using hb⟩
        · exact hj f hf
      · exact get_eq_none_iff.mpr fun f hf => hne f (List.mem_cons_of_mem _ hf)

/-- Setting a key keeps a map normal, for an order that is transitive and asymmetric. -/
theorem Normal.put (trans : ∀ a b c, before a b = true → before b c = true → before a c = true)
    (asymm : ∀ a b, before a b = true → before b a = false)
    (h : Normal before m) (k : α) (v : β) : Normal before (put before k v m) := by
  unfold OrderedMap.put
  split
  · exact h.of_keys map_fst_replace
  · next hk => exact h.insert trans asymm (by simpa using hk)

omit [DecidableEq α] in
theorem insert_eq_append (h : ∀ e ∈ m, before k e.1 = false) :
    insert before k v m = m ++ [(k, v)] := by
  induction m with
  | nil => rfl
  | cons e m ih =>
    obtain ⟨j, w⟩ := e
    have hj : before k j = false := h (j, w) (by simp)
    rw [insert, if_neg (by simp [hj]), ih fun f hf => h f (List.mem_cons_of_mem _ hf)]
    rfl

/-- A normal map is what setting its entries one after another builds. -/
theorem foldl_put_normal (m : List (α × β)) : ∀ acc : List (α × β), Normal before (acc ++ m) →
    m.foldl (fun a e => put before e.1 e.2 a) acc = acc ++ m := by
  induction m with
  | nil => intro acc _; simp
  | cons e m ih =>
    intro acc h
    have hcross := (List.pairwise_append.mp h).2.2
    have hnone : get e.1 acc = none :=
      get_eq_none_iff.mpr fun f hf => (hcross f hf e (by simp)).1
    have hput : put before e.1 e.2 acc = acc ++ [e] := by
      rw [put, if_neg (by simp [hnone])]
      exact insert_eq_append fun f hf => (hcross f hf e (by simp)).2
    rw [List.foldl_cons, hput, ih _ (by simpa using h)]
    simp

/-- Setting entries one after another keeps a map normal. -/
theorem Normal.foldl_put (trans : ∀ a b c, before a b = true → before b c = true → before a c = true)
    (asymm : ∀ a b, before a b = true → before b a = false) (l : List (α × β))
    (h : Normal before m) :
    Normal before (l.foldl (fun a e => OrderedMap.put before e.1 e.2 a) m) := by
  induction l generalizing m with
  | nil => exact h
  | cons e l ih => exact ih (h.put trans asymm e.1 e.2)

theorem get_append (k : α) (l m : List (α × β)) : get k (l ++ m) = (get k l).or (get k m) := by
  induction l with
  | nil => rfl
  | cons e l ih =>
    obtain ⟨j, w⟩ := e
    rw [List.cons_append, get, get]
    split
    · rfl
    · exact ih

/-- What a key holds after entries are set one after another: the last of them decides. -/
theorem get_foldl_put_reverse (l : List (α × β)) (k : α) :
    get k (l.foldl (fun a e => put before e.1 e.2 a) m) = (get k l.reverse).or (get k m) := by
  induction l generalizing m with
  | nil => rfl
  | cons e l ih =>
    obtain ⟨j, w⟩ := e
    rw [List.foldl_cons, ih, get_put, List.reverse_cons, get_append, Option.or_assoc]
    simp only [get]
    split <;> rfl

/-- Nothing changes where the value of a key is set again. -/
theorem put_self (h : get k m = some v) : put before k v m = m := by
  rw [put, if_pos (by simp [h])]
  induction m with
  | nil => rfl
  | cons e m ih =>
    obtain ⟨j, w⟩ := e
    rw [get] at h
    rw [replace]
    split_ifs at h ⊢ with hj
    · cases h
      rw [hj]
    · rw [ih h]

/-- A key is set to the value that is written last. -/
theorem put_put (k : α) (v w : β) (m : List (α × β)) :
    put before k w (put before k v m) = put before k w m := by
  have hreplace : ∀ m : List (α × β), replace k w (replace k v m) = replace k w m := by
    intro m
    induction m with
    | nil => rfl
    | cons e m ih =>
      obtain ⟨j, x⟩ := e
      by_cases hj : j = k
      · simp [replace, hj]
      · simp [replace, hj, ih]
  have hinsert : ∀ m : List (α × β), get k m = none →
      replace k w (insert before k v m) = insert before k w m := by
    intro m hm
    induction m with
    | nil => simp [insert, replace]
    | cons e m ih =>
      obtain ⟨j, x⟩ := e
      rw [get] at hm
      split_ifs at hm with hj
      by_cases hb : before k j = true
      · simp [insert, hb, replace]
      · simp [insert, hb, replace, hj, ih hm]
  rw [put, if_pos (by simp), put, put]
  cases hk : get k m with
  | some x => exact hreplace m
  | none => exact hinsert m hk

/-- A write of one key stays behind a write in the place of another. -/
theorem put_put_of_ne (h : k ≠ l) (hl : (get l m).isSome) (v w : β) :
    put before k v (put before l w m) = put before l w (put before k v m) := by
  have hreplace : ∀ m : List (α × β),
      replace k v (replace l w m) = replace l w (replace k v m) := by
    intro m
    induction m with
    | nil => rfl
    | cons e m ih =>
      obtain ⟨j, x⟩ := e
      by_cases hjl : j = l
      · subst hjl
        simp [replace, Ne.symm h]
      · by_cases hjk : j = k
        · subst hjk
          simp [replace, h]
        · simp [replace, hjl, hjk, ih]
  have hinsert : ∀ m : List (α × β), get k m = none →
      insert before k v (replace l w m) = replace l w (insert before k v m) := by
    intro m hm
    induction m with
    | nil => simp [replace, insert, h]
    | cons e m ih =>
      obtain ⟨j, x⟩ := e
      rw [get] at hm
      split_ifs at hm with hjk
      by_cases hjl : j = l
      · subst hjl
        by_cases hb : before k j = true <;> simp [replace, insert, hb, h]
      · by_cases hb : before k j = true
        · simp [replace, insert, hb, hjl, h]
        · simp [replace, insert, hb, hjl, ih hm]
  have hl' : (get l (put before k v m)).isSome := by rwa [get_put_of_ne h]
  have hput : put before l w m = replace l w m := if_pos hl
  have hget : get k (replace l w m) = get k m := by rw [← hput, get_put_of_ne h.symm]
  have hright : put before l w (put before k v m) = replace l w (put before k v m) := if_pos hl'
  rw [hright, hput, put, hget, put]
  split
  · exact hreplace m
  · next hk => exact hinsert m (Option.not_isSome_iff_eq_none.mp hk)

theorem erase_replace_of_ne (h : k ≠ l) (w : β) :
    erase k (replace l w m) = replace l w (erase k m) := by
  induction m with
  | nil => rfl
  | cons e m ih =>
    obtain ⟨j, x⟩ := e
    by_cases hjl : j = l
    · subst hjl
      simp [replace, erase, h.symm]
    · by_cases hjk : j = k
      · subst hjk
        simp [replace, erase, h, ih]
      · simp [replace, erase, hjl, hjk, ih]

/-- A key is removed beside a write in the place of another. -/
theorem erase_put_of_ne (h : k ≠ l) (hl : (get l m).isSome) (w : β) :
    erase k (put before l w m) = put before l w (erase k m) := by
  rw [put, if_pos hl, erase_replace_of_ne h, put, get_erase_of_ne h, if_pos hl]

/-- Nothing is left of a write to a key that is removed. -/
theorem erase_put_self (k : α) (v : β) (m : List (α × β)) :
    erase k (put before k v m) = erase k m := by
  have hreplace : erase k (replace k v m) = erase k m := by
    induction m with
    | nil => rfl
    | cons e m ih =>
      obtain ⟨j, x⟩ := e
      by_cases hj : j = k
      · simp [replace, erase, hj]
      · simp [replace, erase, hj, ih]
  have hinsert : ∀ m : List (α × β), erase k (insert before k v m) = erase k m := by
    intro m
    induction m with
    | nil => simp [insert, erase]
    | cons e m ih =>
      obtain ⟨j, x⟩ := e
      rw [insert]
      split
      · simp [erase]
      · rw [erase, erase, ih]
  rw [put]
  split
  · exact hreplace
  · exact hinsert m

/-- A test of the values does not see a write that it does not tell from what stood there. -/
theorem any_put {w : β} {f : β → Bool} (h : get k m = some w) (hf : f v = f w) :
    (put before k v m).any (fun e => f e.2) = m.any fun e => f e.2 := by
  rw [put, if_pos (by rw [h]; rfl)]
  induction m with
  | nil => cases h
  | cons e m ih =>
    obtain ⟨j, x⟩ := e
    rw [get] at h
    rw [replace]
    split_ifs at h ⊢ with hj
    · cases h
      simp only [List.any_cons, hf]
    · simp only [List.any_cons, ih h]

/-- Where a value is written: in the place of the key's entry, or at a new one. -/
theorem put_eq_append (k : α) (v : β) (m : List (α × β)) : ∃ a b,
    put before k v m = a ++ (k, v) :: b ∧ (m = a ++ b ∨ ∃ x, m = a ++ (k, x) :: b) := by
  have hreplace : ∀ m : List (α × β), (get k m).isSome →
      ∃ a b x, replace k v m = a ++ (k, v) :: b ∧ m = a ++ (k, x) :: b := by
    intro m hm
    induction m with
    | nil => cases hm
    | cons e m ih =>
      obtain ⟨j, x⟩ := e
      rw [get] at hm
      by_cases hj : j = k
      · exact ⟨[], m, x, by simp [replace, hj], by simp [hj]⟩
      · rw [if_neg hj] at hm
        obtain ⟨a, b, y, hr, rfl⟩ := ih hm
        exact ⟨(j, x) :: a, b, y, by simp [replace, hj, hr], rfl⟩
  have hinsert : ∀ m : List (α × β), ∃ a b, insert before k v m = a ++ (k, v) :: b ∧ m = a ++ b := by
    intro m
    induction m with
    | nil => exact ⟨[], [], rfl, rfl⟩
    | cons e m ih =>
      obtain ⟨j, x⟩ := e
      by_cases hb : before k j = true
      · exact ⟨[], (j, x) :: m, by simp [insert, hb], rfl⟩
      · obtain ⟨a, b, hi, rfl⟩ := ih
        exact ⟨(j, x) :: a, b, by simp [insert, hb, hi], rfl⟩
  rw [put]
  split
  · next hk =>
    obtain ⟨a, b, x, hr, hm⟩ := hreplace m hk
    exact ⟨a, b, hr, .inr ⟨x, hm⟩⟩
  · obtain ⟨a, b, hi, hm⟩ := hinsert m
    exact ⟨a, b, hi, .inl hm⟩

/-- What is held last under a key after a value was written. -/
theorem get_reverse_put {w : β} (h : get l (put before k v m).reverse = some w) :
    l = k ∧ w = v ∨ get l m.reverse = some w := by
  obtain ⟨a, b, hput, hm⟩ := @put_eq_append _ _ _ before k v m
  rw [hput, List.reverse_append, List.reverse_cons, List.append_assoc, get_append,
    Option.or_eq_some_iff] at h
  have hsplit : m.reverse = b.reverse ++ a.reverse ∨
      ∃ x, m.reverse = b.reverse ++ ((k, x) :: a.reverse) := by
    rcases hm with rfl | ⟨x, rfl⟩
    · exact .inl (List.reverse_append)
    · exact .inr ⟨x, by simp⟩
  rcases h with h | ⟨hb, h⟩
  · right
    rcases hsplit with hs | ⟨x, hs⟩ <;> rw [hs, get_append, h] <;> rfl
  · rw [List.singleton_append, get] at h
    by_cases hk : k = l
    · rw [if_pos hk] at h
      cases h
      exact .inl ⟨hk.symm, rfl⟩
    · rw [if_neg hk] at h
      right
      rcases hsplit with hs | ⟨x, hs⟩
      · rw [hs, get_append, hb, h]
        rfl
      · rw [hs, get_append, hb, get, if_neg hk, h]
        rfl

theorem isSome_get_reverse (k : α) (m : List (α × β)) :
    (get k m.reverse).isSome = (get k m).isSome := by
  rw [Bool.eq_iff_iff, Option.isSome_iff_ne_none, Option.isSome_iff_ne_none, ne_eq, ne_eq,
    get_eq_none_iff, get_eq_none_iff]
  simp only [List.mem_reverse]

/-- Maps with the same entries hold the same. -/
theorem get_perm {l : List (α × β)} (hl : (l.map Prod.fst).Nodup) (h : l.Perm m) (k : α) :
    get k l = get k m := by
  have hm : (m.map Prod.fst).Nodup := (h.map Prod.fst).nodup_iff.mp hl
  cases hg : get k m with
  | some v => exact get_of_mem hl (h.mem_iff.mpr (mem_of_get hg))
  | none =>
    rw [get_eq_none_iff] at hg ⊢
    exact fun e he => hg e (h.mem_iff.mp he)

/-- What a key holds after entries with distinct keys are set. -/
theorem get_foldl_put {l : List (α × β)} (hl : (l.map Prod.fst).Nodup) (k : α) :
    get k (l.foldl (fun a e => put before e.1 e.2 a) m) = (get k l).or (get k m) := by
  rw [get_foldl_put_reverse, get_perm hl l.reverse_perm.symm]

omit [DecidableEq α] in
theorem insert_perm (before : α → α → Bool) (k : α) (v : β) (m : List (α × β)) :
    (insert before k v m).Perm ((k, v) :: m) := by
  induction m with
  | nil => exact .refl _
  | cons e m ih =>
    obtain ⟨l, w⟩ := e
    rw [insert]
    split
    · exact .refl _
    · exact (ih.cons _).trans (.swap _ _ _)

/-- Entries with distinct keys that are set one after another are all there. -/
theorem foldl_put_perm {l : List (α × β)} (h : ((m ++ l).map Prod.fst).Nodup) :
    (l.foldl (fun a e => put before e.1 e.2 a) m).Perm (m ++ l) := by
  induction l generalizing m with
  | nil => simp
  | cons e l ih =>
    have hnone : get e.1 m = none := by
      rw [List.map_append, List.nodup_append] at h
      refine get_eq_none_iff.mpr fun f hf => ?_
      exact h.2.2 _ (List.mem_map_of_mem hf) _ (by simp)
    have hput : (put before e.1 e.2 m).Perm (e :: m) := by
      rw [put, if_neg (by simp [hnone])]
      exact insert_perm before e.1 e.2 m
    have hmid : (put before e.1 e.2 m ++ l).Perm (m ++ e :: l) :=
      (hput.append_right l).trans List.perm_middle.symm
    rw [List.foldl_cons]
    exact (ih ((hmid.map Prod.fst).nodup_iff.mpr h)).trans hmid

/-- A function of the entries agrees on maps with the same keys, if it does key by key. -/
theorem map_congr_of_keys {δ : Type*} {f g : α × β → δ} {m' : List (α × β)}
    (hm : (m.map Prod.fst).Nodup) (hkeys : m.map Prod.fst = m'.map Prod.fst)
    (h : ∀ k v w, get k m = some v → get k m' = some w → f (k, v) = g (k, w)) :
    m.map f = m'.map g := by
  have hm' : (m'.map Prod.fst).Nodup := hkeys ▸ hm
  have hpart : ∀ l l' : List (α × β), l.map Prod.fst = l'.map Prod.fst → (∀ e ∈ l, e ∈ m) →
      (∀ e ∈ l', e ∈ m') → l.map f = l'.map g := by
    intro l
    induction l with
    | nil =>
      intro l' hl _ _
      rw [List.map_eq_nil_iff.mp hl.symm]
      rfl
    | cons e l ih =>
      intro l' hl hmem hmem'
      cases l' with
      | nil => cases hl
      | cons e' l' =>
        obtain ⟨k, v⟩ := e
        obtain ⟨k', w⟩ := e'
        rw [List.map_cons, List.map_cons, List.cons.injEq] at hl
        obtain ⟨rfl, hl⟩ := hl
        obtain ⟨he, hmem⟩ := List.forall_mem_cons.mp hmem
        obtain ⟨he', hmem'⟩ := List.forall_mem_cons.mp hmem'
        rw [List.map_cons, List.map_cons, h k v w (get_of_mem hm he) (get_of_mem hm' he'),
          ih l' hl hmem hmem']
  exact hpart m m' hkeys (fun _ h => h) fun _ h => h

/-- What a key holds where the entries of another are left out. -/
theorem get_filter_ne {j : α} (h : j ≠ k) (m : List (α × β)) :
    get k (m.filter fun e => e.1 ≠ j) = get k m := by
  rw [← erase_eq_filter, get_erase_of_ne h]

/-! ## Sums over the values -/

/-- The sum of a quantity of the values. -/
def total (f : β → ℤ) (m : List (α × β)) : ℤ := (m.map fun e => f e.2).sum

/-- The quantity under a key, nothing when the key is absent. -/
def amount (f : β → ℤ) (o : Option β) : ℤ := (o.map f).getD 0

@[simp] theorem amount_none (f : β → ℤ) : amount f none = 0 := rfl

@[simp] theorem amount_some (f : β → ℤ) (b : β) : amount f (some b) = f b := rfl

omit [DecidableEq α] in
@[simp] theorem total_nil (f : β → ℤ) : total f ([] : List (α × β)) = 0 := rfl

omit [DecidableEq α] in
@[simp] theorem total_cons (f : β → ℤ) (e : α × β) (m : List (α × β)) :
    total f (e :: m) = f e.2 + total f m := by simp [total]

theorem total_replace (f : β → ℤ) (h : (get k m).isSome) :
    total f (replace k v m) = total f m - amount f (get k m) + f v := by
  induction m with
  | nil => cases h
  | cons e m ih =>
    obtain ⟨j, w⟩ := e
    by_cases hj : j = k
    · simp only [replace, get, hj, if_true, total_cons, amount_some]
      abel
    · rw [get, if_neg hj] at h
      simp only [replace, get, hj, if_false, total_cons, ih h]
      abel

omit [DecidableEq α] in
theorem total_insert (f : β → ℤ) : total f (insert before k v m) = total f m + f v := by
  induction m with
  | nil => simp [insert]
  | cons e m ih =>
    rw [insert]
    split_ifs
    · simp only [total_cons]
      abel
    · simp only [total_cons, ih]
      abel

/-- Setting a key exchanges its old quantity for the new one. -/
theorem total_put (f : β → ℤ) (k : α) (v : β) (m : List (α × β)) :
    total f (put before k v m) = total f m - amount f (get k m) + f v := by
  unfold put
  split
  · next h => exact total_replace f h
  · next h =>
    have h : get k m = none := by simpa using h
    rw [total_insert, h, amount_none, sub_zero]

/-- Removing a key takes its quantity away, where keys are distinct. -/
theorem total_erase (f : β → ℤ) (hm : (m.map Prod.fst).Nodup) (k : α) :
    total f (erase k m) = total f m - amount f (get k m) := by
  induction m with
  | nil => simp [erase]
  | cons e m ih =>
    obtain ⟨j, w⟩ := e
    rw [List.map_cons, List.nodup_cons] at hm
    by_cases hj : j = k
    · subst hj
      have hnone : get j m = none :=
        get_eq_none_iff.mpr fun f hf he => hm.1 (List.mem_map.mpr ⟨f, hf, he⟩)
      simp only [erase, get, if_true, erase_of_get_eq_none hnone, total_cons, amount_some]
      abel
    · simp only [erase, get, hj, if_false, total_cons, ih hm.2]
      abel

omit [DecidableEq α] in
/-- A sum of quantities that are not negative is not negative. -/
theorem total_nonneg {f : β → ℤ} (h : ∀ e ∈ m, 0 ≤ f e.2) : 0 ≤ total f m :=
  List.sum_nonneg fun x hx => by
    obtain ⟨e, he, rfl⟩ := List.mem_map.mp hx
    exact h e he

end OrderedMap
