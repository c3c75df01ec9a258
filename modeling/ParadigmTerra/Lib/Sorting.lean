import Mathlib

/-!
# Lists sorted by a key

A sort by a key keeps the order of the elements of one key. So what is read off a sorted list does not depend
on the order before, exactly if elements of one key read the same: `sortBy_map_eq` and `exists_perm_of_ne`
are the two halves.
-/

namespace Sorting

variable {β κ γ : Type*} (key : β → κ) (le : κ → κ → Prop) [DecidableRel le]

/-- A list in the order of its keys. -/
def sortBy (l : List β) : List β := l.insertionSort fun a b => le (key a) (key b)

theorem sortBy_perm (l : List β) : (sortBy key le l).Perm l := List.perm_insertionSort _ _

theorem mem_sortBy {l : List β} {a : β} : a ∈ sortBy key le l ↔ a ∈ l := (sortBy_perm key le l).mem_iff

variable [Std.Total le] [IsTrans κ le]

theorem sortBy_pairwise (l : List β) : (sortBy key le l).Pairwise fun a b => le (key a) (key b) := by
  have htotal : Std.Total fun a b => le (key a) (key b) := ⟨fun a b => Std.Total.total (key a) (key b)⟩
  have htrans : IsTrans β fun a b => le (key a) (key b) := ⟨fun _ _ _ hab hbc => trans_of le hab hbc⟩
  exact List.pairwise_insertionSort _ _

variable [Std.Antisymm le]

/-- Elements of one key that read the same make the reading of a sorted list independent of the order. -/
theorem sortBy_map_eq {f : β → γ} {l l' : List β}
    (hf : ∀ a ∈ l, ∀ b ∈ l, key a = key b → f a = f b) (h : l.Perm l') :
    (sortBy key le l).map f = (sortBy key le l').map f := by
  have hpairs : (sortBy key le l).map (fun a => (key a, f a)) =
      (sortBy key le l').map fun a => (key a, f a) := by
    refine @List.Perm.eq_of_pairwise _ (fun p q : κ × γ => le p.1 q.1) _ _ (fun p q hp hq hpq hqp => ?_)
      (List.pairwise_map.mpr (sortBy_pairwise key le l)) (List.pairwise_map.mpr (sortBy_pairwise key le l'))
      ((((sortBy_perm key le l).trans h).trans (sortBy_perm key le l').symm).map _)
    obtain ⟨a, ha, rfl⟩ := List.mem_map.mp hp
    obtain ⟨b, hb, rfl⟩ := List.mem_map.mp hq
    have hkey : key a = key b := antisymm_of le hpq hqp
    have ha := (mem_sortBy key le).mp ha
    have hb := h.mem_iff.mpr ((mem_sortBy key le).mp hb)
    exact Prod.ext hkey (hf a ha b hb hkey)
  have hread := congrArg (List.map Prod.snd) hpairs
  rwa [List.map_map, List.map_map] at hread

variable [DecidableEq κ]

omit [IsTrans κ le] [Std.Antisymm le] in
/-- The sort is stable. -/
theorem filter_sortBy (k : κ) (l : List β) :
    (sortBy key le l).filter (fun a => key a = k) = l.filter fun a => key a = k := by
  have hpairwise : (l.filter fun a => key a = k).Pairwise fun a b => le (key a) (key b) := by
    refine List.pairwise_of_forall_mem_list fun a ha b hb => ?_
    have ha : key a = k := by simpa using (List.mem_filter.mp ha).2
    have hb : key b = k := by simpa using (List.mem_filter.mp hb).2
    rw [ha, hb]
    rcases Std.Total.total (r := le) k k with h | h <;> exact h
  have hsub : (l.filter fun a => key a = k).Sublist (sortBy key le l) :=
    List.sublist_insertionSort hpairwise List.filter_sublist
  have hfilter := hsub.filter fun a => key a = k
  rw [List.filter_filter] at hfilter
  simp only [Bool.and_self] at hfilter
  exact (hfilter.eq_of_length (((sortBy_perm key le l).filter _).length_eq).symm).symm

/-- Two elements of one key that read differently make the reading depend on the order. -/
theorem exists_perm_of_ne {f : β → γ} {l : List β} {a b : β} (ha : a ∈ l) (hb : b ∈ l)
    (hkey : key a = key b) (hne : f a ≠ f b) :
    ∃ l', l.Perm l' ∧ (sortBy key le l').map f ≠ (sortBy key le l).map f := by
  classical
  have hab : a ≠ b := fun h => hne (h ▸ rfl)
  have hperm : l.Perm (a :: b :: (l.erase a).erase b) :=
    (List.perm_cons_erase ha).trans ((List.perm_cons_erase ((List.mem_erase_of_ne hab.symm).mpr hb)).cons a)
  generalize (l.erase a).erase b = r at hperm
  have hswap : l.Perm (b :: a :: r) := hperm.trans (.swap b a r)
  by_contra hall
  simp only [not_exists, not_and, not_not] at hall
  -- the two orders would have the same readings at the same keys
  have hreads : (sortBy key le (a :: b :: r)).map f = (sortBy key le (b :: a :: r)).map f :=
    (hall _ hperm).trans (hall _ hswap).symm
  have hkeys : (sortBy key le (a :: b :: r)).map key = (sortBy key le (b :: a :: r)).map key :=
    sortBy_map_eq key le (fun _ _ _ _ h => h) (.swap b a r)
  have hpairs : (sortBy key le (a :: b :: r)).map (fun x => (key x, f x)) =
      (sortBy key le (b :: a :: r)).map fun x => (key x, f x) := by
    rw [← List.zip_map', ← List.zip_map', hkeys, hreads]
  have hfilter := congrArg (List.filter fun p : κ × γ => p.1 = key b) hpairs
  rw [List.filter_map, List.filter_map] at hfilter
  have hstable := fun l => filter_sortBy key le (key b) l
  simp only [Function.comp_def, hstable, List.filter_cons, hkey, decide_true, if_true, List.map_cons,
    List.cons.injEq, Prod.mk.injEq, true_and] at hfilter
  exact hne hfilter.1

end Sorting
