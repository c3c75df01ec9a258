import ParadigmTerra.Lib.Merkle
import ParadigmTerra.Lib.Sorting

/-!
# Trees over sorted lists

A tree whose leaves are the hashes of elements, in the order of their keys. `commits_iff` says for which two
lists their roots commit to their elements: when the elements of one key are equal in each list, and lists
that are filled up to one complete tree have one length.
-/

namespace Merkle

open Sorting

variable {α β γ κ : Type} (key : β → κ) (le : κ → κ → Prop) [DecidableRel le] (canon : β → γ) (hash : β → α)
  (node : α → α → α)

/-- The leaves of the tree over a list. -/
def leavesOf (l : List β) : List α := (sortBy key le l).map hash

/-- The root, as the one element of the highest level. -/
def rootOf (l : List β) : List α := levels node (height (leavesOf key le hash l)) (leavesOf key le hash l)

/-- The elements of one key are equal. -/
def Consistent (l : List β) : Prop := ∀ a ∈ l, ∀ b ∈ l, key a = key b → canon a = canon b

/-- The elements of the complete tree over a list. -/
def filledCanon (l : List β) : List γ := filled ((sortBy key le l).map canon)

/-- The roots of two lists depend on no order, and are equal only for the same elements. -/
structure Commits (l l' : List β) : Prop where
  order : ∀ k, l.Perm k → rootOf key le hash node k = rootOf key le hash node l
  order' : ∀ k, l'.Perm k → rootOf key le hash node k = rootOf key le hash node l'
  elements : rootOf key le hash node l = rootOf key le hash node l' → (l.map canon).Perm (l'.map canon)

/-- Elements of one key are equal in each list, and lists that fill up to one tree have one length. -/
structure Committable (l l' : List β) : Prop where
  consistent : Consistent key canon l
  consistent' : Consistent key canon l'
  length : filledCanon key le canon l = filledCanon key le canon l' → l.length = l'.length

theorem height_eq {δ ε : Type} {l : List δ} {l' : List ε} (h : l.length = l'.length) : height l = height l' := by
  rw [height, height, h]

theorem filled_map {δ ε : Type} (f : δ → ε) (l : List δ) : filled (l.map f) = (filled l).map f := by
  have hlength : (l.map f).length = l.length := List.length_map f
  rw [filled, filled, height_eq hlength, fill_map]

/-- Elements that one function tells apart as another does. -/
theorem map_eq_map_iff {δ ε ζ : Type} {f : δ → ε} {g : δ → ζ} {l l' : List δ}
    (h : ∀ a ∈ l, ∀ b ∈ l', f a = f b ↔ g a = g b) : l.map f = l'.map f ↔ l.map g = l'.map g := by
  induction l generalizing l' with
  | nil => cases l' <;> simp
  | cons a l ih =>
    cases l' with
    | nil => simp
    | cons b l' =>
      rw [List.map_cons, List.map_cons, List.map_cons, List.map_cons, List.cons.injEq, List.cons.injEq,
        h a (by simp) b (by simp),
        ih fun a ha b hb => h a (List.mem_cons_of_mem _ ha) b (List.mem_cons_of_mem _ hb)]

/-- What the hashes of two lists have to be told apart by: a node is no leaf, and equal hashes are those of
equal elements. -/
structure Distinct (l l' : List β) : Prop where
  apart : Apart node (leavesOf key le hash l) (leavesOf key le hash l')
  hash : ∀ a ∈ l, ∀ b ∈ l', canon a = canon b ↔ hash a = hash b

variable {key le canon hash node}

/-- Elements of distinct keys are committed to, whatever the lengths. -/
theorem committable_of_nodup {l l' : List β} (hkey : ∀ a b, canon a = canon b → key a = key b)
    (h : (l.map key).Nodup) (h' : (l'.map key).Nodup) : Committable key le canon l l' := by
  have hcons : ∀ {k : List β}, (k.map key).Nodup → Consistent key canon k := fun hk a ha b hb hab => by
    rw [List.inj_on_of_nodup_map hk ha hb hab]
  have hnodup : ∀ {k : List β}, (k.map key).Nodup → ((sortBy key le k).map canon).Nodup := by
    intro k hk
    have hsorted := ((sortBy_perm key le k).map key).nodup_iff.mpr hk
    rw [List.Nodup, List.pairwise_map] at hsorted ⊢
    exact hsorted.imp fun hab hcanon => hab (hkey _ _ hcanon)
  refine ⟨hcons h, hcons h', fun hfill => ?_⟩
  -- the complete trees have the same elements, and so have the lists
  have hmem : ∀ {k : List β} (c : γ), c ∈ filledCanon key le canon k ↔ c ∈ (sortBy key le k).map canon :=
    fun c => ⟨mem_of_mem_fill, mem_fill⟩
  have hperm := (List.perm_ext_iff_of_nodup (hnodup h) (hnodup h')).mpr fun c => by
    rw [← hmem, ← hmem, hfill]
  simpa [(sortBy_perm key le l).length_eq, (sortBy_perm key le l').length_eq] using hperm.length_eq

theorem leavesOf_ne_nil {l : List β} (h : l ≠ []) : leavesOf key le hash l ≠ [] := by
  rw [leavesOf, Ne, List.map_eq_nil_iff]
  intro hnil
  have hlength := (sortBy_perm key le l).length_eq
  rw [hnil, eq_comm] at hlength
  exact h (List.length_eq_zero_iff.mp hlength)

theorem length_leavesOf (l : List β) : (leavesOf key le hash l).length = l.length := by
  rw [leavesOf, List.length_map, (sortBy_perm key le l).length_eq]

/-- Lists have one root exactly if they are filled up to one tree. -/
theorem rootOf_eq_iff {l l' : List β} (hne : l ≠ []) (hne' : l' ≠ [])
    (h : Distinct key le canon hash node l l') :
    rootOf key le hash node l = rootOf key le hash node l' ↔
      filledCanon key le canon l = filledCanon key le canon l' := by
  rw [rootOf, rootOf, roots_eq_iff (leavesOf_ne_nil hne) (leavesOf_ne_nil hne') h.apart, leavesOf, leavesOf,
    filledCanon, filledCanon, filled_map, filled_map, filled_map, filled_map]
  refine (map_eq_map_iff fun a ha b hb => ?_).symm
  exact h.hash a ((mem_sortBy key le).mp (mem_of_mem_fill ha)) b ((mem_sortBy key le).mp (mem_of_mem_fill hb))

/-- Lists of one length that have one root have the same leaves. -/
theorem leavesOf_eq_of_root {l l' : List β} (hlength : l.length = l'.length)
    (h : Distinct key le canon hash node l l')
    (hroot : rootOf key le hash node l = rootOf key le hash node l') :
    leavesOf key le hash l = leavesOf key le hash l' := by
  have hleaves : (leavesOf key le hash l).length = (leavesOf key le hash l').length := by
    rw [length_leavesOf, length_leavesOf, hlength]
  rw [rootOf, rootOf, ← height_eq hleaves] at hroot
  exact levels_inj hleaves (fun p hp q hq => h.apart.nodes p hp q (height_eq hleaves ▸ hq)) hroot

variable [Std.Total le] [IsTrans κ le] [Std.Antisymm le] [DecidableEq κ]

omit [DecidableEq κ] in
/-- The root does not depend on the order of elements of which those of one key are equal. -/
theorem rootOf_perm {l k : List β} (hcons : Consistent key canon l)
    (hhash : ∀ a ∈ l, ∀ b ∈ l, canon a = canon b → hash a = hash b) (hk : l.Perm k) :
    rootOf key le hash node k = rootOf key le hash node l := by
  have hleaves : leavesOf key le hash l = leavesOf key le hash k :=
    sortBy_map_eq key le (fun a ha b hb hkey => hhash a ha b hb (hcons a ha b hb hkey)) hk
  rw [rootOf, rootOf, hleaves]

/-- A root that depends on no order is over elements of which those of one key are equal. -/
theorem consistent_of_order {l : List β}
    (hdist : ∀ k, l.Perm k → Distinct key le canon hash node k l)
    (horder : ∀ k, l.Perm k → rootOf key le hash node k = rootOf key le hash node l) :
    Consistent key canon l := by
  intro a ha b hb hkey
  by_contra hne
  have hhash : hash a ≠ hash b := fun h => hne (((hdist l (.refl l)).hash a ha b hb).mpr h)
  obtain ⟨k, hk, hleaves⟩ := exists_perm_of_ne key le ha hb hkey hhash
  exact hleaves (leavesOf_eq_of_root hk.length_eq.symm (hdist k hk) (horder k hk))

/-- The roots of two lists commit to their elements exactly if the elements of one key are equal in each, and
lists that fill up to one tree have one length. -/
theorem commits_iff {l l' : List β} (hne : l ≠ []) (hne' : l' ≠ [])
    (hdist : ∀ k k', (l.Perm k ∨ l'.Perm k) → (l.Perm k' ∨ l'.Perm k') →
      Distinct key le canon hash node k k') :
    Commits key le canon hash node l l' ↔ Committable key le canon l l' := by
  have hl : l.Perm l ∨ l'.Perm l := .inl (.refl l)
  have hl' : l.Perm l' ∨ l'.Perm l' := .inr (.refl l')
  have hroot := rootOf_eq_iff hne hne' (hdist l l' hl hl')
  constructor
  · rintro ⟨horder, horder', helements⟩
    exact {
      consistent := consistent_of_order (fun k hk => hdist k l (.inl hk) hl) horder
      consistent' := consistent_of_order (fun k hk => hdist k l' (.inr hk) hl') horder'
      length := fun hfill => by simpa using (helements (hroot.mpr hfill)).length_eq }
  · rintro ⟨hcons, hcons', hlength⟩
    have hhash : ∀ {k}, (l.Perm k ∨ l'.Perm k) → ∀ a ∈ k, ∀ b ∈ k, canon a = canon b → hash a = hash b :=
      fun hk a ha b hb => ((hdist _ _ hk hk).hash a ha b hb).mp
    refine {
      order := fun k hk => rootOf_perm hcons (hhash hl) hk
      order' := fun k hk => rootOf_perm hcons' (hhash hl') hk
      elements := fun h => ?_ }
    -- equal roots of lists of one length have equal leaves
    have hleaves := leavesOf_eq_of_root (hlength (hroot.mp h)) (hdist l l' hl hl') h
    have hcanon : (sortBy key le l).map canon = (sortBy key le l').map canon :=
      (map_eq_map_iff fun a ha b hb => (hdist l l' hl hl').hash a ((mem_sortBy key le).mp ha) b
        ((mem_sortBy key le).mp hb)).mpr hleaves
    exact ((sortBy_perm key le l).map canon).symm.trans
      (hcanon ▸ (sortBy_perm key le l').map canon)

end Merkle
