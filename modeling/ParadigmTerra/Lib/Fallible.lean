import Mathlib

/-!
# Computations that may throw

Inversion of the `Except` monad: what is known of the parts when a computation has returned. The
lemmas are stated for `Except.ok`, so that `simp only` peels a computation apart from its first step
on; `foldlM_invariant` carries an invariant through a loop over a list. `ThrowsOnly` bounds the errors
of a computation, and `Alike` compares two of them; both are taken apart at a bind in the same way.
-/

namespace Fallible

universe u

variable {ε : Type*} {α β σ : Type u}

/-- A check that throws unless the condition holds. -/
def require (c : Prop) [Decidable c] (e : ε) : Except ε Unit := if c then .ok () else .error e

@[simp] theorem require_eq_ok {c : Prop} [Decidable c] {e : ε} {u : Unit} :
    require c e = .ok u ↔ c := by
  unfold require
  split <;> simp [*]

@[simp] theorem pure_eq_ok {a b : α} : (pure a : Except ε α) = .ok b ↔ a = b := by
  change Except.ok a = Except.ok b ↔ a = b
  exact Except.ok.injEq a b ▸ Iff.rfl

@[simp] theorem throw_eq_ok {e : ε} {b : α} : (throw e : Except ε α) = .ok b ↔ False := by
  change Except.error e = Except.ok b ↔ False
  simp

@[simp] theorem bind_eq_ok {x : Except ε α} {f : α → Except ε β} {b : β} :
    (x >>= f) = .ok b ↔ ∃ a, x = .ok a ∧ f a = .ok b := by
  cases x with
  | error e => exact ⟨fun h => (nomatch h), fun ⟨_, h, _⟩ => (nomatch h)⟩
  | ok a => exact ⟨fun h => ⟨a, rfl, h⟩, fun ⟨_, h, hb⟩ => by cases h; exact hb⟩

theorem bind_returns_iff {x : Except ε α} {f : α → Except ε β} :
    (∃ b, (x >>= f) = .ok b) ↔ ∃ a, x = .ok a ∧ ∃ b, f a = .ok b := by
  simp only [bind_eq_ok]
  constructor
  · rintro ⟨b, a, ha, hb⟩
    exact ⟨a, ha, b, hb⟩
  · rintro ⟨a, ha, b, hb⟩
    exact ⟨b, a, ha, hb⟩

@[simp] theorem map_eq_ok {x : Except ε α} {f : α → β} {b : β} :
    (f <$> x) = .ok b ↔ ∃ a, x = .ok a ∧ f a = b := by
  cases x with
  | error e => exact ⟨fun h => (nomatch h), fun ⟨_, h, _⟩ => (nomatch h)⟩
  | ok a =>
    constructor
    · intro h
      exact ⟨a, rfl, Except.ok.inj h⟩
    · rintro ⟨_, h, rfl⟩
      cases h
      rfl

@[simp] theorem ok_bind {a : α} {f : α → Except ε β} : (Except.ok a >>= f) = f a := rfl

@[simp] theorem error_bind {e : ε} {f : α → Except ε β} : (Except.error e >>= f) = .error e := rfl

@[simp] theorem foldlM_nil_ok {f : σ → α → Except ε σ} {s t : σ} :
    [].foldlM f s = .ok t ↔ s = t := by
  rw [List.foldlM_nil, pure_eq_ok]

theorem foldlM_cons_ok {f : σ → α → Except ε σ} {s t : σ} {a : α} {l : List α} :
    (a :: l).foldlM f s = .ok t ↔ ∃ u, f s a = .ok u ∧ l.foldlM f u = .ok t := by
  rw [List.foldlM_cons, bind_eq_ok]

/-- What each step of a loop preserves holds after the loop. -/
theorem foldlM_invariant {f : σ → α → Except ε σ} {P : σ → Prop} {l : List α} {s t : σ}
    (step : ∀ u a v, a ∈ l → P u → f u a = .ok v → P v) (hs : P s)
    (h : l.foldlM f s = .ok t) : P t := by
  induction l generalizing s with
  | nil => exact foldlM_nil_ok.mp h ▸ hs
  | cons a l ih =>
    obtain ⟨u, hu, h⟩ := foldlM_cons_ok.mp h
    exact ih (fun u b v hb => step u b v (List.mem_cons_of_mem _ hb))
      (step s a u (by simp) hs hu) h

/-- A loop over two lists is the loop over the second from where the first ended. -/
theorem foldlM_append_ok {f : σ → α → Except ε σ} {s t : σ} {l m : List α} :
    (l ++ m).foldlM f s = .ok t ↔ ∃ u, l.foldlM f s = .ok u ∧ m.foldlM f u = .ok t := by
  rw [List.foldlM_append, bind_eq_ok]

/-- A list is mapped when each of its elements is. -/
theorem mapM_ok {f : α → Except ε β} {l : List α} {ys : List β} :
    l.mapM f = .ok ys ↔ List.Forall₂ (fun a b => f a = .ok b) l ys := by
  induction l generalizing ys with
  | nil => rw [List.mapM_nil, pure_eq_ok, List.forall₂_nil_left_iff, eq_comm]
  | cons a l ih =>
    simp only [List.mapM_cons, bind_eq_ok, pure_eq_ok, List.forall₂_cons_left_iff]
    constructor
    · rintro ⟨y, hy, zs, hzs, rfl⟩
      exact ⟨y, zs, hy, ih.mp hzs, rfl⟩
    · rintro ⟨y, zs, hy, hzs, rfl⟩
      exact ⟨y, hy, zs, ih.mpr hzs, rfl⟩

theorem mapM_returns_iff {f : α → Except ε β} {l : List α} :
    (∃ ys, l.mapM f = .ok ys) ↔ ∀ a ∈ l, ∃ y, f a = .ok y := by
  induction l with
  | nil => exact ⟨fun _ => nofun, fun _ => ⟨[], rfl⟩⟩
  | cons a l ih =>
    rw [List.mapM_cons, bind_returns_iff, List.forall_mem_cons, ← ih]
    constructor
    · rintro ⟨y, hy, h⟩
      obtain ⟨ys, hys, -⟩ := bind_returns_iff.mp h
      exact ⟨⟨y, hy⟩, ys, hys⟩
    · rintro ⟨⟨y, hy⟩, ys, hys⟩
      exact ⟨y, hy, bind_returns_iff.mpr ⟨ys, hys, _, rfl⟩⟩

/-- What holds of every result of the function holds of the elements of a mapped list. -/
theorem forall_mem_of_mapM {f : α → Except ε β} {P : β → Prop} (hf : ∀ a b, f a = .ok b → P b)
    {l : List α} {ys : List β} (h : l.mapM f = .ok ys) : ∀ y ∈ ys, P y := by
  have hforall := mapM_ok.mp h
  clear h
  induction hforall with
  | nil => nofun
  | cons hab _ ih => exact List.forall_mem_cons.mpr ⟨hf _ _ hab, ih⟩

/-- A list is mapped alike by functions that agree on its elements. -/
theorem mapM_congr {f g : α → Except ε β} {l : List α} (h : ∀ a ∈ l, f a = g a) :
    l.mapM f = l.mapM g := by
  induction l with
  | nil => rfl
  | cons a l ih =>
    obtain ⟨ha, hl⟩ := List.forall_mem_cons.mp h
    rw [List.mapM_cons, List.mapM_cons, ha, ih hl]

/-! ## The errors of a computation -/

/-- The computation returns, or throws an error that satisfies `E`. -/
def ThrowsOnly (E : ε → Prop) (x : Except ε α) : Prop := ∀ e, x = .error e → E e

variable {E : ε → Prop}

@[simp] theorem throwsOnly_ok {a : α} : ThrowsOnly E (.ok a) := nofun

@[simp] theorem throwsOnly_pure {a : α} : ThrowsOnly E (pure a) := nofun

@[simp] theorem throwsOnly_error {e : ε} : ThrowsOnly E (.error e : Except ε α) ↔ E e := by
  constructor
  · intro h
    exact h e rfl
  · rintro he _ ⟨⟩
    exact he

@[simp] theorem throwsOnly_throw {e : ε} : ThrowsOnly E (throw e : Except ε α) ↔ E e :=
  throwsOnly_error

@[simp] theorem throwsOnly_require {c : Prop} [Decidable c] {e : ε} :
    ThrowsOnly E (require c e) ↔ (¬c → E e) := by
  unfold require
  split <;> simp [*]

/-- A sequence throws what its parts throw, the later ones only where the earlier ones return. -/
@[simp] theorem throwsOnly_bind {x : Except ε α} {f : α → Except ε β} :
    ThrowsOnly E (x >>= f) ↔ ThrowsOnly E x ∧ ∀ a, x = .ok a → ThrowsOnly E (f a) := by
  cases x with
  | error e => simp
  | ok a => simp

@[simp] theorem throwsOnly_map {x : Except ε α} {f : α → β} :
    ThrowsOnly E (f <$> x) ↔ ThrowsOnly E x := by
  cases x with
  | error e =>
    change ThrowsOnly E (.error e) ↔ _
    simp
  | ok a => exact ⟨fun _ => throwsOnly_ok, fun _ => throwsOnly_ok⟩

/-- A loop throws what its steps throw. -/
theorem throwsOnly_foldlM {f : σ → α → Except ε σ} {l : List α}
    (h : ∀ s a, ThrowsOnly E (f s a)) (s : σ) : ThrowsOnly E (l.foldlM f s) := by
  induction l generalizing s with
  | nil => exact throwsOnly_pure
  | cons a l ih =>
    rw [List.foldlM_cons, throwsOnly_bind]
    exact ⟨h s a, fun u _ => ih u⟩

/-! ## Two computations -/

/-- Both computations return, with results that `R` relates, or both throw, with errors that `E`
relates. -/
inductive Alike {ε' : Type*} {α' : Type u} (E : ε → ε' → Prop) (R : α → α' → Prop) :
    Except ε α → Except ε' α' → Prop
  | ok {a : α} {a' : α'} (h : R a a') : Alike E R (.ok a) (.ok a')
  | error {e : ε} {e' : ε'} (h : E e e') : Alike E R (.error e) (.error e')

section Alike

variable {ε' : Type*} {α' β' σ' : Type u} {E : ε → ε' → Prop} {R : α → α' → Prop}
  {S : β → β' → Prop}

/-- Sequences are alike if their parts are, the later ones where the earlier ones return. -/
theorem Alike.bind {x : Except ε α} {y : Except ε' α'} {f : α → Except ε β} {g : α' → Except ε' β'}
    (h : Alike E R x y) (hf : ∀ a a', x = .ok a → y = .ok a' → R a a' → Alike E S (f a) (g a')) :
    Alike E S (x >>= f) (y >>= g) := by
  cases h with
  | ok h => exact hf _ _ rfl rfl h
  | error h => exact .error h

theorem Alike.of_ok {a : α} {y : Except ε' α'} (h : Alike E R (.ok a) y) :
    ∃ a', y = .ok a' ∧ R a a' := by
  cases h with
  | ok h => exact ⟨_, rfl, h⟩

/-- One computation, and what follows it in two ways. -/
theorem Alike.bind_same {x : Except ε α} {f : α → Except ε β} {g : α → Except ε β'}
    {S : β → β' → Prop} (h : ∀ a, x = .ok a → Alike Eq S (f a) (g a)) :
    Alike Eq S (x >>= f) (x >>= g) := by
  cases x with
  | ok a => exact h a rfl
  | error e => exact .error rfl

theorem Alike.mono {R' : α → α' → Prop} {x : Except ε α} {y : Except ε' α'} (h : Alike E R x y)
    (hR : ∀ a a', R a a' → R' a a') : Alike E R' x y := by
  cases h with
  | ok h => exact .ok (hR _ _ h)
  | error h => exact .error h

theorem Alike.pure {a : α} {a' : α'} (h : R a a') :
    Alike E R (Pure.pure a : Except ε α) (Pure.pure a' : Except ε' α') := .ok h

theorem Alike.throw {e : ε} {e' : ε'} (h : E e e') :
    Alike E R (throw e : Except ε α) (throw e' : Except ε' α') := .error h

/-- Checks of one condition are alike if their errors are. -/
theorem Alike.require {c c' : Prop} [Decidable c] [Decidable c'] {e : ε} {e' : ε'} (hc : c ↔ c')
    (h : E e e') : Alike E (fun _ _ => True) (require c e) (require c' e') := by
  unfold Fallible.require
  by_cases hcond : c
  · rw [if_pos hcond, if_pos (hc.mp hcond)]
    exact .ok trivial
  · rw [if_neg hcond, if_neg fun h' => hcond (hc.mpr h')]
    exact .error h

theorem Alike.refl {x : Except ε α} : Alike Eq Eq x x := by
  cases x with
  | ok a => exact .ok rfl
  | error e => exact .error rfl

/-- Computations that throw the same errors are alike in sequence. -/
theorem Alike.trans {γ : Type u} {T : α' → γ → Prop} {x : Except ε α} {y : Except ε α'}
    {z : Except ε γ} (h : Alike Eq R x y) (h' : Alike Eq T y z) :
    Alike Eq (fun a c => ∃ b, R a b ∧ T b c) x z := by
  cases h with
  | ok h =>
    cases h' with
    | ok h' => exact .ok ⟨_, h, h'⟩
  | error h =>
    cases h' with
    | error h' => exact .error (h.trans h')

/-- Lists whose elements are related are mapped alike. -/
theorem Alike.mapM {δ δ' : Type u} {Q : δ → δ' → Prop} {f : δ → Except ε α} {g : δ' → Except ε α'}
    {l : List δ} {m : List δ'} (h : List.Forall₂ Q l m)
    (hf : ∀ a ∈ l, ∀ b, Q a b → Alike Eq R (f a) (g b)) :
    Alike Eq (List.Forall₂ R) (l.mapM f) (m.mapM g) := by
  induction h with
  | nil => exact .pure .nil
  | cons hab _ ih =>
    obtain ⟨hhead, htail⟩ := List.forall_mem_cons.mp hf
    rw [List.mapM_cons, List.mapM_cons]
    exact (hhead _ hab).bind fun _ _ _ _ hr =>
      (ih htail).bind fun _ _ _ _ hrs => .pure (.cons hr hrs)

end Alike

/-! ## Orders of a list

A loop over a list stops at the first element that throws, or at the first check that fails. Which one
that is depends on the order, unless all of them end the loop in the same way. -/

/-- The elements that throw all throw the same error. -/
def SameErrors {δ : Type u} (f : δ → Except ε α) (l : List δ) : Prop :=
  ∀ a ∈ l, ∀ b ∈ l, ∀ e e', f a = .error e → f b = .error e' → e = e'

theorem exists_of_mapM_error {δ : Type u} {f : δ → Except ε α} {l : List δ} {e : ε}
    (h : l.mapM f = .error e) : ∃ a ∈ l, f a = .error e := by
  induction l with
  | nil => cases h
  | cons a l ih =>
    rw [List.mapM_cons] at h
    cases ha : f a with
    | error e' =>
      rw [ha] at h
      cases h
      exact ⟨a, by simp, ha⟩
    | ok y =>
      rw [ha, ok_bind] at h
      cases hl : l.mapM f with
      | error e' =>
        rw [hl] at h
        cases h
        obtain ⟨b, hb, hfb⟩ := ih hl
        exact ⟨b, List.mem_cons_of_mem _ hb, hfb⟩
      | ok ys =>
        rw [hl] at h
        cases h

/-- The first element that throws ends the mapping. -/
theorem mapM_cons_error {δ : Type u} {f : δ → Except ε α} {a : δ} {l : List δ} {e : ε}
    (h : f a = .error e) : (a :: l).mapM f = .error e := by
  rw [List.mapM_cons, h, error_bind]

/-- The order of a list does not matter to what its mapping throws. -/
theorem SameErrors.mapM_perm {δ : Type u} {f : δ → Except ε α} {l m : List δ}
    (h : SameErrors f l) (hp : l.Perm m) : Alike Eq List.Perm (l.mapM f) (m.mapM f) := by
  cases hl : l.mapM f with
  | error e =>
    obtain ⟨a, ha, hfa⟩ := exists_of_mapM_error hl
    cases hm : m.mapM f with
    | error e' =>
      obtain ⟨b, hb, hfb⟩ := exists_of_mapM_error hm
      exact .error (h a ha b (hp.mem_iff.mpr hb) e e' hfa hfb)
    | ok ys =>
      obtain ⟨y, hy⟩ := mapM_returns_iff.mp ⟨ys, hm⟩ a (hp.mem_iff.mp ha)
      rw [hfa] at hy
      cases hy
  | ok xs =>
    cases hm : m.mapM f with
    | error e =>
      obtain ⟨b, hb, hfb⟩ := exists_of_mapM_error hm
      obtain ⟨y, hy⟩ := mapM_returns_iff.mp ⟨xs, hl⟩ b (hp.mem_iff.mpr hb)
      rw [hfb] at hy
      cases hy
    | ok ys =>
      obtain ⟨zs, hzs, hperm⟩ := List.perm_comp_forall₂ hp.symm (mapM_ok.mp hl)
      rw [mapM_ok.mpr hzs] at hm
      cases hm
      exact .ok hperm.symm

/-- A loop of checks: the first one that does not hold, if there is one. -/
def conj : List (Except ε Bool) → Except ε Bool
  | [] => .ok true
  | .ok true :: rs => conj rs
  | r :: _ => r

/-- The checks that do not hold all end the loop in the same way. -/
def Uniform (rs : List (Except ε Bool)) : Prop :=
  ∀ r ∈ rs, ∀ r' ∈ rs, r ≠ .ok true → r' ≠ .ok true → r = r'

section Conj

variable {rs rs' : List (Except ε Bool)} {r : Except ε Bool}

theorem conj_cons_of_ne (h : r ≠ .ok true) : conj (r :: rs) = r := by
  unfold conj
  split
  · next heq => cases heq
  · next heq =>
    cases heq
    exact (h rfl).elim
  · next heq => exact (List.cons.inj heq).1.symm

theorem conj_eq_true_iff : conj rs = .ok true ↔ ∀ r ∈ rs, r = .ok true := by
  induction rs with
  | nil => simp [conj]
  | cons r rs ih =>
    by_cases hr : r = .ok true
    · subst hr
      rw [conj, ih, List.forall_mem_cons, and_iff_right rfl]
    · rw [conj_cons_of_ne hr, List.forall_mem_cons]
      exact ⟨fun h => (hr h).elim, fun h => (hr h.1).elim⟩

theorem conj_mem (h : conj rs ≠ .ok true) : conj rs ∈ rs := by
  induction rs with
  | nil => exact (h rfl).elim
  | cons r rs ih =>
    by_cases hr : r = .ok true
    · subst hr
      rw [conj] at h ⊢
      exact List.mem_cons_of_mem _ (ih h)
    · rw [conj_cons_of_ne hr]
      exact List.mem_cons_self

/-- Any check that does not hold ends the loop as the first one does. -/
theorem Uniform.conj_eq (h : Uniform rs) (hr : r ∈ rs) (hne : r ≠ .ok true) : conj rs = r := by
  have hconj : conj rs ≠ .ok true := fun heq => hne (conj_eq_true_iff.mp heq r hr)
  exact h _ (conj_mem hconj) _ hr hconj hne

/-- The order of the checks does not matter exactly if those that do not hold all end the loop in the
same way. -/
theorem conj_perm_iff : (∀ rs', rs.Perm rs' → conj rs' = conj rs) ↔ Uniform rs := by
  constructor
  · intro h r hr r' hr' hne hne'
    have hfront : ∀ r ∈ rs, r ≠ .ok true → conj rs = r := by
      intro r hr hne
      obtain ⟨a, b, rfl⟩ := List.append_of_mem hr
      rw [← h _ List.perm_middle, conj_cons_of_ne hne]
    rw [← hfront r hr hne, hfront r' hr' hne']
  · intro h rs' hp
    by_cases hall : ∀ r ∈ rs, r = .ok true
    · rw [conj_eq_true_iff.mpr hall, conj_eq_true_iff]
      exact fun r hr => hall r (hp.mem_iff.mpr hr)
    · push Not at hall
      obtain ⟨r, hr, hne⟩ := hall
      have h' : Uniform rs' := fun a ha b hb =>
        h a (hp.mem_iff.mpr ha) b (hp.mem_iff.mpr hb)
      rw [h.conj_eq hr hne, h'.conj_eq (hp.mem_iff.mp hr) hne]

end Conj

/-- What an `.ok` meets is decided by running the computation. -/
def decideOk (x : Except ε α) {Q : α → Prop} (hQ : ∀ a, Decidable (Q a)) :
    Decidable (∀ a, x = .ok a → Q a) :=
  match x with
  | .error _ => .isTrue fun _ h => nomatch h
  | .ok a =>
    match hQ a with
    | .isTrue h => .isTrue fun _ heq => Except.ok.inj heq ▸ h
    | .isFalse h => .isFalse fun hall => h (hall a rfl)

theorem exists_of_isOk {x : Except ε α} (h : x.isOk = true) : ∃ a, x = .ok a := by
  cases x with
  | ok a => exact ⟨a, rfl⟩
  | error e => cases h

/-- A computation returns a value that passes a test. -/
theorem exists_of_any {x : Except ε α} {p : α → Bool} (h : x.toOption.any p = true) :
    ∃ a, x = .ok a ∧ p a = true := by
  cases x with
  | ok a => exact ⟨a, rfl, h⟩
  | error e => cases h

end Fallible
