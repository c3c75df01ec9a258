import Mathlib

/-!
# Computations on a budget

A computation that counts what it spends in its state, and throws as soon as a limit is passed. `Spends`
says of it, in one equivalence, with which results and at which expense it returns: from every count within
the limit, exactly the results of a relation, where the expense still fits. The expense is an element of an
ordered monoid, so that several counters are one expense.

The rules put such relations together at the constructors of the monad: `Spends.bind` adds the expenses of
the two parts, `Spends.mapM` those of the elements of a list.
-/

namespace Budget

variable {σ ε α β : Type}

/-- Within the limit, the computation returns exactly the results `a` of the relation whose expense `d`
still fits. -/
def Spends [Add σ] [LE σ] (limit : σ) (x : StateT σ (Except ε) α) (R : α → σ → Prop) : Prop :=
  ∀ c a c', c ≤ limit → (x c = .ok (a, c') ↔ ∃ d, R a d ∧ c' = c + d ∧ c' ≤ limit)

/-- Two lists are related element by element, at the sum of the expenses. -/
inductive All [Add σ] [Zero σ] (R : α → β → σ → Prop) : List α → List β → σ → Prop
  | nil : All R [] [] 0
  | cons {a : α} {b : β} {l : List α} {m : List β} {d d' : σ} (head : R a b d) (tail : All R l m d') :
      All R (a :: l) (b :: m) (d + d')

theorem All.nil_iff [Add σ] [Zero σ] {R : α → β → σ → Prop} {m : List β} {d : σ} :
    All R [] m d ↔ m = [] ∧ d = 0 := by
  constructor
  · rintro ⟨⟩
    exact ⟨rfl, rfl⟩
  · rintro ⟨rfl, rfl⟩
    exact .nil

theorem All.cons_iff [Add σ] [Zero σ] {R : α → β → σ → Prop} {a : α} {l : List α} {m : List β} {d : σ} :
    All R (a :: l) m d ↔
      ∃ b d₁ m' d₂, R a b d₁ ∧ All R l m' d₂ ∧ m = b :: m' ∧ d = d₁ + d₂ := by
  constructor
  · rintro ⟨⟩
    next b m d₁ d₂ head tail => exact ⟨b, d₁, m, d₂, head, tail, rfl, rfl⟩
  · rintro ⟨b, d₁, m', d₂, head, tail, rfl, rfl⟩
    exact .cons head tail

namespace Spends

variable [AddMonoid σ] [PartialOrder σ] {limit : σ} {x : StateT σ (Except ε) α} {R : α → σ → Prop}

theorem congr {S : α → σ → Prop} (h : Spends limit x R) (hRS : ∀ a d, R a d ↔ S a d) :
    Spends limit x S := by
  intro c a c' hc
  rw [h c a c' hc]
  simp only [hRS]

/-- A computation that returns spends nothing. -/
theorem pure (a : α) : Spends limit (Pure.pure a : StateT σ (Except ε) α) (fun b d => b = a ∧ d = 0) := by
  intro c b c' hc
  change Except.ok (a, c) = .ok (b, c') ↔ _
  rw [Except.ok.injEq, Prod.mk.injEq]
  constructor
  · rintro ⟨rfl, rfl⟩
    exact ⟨0, ⟨rfl, rfl⟩, (add_zero c).symm, hc⟩
  · rintro ⟨_, ⟨rfl, rfl⟩, rfl, -⟩
    exact ⟨rfl, (add_zero c).symm⟩

/-- A computation without a count spends nothing. -/
theorem lift (x : Except ε α) :
    Spends limit (liftM x : StateT σ (Except ε) α) (fun a d => x = .ok a ∧ d = 0) := by
  cases x with
  | ok a =>
    refine (pure a).congr fun b d => ?_
    rw [Except.ok.injEq, eq_comm]
  | error e =>
    intro c b c' _
    change Except.error e = .ok (b, c') ↔ _
    simp

/-- A computation that has no result. -/
theorem fails (h : ∀ c r, x c ≠ .ok r) : Spends limit x (fun _ _ => False) := by
  intro c a c' _
  constructor
  · intro hx
    exact (h c _ hx).elim
  · rintro ⟨_, hfalse, -⟩
    exact hfalse.elim

variable [CanonicallyOrderedAdd σ]

/-- The parts of a sequence spend one after the other. -/
theorem bind {f : α → StateT σ (Except ε) β} {S : α → β → σ → Prop} (hx : Spends limit x R)
    (hf : ∀ a, Spends limit (f a) (S a)) :
    Spends limit (x >>= f) (fun b d => ∃ a d₁ d₂, R a d₁ ∧ S a b d₂ ∧ d = d₁ + d₂) := by
  intro c b c' hc
  change (x c >>= fun r => f r.1 r.2) = .ok (b, c') ↔ _
  constructor
  · intro h
    cases hxc : x c with
    | error e =>
      rw [hxc] at h
      cases h
    | ok r =>
      rw [hxc] at h
      obtain ⟨d₁, hR, hr, hlimit⟩ := (hx c r.1 r.2 hc).mp hxc
      obtain ⟨d₂, hS, rfl, hlimit'⟩ := (hf r.1 r.2 b c' hlimit).mp h
      exact ⟨d₁ + d₂, ⟨r.1, d₁, d₂, hR, hS, rfl⟩, by rw [hr, add_assoc], hlimit'⟩
  · rintro ⟨_, ⟨a, d₁, d₂, hR, hS, rfl⟩, rfl, hlimit⟩
    -- the first part fits because the whole does
    rw [← add_assoc] at hlimit ⊢
    have hfirst : c + d₁ ≤ limit := le_self_add.trans hlimit
    rw [(hx c a (c + d₁) hc).mpr ⟨d₁, hR, rfl, hfirst⟩]
    exact (hf a (c + d₁) b _ hfirst).mpr ⟨d₂, hS, rfl, hlimit⟩

/-- A part without a count in front of a sequence. -/
theorem lift_bind {y : Except ε α} {f : α → StateT σ (Except ε) β} {S : α → β → σ → Prop}
    (hf : ∀ a, Spends limit (f a) (S a)) :
    Spends limit ((liftM y : StateT σ (Except ε) α) >>= f) (fun b d => ∃ a, y = .ok a ∧ S a b d) := by
  refine ((lift y).bind hf).congr fun b d => ⟨?_, ?_⟩
  · rintro ⟨a, _, d₂, ⟨hy, rfl⟩, hS, rfl⟩
    exact ⟨a, hy, by rwa [zero_add]⟩
  · rintro ⟨a, hy, hS⟩
    exact ⟨a, 0, d, ⟨hy, rfl⟩, hS, (zero_add d).symm⟩

/-- The elements of a list spend one after the other. -/
theorem mapM {f : α → StateT σ (Except ε) β} {T : α → β → σ → Prop} (hf : ∀ a, Spends limit (f a) (T a))
    (l : List α) : Spends limit (l.mapM f) (All T l) := by
  induction l with
  | nil => exact (pure []).congr fun m d => All.nil_iff.symm
  | cons a l ih =>
    rw [List.mapM_cons]
    refine ((hf a).bind fun b => ih.bind fun m => pure (b :: m)).congr fun m d => ?_
    rw [All.cons_iff]
    constructor
    · rintro ⟨b, d₁, _, hT, ⟨m', d₂, _, hall, ⟨rfl, rfl⟩, rfl⟩, rfl⟩
      exact ⟨b, d₁, m', d₂, hT, hall, rfl, by rw [add_zero]⟩
    · rintro ⟨b, d₁, m', d₂, hT, hall, rfl, rfl⟩
      exact ⟨b, d₁, d₂, hT, ⟨m', d₂, 0, hall, ⟨rfl, rfl⟩, (add_zero d₂).symm⟩, rfl⟩

end Spends

end Budget
