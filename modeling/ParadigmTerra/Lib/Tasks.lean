import Mathlib

/-!
# One task at a time

Owners start tasks, a task advances from stage to stage, and it finishes. `Board.Step` is the rule: an
owner has one task at a time, and stages are not skipped. The board counts the tasks that each owner has
finished.

What a run did can be read off its acts alone. `stages_eq` says that the stages of a task are those since
its start, in order, and `ended_eq` that the count of an owner is the number of its finished tasks.
`spent` is a number for an owner that never falls (`spent_le`), and that rises at each task that reaches a
given stage (`spent_advance`), so that it numbers these tasks.
-/

namespace Tasks

variable {κ α : Type*}

/-- What happens to tasks. -/
inductive Act (κ α : Type*)
  | start (k : κ) (a : α)
  /-- The task reaches the stage `n`. -/
  | advance (k : κ) (n : ℕ)
  | finish (k : κ)
  | other

/-- The tasks with their owners and stages, and how many tasks each owner has finished. -/
structure Board (κ α : Type*) where
  task : κ → Option (α × ℕ)
  ended : α → ℕ

/-- The board before anything happened. -/
def Board.empty : Board κ α := ⟨fun _ => none, fun _ => 0⟩

section Rules

variable [DecidableEq κ] [DecidableEq α]

/-- What stands under a task set. -/
def Board.place (b : Board κ α) (k : κ) (x : Option (α × ℕ)) : Board κ α :=
  { b with task := Function.update b.task k x }

/-- One more task of the owner counted. -/
def Board.count (b : Board κ α) (a : α) : Board κ α :=
  { b with ended := Function.update b.ended a (b.ended a + 1) }

omit [DecidableEq α] in
theorem task_place (b : Board κ α) (k j : κ) (x : Option (α × ℕ)) :
    (b.place k x).task j = if j = k then x else b.task j := Function.update_apply _ _ _ _

omit [DecidableEq α] in
theorem task_place_of_ne (b : Board κ α) {k j : κ} (h : j ≠ k) (x : Option (α × ℕ)) :
    (b.place k x).task j = b.task j := by rw [task_place, if_neg h]

omit [DecidableEq α] in
@[simp] theorem ended_place (b : Board κ α) (k : κ) (x : Option (α × ℕ)) :
    (b.place k x).ended = b.ended := rfl

omit [DecidableEq κ] in
theorem ended_count (b : Board κ α) (a c : α) :
    (b.count a).ended c = if c = a then b.ended a + 1 else b.ended c := Function.update_apply _ _ _ _

omit [DecidableEq κ] in
@[simp] theorem task_count (b : Board κ α) (a : α) : (b.count a).task = b.task := rfl

/-- The rules of the board. -/
inductive Board.Step : Board κ α → Act κ α → Board κ α → Prop
  | start {b : Board κ α} {k : κ} {a : α} (hk : b.task k = none)
    (ha : ∀ j n, b.task j ≠ some (a, n)) : Step b (.start k a) (b.place k (some (a, 0)))
  | advance {b : Board κ α} {k : κ} {a : α} {n : ℕ} (h : b.task k = some (a, n)) :
    Step b (.advance k (n + 1)) (b.place k (some (a, n + 1)))
  | finish {b : Board κ α} {k : κ} {a : α} {n : ℕ} (h : b.task k = some (a, n)) :
    Step b (.finish k) ((b.place k none).count a)
  | other {b : Board κ α} : Step b .other b

/-- The acts of a run, one after another. -/
inductive Board.Run (b₀ : Board κ α) : List (Act κ α) → Board κ α → Prop
  | nil : Run b₀ [] b₀
  | snoc {acts : List (Act κ α)} {b b' : Board κ α} {act : Act κ α} (hrun : Run b₀ acts b)
    (hstep : b.Step act b') : Run b₀ (acts ++ [act]) b'

/-! ## What the acts tell -/

/-- The stages of a task after one more act: those since its start. -/
def stagesStep (k : κ) (l : List ℕ) : Act κ α → List ℕ
  | .start j _ => if j = k then [0] else l
  | .advance j n => if j = k then l ++ [n] else l
  | .finish j => if j = k then [] else l
  | .other => l

/-- The stages that a task has been at since its start, none if it is not on the board. -/
def stages (k : κ) (acts : List (Act κ α)) : List ℕ := acts.foldl (stagesStep k) []

/-- Who last started each task, and how many tasks of each owner have finished. -/
structure Tally (κ α : Type*) where
  owner : κ → Option α
  ends : α → ℕ

/-- The tally after one more act. -/
def Tally.add (t : Tally κ α) : Act κ α → Tally κ α
  | .start k a => { t with owner := Function.update t.owner k (some a) }
  | .finish k =>
    match t.owner k with
    | some a => { t with ends := Function.update t.ends a (t.ends a + 1) }
    | none => t
  | .advance _ _ | .other => t

/-- The tally of a list of acts. -/
def tally (acts : List (Act κ α)) : Tally κ α := acts.foldl Tally.add ⟨fun _ => none, fun _ => 0⟩

/-- The number of tasks that an owner started and that finished. -/
def ends (a : α) (acts : List (Act κ α)) : ℕ := (tally acts).ends a

omit [DecidableEq α] in
@[simp] theorem stages_snoc (k : κ) (acts : List (Act κ α)) (act : Act κ α) :
    stages k (acts ++ [act]) = stagesStep k (stages k acts) act := by
  simp [stages]

@[simp] theorem tally_snoc (acts : List (Act κ α)) (act : Act κ α) :
    tally (acts ++ [act]) = (tally acts).add act := by
  simp [tally]

/-! ## The invariant -/

/-- An owner has one task. -/
def Board.Exclusive (b : Board κ α) : Prop :=
  ∀ j k a n m, b.task j = some (a, n) → b.task k = some (a, m) → j = k

/-- The board is what the acts tell. -/
structure Board.Told (b : Board κ α) (acts : List (Act κ α)) : Prop where
  exclusive : b.Exclusive
  stages : ∀ k, Tasks.stages k acts = match b.task k with
    | some (_, n) => List.range (n + 1)
    | none => []
  owner : ∀ k a n, b.task k = some (a, n) → (tally acts).owner k = some a
  ended : ∀ a, b.ended a = ends a acts

theorem told_empty : (Board.empty : Board κ α).Told [] :=
  ⟨fun _ _ _ _ _ h => (by cases h), fun _ => rfl, fun _ _ _ h => (by cases h), fun _ => rfl⟩

variable {b b' : Board κ α} {act : Act κ α} {acts : List (Act κ α)}

theorem Board.Step.exclusive (h : b.Step act b') (hb : b.Exclusive) : b'.Exclusive := by
  intro j l c p q hj hl
  cases h with
  | @start k a hk ha =>
    rw [task_place] at hj hl
    split_ifs at hj hl with ej el el
    · rw [ej, el]
    · cases hj
      exact absurd hl (ha l q)
    · cases hl
      exact absurd hj (ha j p)
    · exact hb j l c p q hj hl
  | @advance k a n h =>
    rw [task_place] at hj hl
    split_ifs at hj hl with ej el el
    · rw [ej, el]
    · cases hj
      exact ej.trans (hb k l c n q h hl)
    · cases hl
      exact (hb j k c p n hj h).trans el.symm
    · exact hb j l c p q hj hl
  | @finish k a n h =>
    rw [task_count, task_place] at hj hl
    split_ifs at hj hl
    exact hb j l c p q hj hl
  | other => exact hb j l c p q hj hl

theorem Board.Told.step (hb : b.Told acts) (h : b.Step act b') : b'.Told (acts ++ [act]) := by
  refine ⟨h.exclusive hb.exclusive, fun j => ?_, fun j c p hj => ?_, fun c => ?_⟩
  · rw [stages_snoc, hb.stages j]
    cases h with
    | @start k a hk ha =>
      rw [task_place, stagesStep]
      by_cases hjk : k = j
      · simp [hjk]
      · rw [if_neg hjk, if_neg (Ne.symm hjk)]
    | @advance k a n h =>
      rw [task_place, stagesStep]
      by_cases hjk : k = j
      · subst hjk
        simp [h, List.range_succ]
      · rw [if_neg hjk, if_neg (Ne.symm hjk)]
    | @finish k a n h =>
      rw [task_count, task_place, stagesStep]
      by_cases hjk : k = j
      · simp [hjk]
      · rw [if_neg hjk, if_neg (Ne.symm hjk)]
    | other => rfl
  · rw [tally_snoc]
    cases h with
    | @start k a hk ha =>
      rw [task_place] at hj
      simp only [Tally.add, Function.update_apply]
      split_ifs at hj ⊢
      · cases hj
        rfl
      · exact hb.owner j c p hj
    | @advance k a n h =>
      rw [task_place] at hj
      split_ifs at hj with ej
      · cases hj
        exact ej ▸ hb.owner k c n h
      · exact hb.owner j c p hj
    | @finish k a n h =>
      rw [task_count, task_place] at hj
      split_ifs at hj
      simp only [Tally.add, hb.owner k a n h]
      exact hb.owner j c p hj
    | other => exact hb.owner j c p hj
  · rw [ends, tally_snoc]
    cases h with
    | @finish k a n h =>
      simp only [Tally.add, hb.owner k a n h]
      rw [ended_count, ended_place, Function.update_apply, hb.ended a, hb.ended c, ends, ends]
    | _ => exact hb.ended c

/-- After a run from the empty board, the board is what the acts tell. -/
theorem Board.Run.told (h : Board.empty.Run acts b) : b.Told acts := by
  induction h with
  | nil => exact told_empty
  | snoc _ hstep ih => exact ih.step hstep

end Rules

/-! ## Numbering the tasks that reach a stage -/

/-- The owner has a task at the stage `v` or later. -/
def Board.Reached (b : Board κ α) (v : ℕ) (a : α) : Prop := ∃ k n, b.task k = some (a, n) ∧ v ≤ n

open Classical in
/-- The tasks of the owner that are finished, and one more if a task has reached the stage. -/
noncomputable def Board.spent (b : Board κ α) (v : ℕ) (a : α) : ℕ :=
  b.ended a + if b.Reached v a then 1 else 0

theorem spent_of_reached {b : Board κ α} {v : ℕ} {a : α} (h : b.Reached v a) :
    b.spent v a = b.ended a + 1 := by simp [Board.spent, h]

theorem spent_of_not_reached {b : Board κ α} {v : ℕ} {a : α} (h : ¬b.Reached v a) :
    b.spent v a = b.ended a := by simp [Board.spent, h]

theorem spent_le_succ (b : Board κ α) (v : ℕ) (a : α) : b.spent v a ≤ b.ended a + 1 := by
  unfold Board.spent
  split <;> omega

theorem ended_le_spent (b : Board κ α) (v : ℕ) (a : α) : b.ended a ≤ b.spent v a := by
  unfold Board.spent
  omega

section Numbering

variable [DecidableEq κ] [DecidableEq α] {b b' : Board κ α} {act : Act κ α}

omit [DecidableEq κ] [DecidableEq α] in
/-- A task that has reached the stage is there still, or one more is finished. -/
theorem spent_le_of {v : ℕ} {c : α} (hended : b.ended c ≤ b'.ended c)
    (hreached : b.Reached v c → b'.Reached v c ∨ b.ended c < b'.ended c) :
    b.spent v c ≤ b'.spent v c := by
  have hle := ended_le_spent b' v c
  by_cases hr : b.Reached v c
  · rw [spent_of_reached hr]
    rcases hreached hr with hr' | hlt
    · rw [spent_of_reached hr']
      omega
    · omega
  · rw [spent_of_not_reached hr]
    omega

/-- The number never falls. -/
theorem spent_le (h : b.Step act b') (v : ℕ) (c : α) : b.spent v c ≤ b'.spent v c := by
  cases h with
  | @start k a hk ha =>
    refine spent_le_of le_rfl ?_
    rintro ⟨j, n, hj, hn⟩
    have hjk : j ≠ k := by
      rintro rfl
      rw [hk] at hj
      cases hj
    exact .inl ⟨j, n, by rw [task_place_of_ne b hjk, hj], hn⟩
  | @advance k a n h =>
    refine spent_le_of le_rfl ?_
    rintro ⟨j, m, hj, hm⟩
    refine .inl ?_
    by_cases hjk : j = k
    · subst hjk
      rw [h] at hj
      cases hj
      exact ⟨j, n + 1, by rw [task_place, if_pos rfl], by omega⟩
    · exact ⟨j, m, by rw [task_place_of_ne b hjk, hj], hm⟩
  | @finish k a n h =>
    by_cases hc : c = a
    · subst hc
      have hlt : b.ended c < ((b.place k none).count c).ended c := by
        rw [ended_count, if_pos rfl, ended_place]
        omega
      exact spent_le_of hlt.le fun _ => .inr hlt
    · have heq : ((b.place k none).count a).ended c = b.ended c := by
        rw [ended_count, if_neg hc, ended_place]
      refine spent_le_of heq.ge ?_
      rintro ⟨j, m, hj, hm⟩
      have hjk : j ≠ k := by
        rintro rfl
        rw [h] at hj
        cases hj
        exact hc rfl
      exact .inl ⟨j, m, by rw [task_count, task_place_of_ne b hjk, hj], hm⟩
  | other => exact le_rfl

/-- The task that reaches the stage gets the next number, the one after those of the finished tasks. -/
theorem spent_advance (hb : b.Exclusive) {k : κ} {v : ℕ} (h : b.Step (.advance k v) b') :
    ∃ a, b.task k = some (a, v - 1) ∧ b.spent v a = b.ended a ∧ b'.spent v a = b.ended a + 1 := by
  cases h with
  | @advance _ a n h =>
    refine ⟨a, h, ?_, ?_⟩
    · refine spent_of_not_reached ?_
      rintro ⟨j, m, hj, hm⟩
      obtain rfl := hb j k a m n hj h
      rw [h] at hj
      cases hj
      omega
    · exact spent_of_reached ⟨k, n + 1, by rw [task_place, if_pos rfl], le_rfl⟩

end Numbering

end Tasks
