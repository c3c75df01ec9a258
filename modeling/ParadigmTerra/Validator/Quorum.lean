import ParadigmTerra.Reducer.OwnerRecord
import ParadigmTerra.Validator.Capability

/-!
# The quorum of the owners

The owner gate counts the presented signers of an agent with an array of owners. It relies on the
record being well-formed and does not check it again.

`multisigQuorum_eq_none` is what the gate checks. `owner_required_quorum` joins it with the invariant of
the registry: in every state that guarded runs reach, an owner-required action is validated only with a
quorum of at least one distinct owner. `sub_threshold_breaks` is a run after which none is needed.
-/

namespace ParadigmTerra

open Text Fallible Validator

/-! ## The order of signers -/

theorem strLt_irrefl (s : Str) : strLt s s = false := by
  induction s with
  | nil => rfl
  | cons u s ih => simp [strLt, ih]

theorem strLt_trans {s t r : Str} (hst : strLt s t = true) (htr : strLt t r = true) :
    strLt s r = true := by
  induction s generalizing t r with
  | nil =>
    cases r with
    | nil => cases t <;> cases htr
    | cons => rfl
  | cons u s ih =>
    match t, r with
    | v :: t, w :: r =>
      simp only [strLt, Bool.or_eq_true, decide_eq_true_eq, Bool.and_eq_true, beq_iff_eq] at hst htr ⊢
      rcases hst with huv | ⟨rfl, hst⟩
      · rcases htr with hvw | ⟨rfl, -⟩
        · exact .inl (UInt16.lt_trans huv hvw)
        · exact .inl huv
      · rcases htr with hvw | ⟨rfl, htr⟩
        · exact .inl hvw
        · exact .inr ⟨rfl, ih hst htr⟩
    | [], _ => cases hst
    | _ :: _, [] => cases htr

theorem strLt_total {s t : Str} (hne : s ≠ t) (h : strLt t s = false) : strLt s t = true := by
  induction s generalizing t with
  | nil =>
    cases t with
    | nil => exact absurd rfl hne
    | cons => rfl
  | cons u s ih =>
    cases t with
    | nil => cases h
    | cons v t =>
      simp only [strLt, Bool.or_eq_false_iff, decide_eq_false_iff_not, Bool.and_eq_false_imp,
        beq_iff_eq] at h
      simp only [strLt, Bool.or_eq_true, decide_eq_true_eq, Bool.and_eq_true, beq_iff_eq]
      by_cases huv : u = v
      · subst huv
        exact .inr ⟨rfl, ih (fun hst => hne (by rw [hst])) (h.2 rfl)⟩
      · exact .inl (UInt16.lt_of_le_of_ne (UInt16.not_lt.mp h.1) huv)

/-- Signers that are sorted by their neighbours are in order. -/
theorem pairwise_of_signersSorted {l : List Str} (h : signersSorted l = true) :
    l.Pairwise fun s t => strLt s t = true := by
  induction l with
  | nil => exact .nil
  | cons s l ih =>
    cases l with
    | nil => exact List.pairwise_singleton _ _
    | cons t r =>
      simp only [signersSorted, Bool.and_eq_true, decide_eq_true_eq, Bool.not_eq_true'] at h
      have hst := strLt_total h.1.1 h.1.2
      have ih := ih h.2
      refine List.pairwise_cons.mpr ⟨fun w hw => ?_, ih⟩
      rcases List.mem_cons.mp hw with rfl | hw
      · exact hst
      · exact strLt_trans hst (List.rel_of_pairwise_cons ih hw)

/-- Sorted signers are distinct. -/
theorem nodup_of_signersSorted {l : List Str} (h : signersSorted l = true) : l.Nodup := by
  refine (pairwise_of_signersSorted h).imp fun {s t} hst => ?_
  rintro rfl
  rw [strLt_irrefl] at hst
  cases hst

/-- What the quorum gate checks. -/
theorem multisigQuorum_eq_none {owners signers : List Str} {threshold : ℤ}
    (h : multisigQuorum owners threshold signers = none) :
    (∀ s ∈ signers, s ≠ [] ∧ s ∈ owners) ∧ signers.Nodup ∧ threshold ≤ signers.length := by
  unfold multisigQuorum at h
  split_ifs at h with hlen hany hsorted hquorum
  refine ⟨fun s hs => ?_, nodup_of_signersSorted (by simpa using hsorted), by omega⟩
  by_contra hbad
  refine hany (List.any_eq_true.mpr ⟨s, hs, ?_⟩)
  by_cases hnil : s = []
  · simp [hnil]
  · simp [hnil, not_and.mp hbad hnil]

/-! ## Validation over guarded runs -/

/-- A quorum of an agent's record: distinct owners, at least one and at least the threshold. -/
structure QuorumHeld (v : Validator) (os : List Json) : Prop where
  owners : ∀ s ∈ v.signers, Json.str s ∈ os
  nodup : v.signers.Nodup
  threshold : ∃ n, v.agentField "threshold" = some (.int n) ∧ 1 ≤ n ∧ n ≤ v.signers.length

theorem mem_onlyStrings {s : Str} {xs : List Json} (h : s ∈ onlyStrings xs) : Json.str s ∈ xs := by
  induction xs with
  | nil => cases h
  | cons x xs ih =>
    cases x with
    | str t =>
      rcases List.mem_cons.mp h with rfl | h
      · exact List.mem_cons_self
      · exact List.mem_cons_of_mem _ (ih h)
    | _ => exact List.mem_cons_of_mem _ (ih h)

/-- With a well-formed record, a passed owner gate is a quorum. -/
theorem Validator.Gates.quorumHeld {v : Validator} {os : List Json} (g : Gates v)
    (howner : v.ownerRequired = true) (hos : v.agentField "owners" = some (.arr os))
    (hrec : RegistryOk v.snapshot) : QuorumHeld v os := by
  have hheld := g.ownerHeld howner
  simp only [Validator.ownerHeld, hos, Bool.and_eq_true, Option.isNone_iff_eq_none] at hheld
  obtain ⟨hmem, hnodup, hquorum⟩ := multisigQuorum_eq_none hheld.2
  have hwf := hrec v.agent os hos
  unfold ownerRecordWellFormed at hwf
  split at hwf
  · next n _ hn =>
    simp only [Bool.and_eq_true, decide_eq_true_eq] at hwf
    have hth : v.agentField "threshold" = some (.int n) := hn
    rw [hth] at hquorum
    exact ⟨fun s hs => mem_onlyStrings (hmem s hs).2, hnodup, n, hth, hwf.1.1.2, hquorum⟩
  · cases hwf

/-- In every run from a well-formed registry whose events commit guarded deltas, the registry stays
well-formed, and in the state reached an owner-required action of an agent with owners is validated only
with a quorum of them. -/
theorem owner_required_quorum {s t : State} {evs : List Event} (hs : RegistryOk s)
    (hrun : Run CommitsGuarded s evs t) :
    RegistryOk t ∧ ∀ (H : Host) (cal : Json) (ch : Str) (trace : ExecutionTrace) (os : List Json),
      Emits H cal ch t trace → ownerRequired ⟨cal, ch, t, trace⟩ = true →
      agentField ⟨cal, ch, t, trace⟩ "owners" = some (.arr os) → QuorumHeld ⟨cal, ch, t, trace⟩ os := by
  have ht := run_registryOk hs hrun
  refine ⟨ht, fun H cal ch trace os hemits howner hos => ?_⟩
  exact (emits_gates hemits).quorumHeld howner hos ht

/-! ## Runs that rewrite a record -/

/-- A delta at a field of the record of the scenario's agent. -/
def recordDelta (op field : String) (value : Json) : Json :=
  .obj [(js "ns", .str (js "registry")), (js "op", .str (js op)),
    (js "path", .arr [.str (js "agents"), .str Escape.agent, .str (js field)]), (js "value", value)]

/-- A registry with one agent, which has one owner. -/
def oneOwner : State :=
  let record := .obj [(js "operator_pubkey", .str (js "0x01")), (js "owners", .arr [.str (js "K")]),
    (js "threshold", .int 1)]
  setBalance (setIn (some genesis) (recordPath Escape.agent) record) Escape.agent 1000000000

theorem registryOk_oneOwner : RegistryOk oneOwner := registryOk_of_check (by decide +kernel)

/-- A migration of the agent, with these signers. -/
def migration (s : State) (signers : List Str) : Validator where
  cal := Escape.calOf (js "agent.migrate") (js "agent.migrate")
  calHash := js "M"
  snapshot := s
  trace := { Escape.traceOf [] [] with ownerSigners := some signers }

/-- The migration is validated, for an agent with owners. -/
def migrates (s : State) (signers : List Str) : Bool :=
  reachesValidated Escape.host (migration s signers) &&
    match (migration s signers).agentField "owners" with
    | some (.arr _) => true
    | _ => false

theorem migrates_spec {s : State} {signers : List Str} (h : migrates s signers = true) :
    Emits Escape.host (migration s signers).cal (js "M") s (migration s signers).trace ∧
      ∃ os, (migration s signers).agentField "owners" = some (.arr os) := by
  rw [migrates, Bool.and_eq_true] at h
  refine ⟨emits_of_reachesValidated h.1, ?_⟩
  have hos := h.2
  split at hos
  · next os heq => exact ⟨os, heq⟩
  · cases hos

theorem migration_ownerRequired (s : State) (signers : List Str) :
    (migration s signers).ownerRequired = true := by
  have haction : (migration s signers).action = js "agent.migrate" := by rfl
  rw [ownerRequired, haction]
  rfl

/-- A second owner and a threshold of two. -/
def widening : List Json :=
  [recordDelta "set" "owners" (.arr [.str (js "K"), .str (js "L")]),
    recordDelta "set" "threshold" (.int 2)]

theorem owner_required_quorum_widening :
    ∃ t os, Run CommitsGuarded oneOwner (commitEvents widening) t ∧ RegistryOk t ∧
      QuorumHeld (migration t [js "K", js "L"]) os := by
  have h : (checkRun CommitsChecked oneOwner (commitEvents widening)).any
      (migrates · [js "K", js "L"]) = true := by decide +kernel
  obtain ⟨t, ht, hm⟩ := (Option.any_eq_true _ _).mp h
  obtain ⟨hemits, os, hos⟩ := migrates_spec hm
  have hrun : Run CommitsGuarded oneOwner (commitEvents widening) t :=
    (checkRun_run ht).mono fun _ _ => guardedList_of_check
  obtain ⟨hreg, hquorum⟩ := owner_required_quorum registryOk_oneOwner hrun
  exact ⟨t, os, hrun, hreg, hquorum _ _ _ _ os hemits (migration_ownerRequired _ _) hos⟩

/-- A threshold of one that is lowered by `sub` is zero. The registry is then malformed, and the agent
migrates without a signature of its owner. -/
theorem sub_threshold_breaks :
    ∃ t os, RegistryOk oneOwner ∧
      AcceptsAll oneOwner (commitEvents [recordDelta "sub" "threshold" (.int 1)]) t ∧
      ¬RegistryOk t ∧ isOwnerRequired (migration t []).action = true ∧
      (migration t []).agentField "owners" = some (.arr os) ∧ (migration t []).signers = [] ∧
      Emits Escape.host (migration t []).cal (js "M") t (migration t []).trace := by
  have h : (checkRun (fun _ _ => True) oneOwner
      (commitEvents [recordDelta "sub" "threshold" (.int 1)])).any (migrates · []) = true := by
    decide +kernel
  obtain ⟨t, ht, hm⟩ := (Option.any_eq_true _ _).mp h
  obtain ⟨hemits, os, hos⟩ := migrates_spec hm
  refine ⟨t, os, registryOk_oneOwner, checkRun_run ht, fun hreg => ?_, by rfl, hos, rfl, hemits⟩
  obtain ⟨-, -, n, -, hpos, hle⟩ :=
    (emits_gates hemits).quorumHeld (migration_ownerRequired _ _) hos hreg
  have hzero : n ≤ ((0 : ℕ) : ℤ) := hle
  omega

end ParadigmTerra
