import ParadigmTerra.Validator.Quorum

/-!
# Verdicts of the owner gate

For a record with a list of owners the gate passes exactly with a quorum of them
(`multisigQuorum_eq_none_iff`), and a set of signers that is out of order or not of the owners is
reported before one that is too small. `multisig_gate` carries this to validations: one that emits
`cal.validated` had a quorum, and a failure of the gate is what the validation reports.

An agent whose list of owners is empty fails the gate whatever its threshold is
(`multisig_gate_no_owners`).
-/

namespace ParadigmTerra

open Text Fallible Validator

/-! ## Signers -/

/-- The signers are in strictly ascending order. -/
def Ascending (signers : List Str) : Prop := signers.Pairwise fun s t => strLt s t = true

/-- The signers are owners, each at most once and in order. -/
structure SignedBy (owners signers : List Str) : Prop where
  ascending : Ascending signers
  members : ∀ s ∈ signers, s ∈ owners

theorem strLt_asymm {s t : Str} (h : strLt s t = true) : s ≠ t ∧ strLt t s = false := by
  constructor
  · rintro rfl
    rw [strLt_irrefl] at h
    cases h
  · by_contra hts
    have hts : strLt t s = true := by simpa using hts
    have hss := strLt_trans h hts
    rw [strLt_irrefl] at hss
    cases hss

/-- Comparing neighbours finds out whether a list is ascending. -/
theorem signersSorted_iff {l : List Str} : signersSorted l = true ↔ Ascending l := by
  constructor
  · exact pairwise_of_signersSorted
  · intro h
    induction l with
    | nil => rfl
    | cons s l ih =>
      cases l with
      | nil => rfl
      | cons t r =>
        obtain ⟨hst, hrest⟩ := List.pairwise_cons.mp h
        obtain ⟨hne, hlt⟩ := strLt_asymm (hst t (by simp))
        simp [signersSorted, hne, hlt, ih hrest]

theorem Ascending.nodup {l : List Str} (h : Ascending l) : l.Nodup :=
  h.imp fun hst => (strLt_asymm hst).1

/-- Distinct owners outnumber the signers among them. -/
theorem SignedBy.length_le {owners signers : List Str} (h : SignedBy owners signers) :
    signers.length ≤ owners.length :=
  (h.ascending.nodup.subperm h.members).length_le

section Quorum

variable {owners signers : List Str} {n : ℤ}

/-- Signers that are not owners in order are an invalid set. -/
theorem multisigQuorum_invalid (hnonempty : ∀ s ∈ owners, s ≠ []) :
    multisigQuorum owners n signers = some .INVALID_SIGNATURE_SET ↔ ¬SignedBy owners signers := by
  have hany : (signers.any fun s => s = [] || s ∉ owners) = true ↔ ¬∀ s ∈ signers, s ∈ owners := by
    simp only [List.any_eq_true, Bool.or_eq_true, decide_eq_true_eq, not_forall]
    constructor
    · rintro ⟨s, hs, rfl | hout⟩
      · exact ⟨[], hs, fun hmem => hnonempty _ hmem rfl⟩
      · exact ⟨s, hs, by simpa using hout⟩
    · rintro ⟨s, hs, hout⟩
      exact ⟨s, hs, .inr (by simpa using hout)⟩
  constructor
  · intro h hsigned
    unfold multisigQuorum at h
    split_ifs at h with hlen hout hsorted
    · exact absurd hsigned.length_le (Nat.not_le.mpr hlen)
    · exact hany.mp hout hsigned.members
    · rw [signersSorted_iff.mpr hsigned.ascending] at hsorted
      cases hsorted
    · cases h
  · intro hsigned
    unfold multisigQuorum
    split_ifs with hlen hout hsorted hfew
    · rfl
    · rfl
    · rfl
    all_goals
      refine absurd ⟨signersSorted_iff.mp (by simpa using hsorted), ?_⟩ hsigned
      by_contra hmem
      exact hout (hany.mpr hmem)

/-- A valid set of signers fails only if it is too small. -/
theorem multisigQuorum_signed (hnonempty : ∀ s ∈ owners, s ≠ []) (h : SignedBy owners signers) :
    multisigQuorum owners n signers =
      if (signers.length : ℤ) < n then some .QUORUM_NOT_MET else none := by
  have hvalid := mt (multisigQuorum_invalid (n := n) hnonempty).mp (not_not.mpr h)
  unfold multisigQuorum at hvalid ⊢
  split_ifs at hvalid ⊢ with hlen hout hsorted hfew <;> first | rfl | exact (hvalid rfl).elim

theorem multisigQuorum_eq_none_iff (hnonempty : ∀ s ∈ owners, s ≠ []) :
    multisigQuorum owners n signers = none ↔ SignedBy owners signers ∧ n ≤ signers.length := by
  constructor
  · intro h
    have hsigned : SignedBy owners signers := by
      by_contra hnot
      rw [(multisigQuorum_invalid hnonempty).mpr hnot] at h
      cases h
    rw [multisigQuorum_signed hnonempty hsigned] at h
    split_ifs at h with hfew
    exact ⟨hsigned, by omega⟩
  · rintro ⟨hsigned, hle⟩
    rw [multisigQuorum_signed hnonempty hsigned, if_neg (by omega)]

theorem multisigQuorum_few (hnonempty : ∀ s ∈ owners, s ≠ []) :
    multisigQuorum owners n signers = some .QUORUM_NOT_MET ↔
      SignedBy owners signers ∧ (signers.length : ℤ) < n := by
  constructor
  · intro h
    have hsigned : SignedBy owners signers := by
      by_contra hnot
      rw [(multisigQuorum_invalid hnonempty).mpr hnot] at h
      cases h
    rw [multisigQuorum_signed hnonempty hsigned] at h
    split_ifs at h with hfew
    exact ⟨hsigned, hfew⟩
  · rintro ⟨hsigned, hlt⟩
    rw [multisigQuorum_signed hnonempty hsigned, if_pos hlt]

end Quorum

/-! ## The gate -/

theorem onlyStrings_map (l : List Str) : onlyStrings (l.map .str) = l := by
  induction l with
  | nil => rfl
  | cons s l ih => rw [List.map_cons, onlyStrings, ih]

/-- The record of the agent lists distinct owners with a threshold. -/
structure MultisigRecord (v : Validator) (owners : List Str) (n : ℤ) : Prop where
  listed : v.agentField "owners" = some (.arr (owners.map .str))
  distinct : owners.Nodup
  nonempty : ∀ s ∈ owners, s ≠ []
  threshold : v.agentField "threshold" = some (.int n)

namespace Validator

variable {H : Host} {v : Validator} {owners : List Str} {n : ℤ}

/-- The gates before the one of the owners are passed. -/
structure UpToOwners (v : Validator) : Prop where
  registered : isRegisteredAction v.action = true
  schema : v.schemaOk = true
  bounded : v.boundedMode = true → isBoundedAllowed v.action = true
  unexpired : v.tick ≤ v.expiration
  nonce : v.nonce = asBig (getIn v.snapshot [js "cal", js "nonces", v.agent]) 0 + 1
  signed : v.trace.operatorSigPresent = true
  operator : asStr (v.agentField "operator_pubkey") ≠ []

theorem ownerGate_eq (hrec : MultisigRecord v owners n) (hreq : v.ownerRequired = true) :
    v.ownerGate = if owners = [] then some .CAPABILITY_DENIED
      else multisigQuorum owners n v.signers := by
  unfold ownerGate
  rw [hreq, hrec.listed, hrec.threshold]
  simp only [Bool.not_true, Bool.false_eq_true, if_false, onlyStrings_map]
  rfl

/-- Past the earlier gates, the validation ends in what the gate of the owners finds. -/
theorem validate_ownerGate (hbefore : UpToOwners v) {reason : ReasonCode}
    (h : v.ownerGate = some reason) :
    validate H v.cal v.calHash v.snapshot v.trace =
      .ok (v.failure reason (spamCharge v.cal v.snapshot)) := by
  have hphase : v.phaseA H = v.spamFail reason := by
    have hbounded : (v.boundedMode && !isBoundedAllowed v.action) = false := by
      cases hb : v.boundedMode with
      | false => rfl
      | true => rw [hbefore.bounded hb]; rfl
    unfold phaseA
    rw [hbefore.registered, hbefore.schema, hbounded, hbefore.signed, h,
      if_neg (not_lt.mpr hbefore.unexpired), if_neg (not_not.mpr hbefore.nonce),
      if_neg hbefore.operator]
    rfl
  unfold validate
  change (v.phaseA H >>= _) = _
  rw [hphase]
  rfl

end Validator

/-- For an agent with owners and a threshold, a validation of an owner-required action that emits
`cal.validated` had a quorum of distinct owners. If there is an owner, the gate passes exactly with a
quorum, and reports an invalid set of signers before one that is too small. -/
theorem multisig_gate {H : Host} {v : Validator} {owners : List Str} {n : ℤ}
    (hrec : MultisigRecord v owners n) (hreq : v.ownerRequired = true) :
    (Emits H v.cal v.calHash v.snapshot v.trace →
      SignedBy owners v.signers ∧ v.signers.Nodup ∧ n ≤ v.signers.length) ∧
    (owners ≠ [] →
      (v.ownerGate = none ↔ SignedBy owners v.signers ∧ n ≤ v.signers.length) ∧
      (v.ownerGate = some .INVALID_SIGNATURE_SET ↔ ¬SignedBy owners v.signers) ∧
      (v.ownerGate = some .QUORUM_NOT_MET ↔
        SignedBy owners v.signers ∧ (v.signers.length : ℤ) < n)) ∧
    ∀ reason, v.UpToOwners → v.ownerGate = some reason →
      validate H v.cal v.calHash v.snapshot v.trace =
        .ok (v.failure reason (spamCharge v.cal v.snapshot)) := by
  refine ⟨fun hemits => ?_, fun hne => ?_, fun reason hbefore => Validator.validate_ownerGate hbefore⟩
  · have hgate := (emits_gates hemits).owner
    change v.ownerGate = none at hgate
    rw [Validator.ownerGate_eq hrec hreq] at hgate
    split_ifs at hgate with hnil
    obtain ⟨hsigned, hle⟩ := (multisigQuorum_eq_none_iff hrec.nonempty).mp hgate
    exact ⟨hsigned, hsigned.ascending.nodup, hle⟩
  · rw [Validator.ownerGate_eq hrec hreq, if_neg hne]
    exact ⟨multisigQuorum_eq_none_iff hrec.nonempty, multisigQuorum_invalid hrec.nonempty,
      multisigQuorum_few hrec.nonempty⟩

/-! ## Records of the scenario's agent -/

/-- A registry whose agent has these owners and this threshold. -/
def ownedBy (owners : List Str) (n : ℤ) : State :=
  let record := .obj [(js "operator_pubkey", .str (js "0x01")),
    (js "owners", .arr (owners.map .str)), (js "threshold", .int n)]
  setBalance (setIn (some genesis) (recordPath Escape.agent) record) Escape.agent 1000000000

theorem multisig_gate_two :
    MultisigRecord (migration (ownedBy [js "K", js "L"] 2) [js "K", js "L"]) [js "K", js "L"] 2 ∧
      SignedBy [js "K", js "L"] (migration (ownedBy [js "K", js "L"] 2) [js "K", js "L"]).signers := by
  have hrec : MultisigRecord (migration (ownedBy [js "K", js "L"] 2) [js "K", js "L"])
      [js "K", js "L"] 2 := ⟨rfl, by decide, by decide, rfl⟩
  have h : reachesValidated Escape.host (migration (ownedBy [js "K", js "L"] 2) [js "K", js "L"]) =
      true := by decide +kernel
  exact ⟨hrec, ((multisig_gate hrec (migration_ownerRequired _ _)).1
    (emits_of_reachesValidated h)).1⟩

/-- An agent without owners is denied, though no signer is missing of a threshold of zero and one too
many is presented. -/
theorem multisig_gate_no_owners :
    MultisigRecord (migration (ownedBy [] 0) []) [] 0 ∧
      (migration (ownedBy [] 0) []).ownerRequired = true ∧
      SignedBy [] (migration (ownedBy [] 0) []).signers ∧
      ((0 : ℤ) ≤ (migration (ownedBy [] 0) []).signers.length) ∧
      (migration (ownedBy [] 0) []).ownerGate = some .CAPABILITY_DENIED ∧
      ¬SignedBy [] (migration (ownedBy [] 0) [js "K"]).signers ∧
      (migration (ownedBy [] 0) [js "K"]).ownerGate = some .CAPABILITY_DENIED := by
  refine ⟨⟨rfl, List.nodup_nil, by decide, rfl⟩, migration_ownerRequired _ _, ⟨List.Pairwise.nil, ?_⟩,
    by decide, by decide +kernel, fun h => ?_, by decide +kernel⟩
  · exact fun s hs => (nomatch hs)
  · exact (nomatch h.members (js "K") List.mem_cons_self)

end ParadigmTerra
