import ParadigmTerra.Reducer.Migrate
import ParadigmTerra.Validator.Multisig
import ParadigmTerra.Validator.Snapshot

/-!
# Validations after the migration

A validation on the migrated registry is the one on the original, if the owners' verdicts of its trace
say what the verdict on the single key says. `ownerGate_migrated` compares the owner gates: they differ
only for a key that has not signed, and then in the reason. `migration_keeps_behaviour` has the whole
validation, and what the migration does to the state.
-/

namespace ParadigmTerra

open Text Fallible

namespace Validator

variable {H : Host} {v : Validator} {t : State}

/-- The owners' verdicts are those of the agent's single key. -/
def VerdictsAgree (v : Validator) : Prop :=
  ∀ K, v.agentField "owner_pubkey" = some (.str K) →
    v.signers = if v.trace.ownerSigPresent then [K] else []

/-- The action needs the signature of a single key, and there is none. -/
structure OwnerUnsigned (v : Validator) : Prop where
  required : v.ownerRequired = true
  single : ∀ os, v.agentField "owners" ≠ some (.arr os)
  key : ∃ K, K ≠ [] ∧ v.agentField "owner_pubkey" = some (.str K)
  unsigned : v.trace.ownerSigPresent = false

/-- The paths that a validation reads, apart from those of the owners, are left by the migration. -/
theorem sameReads_migrated (h : Migrated v.snapshot t)
    (hpre : Outcome.code <$>
        evalExpr H (getIn v.cal [js "preconditions"]) .precondition { state := some t } =
      Outcome.code <$>
        evalExpr H (getIn v.cal [js "preconditions"]) .precondition { state := some v.snapshot }) :
    SameReads H v t where
  bounded := h.elsewhere (by decide) _
  schema := by
    have hne : js "agents" ≠ js "mcp_schema_hash" := by decide
    exact (h.frame fun _ => by simp [hne]).1
  nonce := h.elsewhere (by decide) _
  fee := h.elsewhere (by decide) _
  price := h.elsewhere (by decide) _
  balance := h.elsewhere (by decide) _
  operator := h.field v.agent (by decide) (by decide) (by decide)
  scopes := h.field v.agent (by decide) (by decide) (by decide)
  precondition := hpre

/-- The gate of a record with one owner. -/
theorem multisigQuorum_single {K : Str} (hK : K ≠ []) (signed : Bool) :
    multisigQuorum [K] 1 (if signed then [K] else []) =
      if signed then none else some .QUORUM_NOT_MET := by
  cases signed <;> simp [multisigQuorum, signersSorted, hK]

theorem ownerGate_of_single (hreq : v.ownerRequired = true)
    (hsingle : ∀ os, v.agentField "owners" ≠ some (.arr os)) :
    v.ownerGate = if !v.trace.ownerSigPresent then some .CAPABILITY_DENIED
      else if asStr (v.agentField "owner_pubkey") = [] then some .CAPABILITY_DENIED else none := by
  unfold ownerGate
  rw [hreq]
  simp only [Bool.not_true, Bool.false_eq_true, if_false]

/-- The owner gates before and after the migration. -/
theorem ownerGate_migrated (h : Migrated v.snapshot t) (hreads : SameReads H v t)
    (hagree : VerdictsAgree v) :
    (OwnerUnsigned v →
      v.ownerGate = some .CAPABILITY_DENIED ∧ (v.on t).ownerGate = some .QUORUM_NOT_MET) ∧
    (¬OwnerUnsigned v → (v.on t).ownerGate = v.ownerGate) := by
  by_cases hreq : v.ownerRequired = true
  swap
  · refine ⟨fun hunsigned => absurd hunsigned.required hreq, fun _ => ?_⟩
    unfold ownerGate
    rw [ownerRequired_on hreads.prices]
    simp [hreq]
  rcases h.owner v.agent with ⟨pk, hkey, hsingle, howners, hthreshold⟩ | ⟨hsingle, hsame⟩
  · have hkey : v.agentField "owner_pubkey" = some pk := hkey
    have hsingle : ∀ os, v.agentField "owners" ≠ some (.arr os) := hsingle
    have hgate : (v.on t).ownerGate =
        if onlyStrings (ownersOf pk) = [] then some .CAPABILITY_DENIED
        else multisigQuorum (onlyStrings (ownersOf pk)) (thresholdOf (ownersOf pk)) v.signers := by
      unfold ownerGate
      rw [ownerRequired_on hreads.prices, hreq, show (v.on t).agentField "owners" = _ from howners,
        show (v.on t).agentField "threshold" = _ from hthreshold]
      rfl
    rw [ownerGate_of_single hreq hsingle, hgate, hkey]
    by_cases hK : ∃ K, K ≠ [] ∧ pk = .str K
    · obtain ⟨K, hK, rfl⟩ := hK
      have hK' : ownersOf (.str K) = [.str K] := by rw [ownersOf, if_neg hK]
      have hquorum := multisigQuorum_single hK v.trace.ownerSigPresent
      rw [hK', hagree K hkey]
      simp only [onlyStrings, thresholdOf, List.length_singleton, if_true, hquorum, asStr, hK]
      cases hsigned : v.trace.ownerSigPresent with
      | false =>
        refine ⟨fun _ => ⟨rfl, rfl⟩, fun hnot => absurd ?_ hnot⟩
        exact ⟨hreq, hsingle, ⟨K, hK, hkey⟩, hsigned⟩
      | true =>
        refine ⟨fun hunsigned => ?_, fun _ => rfl⟩
        rw [hunsigned.unsigned] at hsigned
        cases hsigned
    · -- a key that is no text, or an empty one, stands for no owner
      have hnone : ownersOf pk = [] ∧ asStr (some pk) = [] := by
        cases pk with
        | str s =>
          have hs : s = [] := by
            by_contra hs
            exact hK ⟨s, hs, rfl⟩
          simp [ownersOf, asStr, hs]
        | _ => exact ⟨rfl, rfl⟩
      rw [hnone.1, hnone.2]
      refine ⟨fun hunsigned => ?_, fun _ => ?_⟩
      · obtain ⟨K, hne, hK'⟩ := hunsigned.key
        rw [hkey] at hK'
        exact (hK ⟨K, hne, Option.some.inj hK'⟩).elim
      · cases v.trace.ownerSigPresent <;> rfl
  · -- the record is what it was
    have hfield : ∀ k, (v.on t).agentField k = v.agentField k := fun k => hsame (js k)
    have hgate : (v.on t).ownerGate = v.ownerGate := by
      unfold ownerGate
      rw [ownerRequired_on hreads.prices, hfield, hfield, hfield]
      rfl
    refine ⟨fun hunsigned => ?_, fun _ => hgate⟩
    rcases hsingle with hnone | ⟨os, hos⟩
    · obtain ⟨K, -, hK⟩ := hunsigned.key
      rw [show v.agentField "owner_pubkey" = none from hnone] at hK
      cases hK
    · exact (hunsigned.single os hos).elim

/-- Before the gate of the owners, the phases are the same. -/
theorem phaseA_before (hreads : SameReads H v t) (hbefore : ¬UpToOwners v) :
    (v.on t).phaseA H = v.phaseA H := by
  unfold phaseA
  rw [schemaOk_on hreads, boundedMode_on hreads.prices, hreads.operator,
    show getIn (v.on t).snapshot [js "cal", js "nonces", (v.on t).agent] =
      getIn v.snapshot [js "cal", js "nonces", v.agent] from hreads.nonce]
  simp only [spamFail_on hreads, noChargeFail_on]
  change (if !isRegisteredAction v.action then _ else if !v.schemaOk then _
    else if v.boundedMode && !isBoundedAllowed v.action then _
    else if v.expiration < v.tick then _
    else if v.nonce ≠ _ then _ else if !v.trace.operatorSigPresent then _
    else if asStr (v.agentField "operator_pubkey") = [] then _ else _) = _
  split_ifs with hreg hschema hbounded hexp hnonce hsig hop <;> try rfl
  refine absurd ?_ hbefore
  exact ⟨by simpa using hreg, by simpa using hschema, by simpa using hbounded, not_lt.mp hexp,
    not_not.mp hnonce, by simpa using hsig, hop⟩

theorem upToOwners_on (hreads : SameReads H v t) (h : UpToOwners v) : UpToOwners (v.on t) where
  registered := h.registered
  schema := (schemaOk_on hreads).trans h.schema
  bounded := by
    rw [boundedMode_on hreads.prices]
    exact h.bounded
  unexpired := h.unexpired
  nonce := by
    rw [show getIn (v.on t).snapshot [js "cal", js "nonces", (v.on t).agent] =
      getIn v.snapshot [js "cal", js "nonces", v.agent] from hreads.nonce]
    exact h.nonce
  signed := h.signed
  operator := by
    rw [hreads.operator]
    exact h.operator

/-- The weight of the owners' signatures, once their gate is passed. -/
theorem ownerAuth_migrated (h : Migrated v.snapshot t) (hreads : SameReads H v t)
    (hagree : VerdictsAgree v) (hgate : v.ownerGate = none) :
    (v.on t).ownerAuth = v.ownerAuth := by
  unfold ownerAuth
  rw [ownerRequired_on hreads.prices]
  by_cases hreq : v.ownerRequired = true
  swap
  · simp [hreq]
  rcases h.owner v.agent with ⟨pk, hkey, hsingle, howners, -⟩ | ⟨-, hsame⟩
  · have hkey : v.agentField "owner_pubkey" = some pk := hkey
    have hsingle : ∀ os, v.agentField "owners" ≠ some (.arr os) := hsingle
    rw [ownerGate_of_single hreq hsingle, hkey] at hgate
    split_ifs at hgate with hsigned hK
    -- the key is a text, and it has signed
    cases pk with
    | str K =>
      have hK : K ≠ [] := hK
      have hsigners : (v.on t).signers = [K] := by
        refine (hagree K hkey).trans ?_
        rw [if_pos (by simpa using hsigned)]
      rw [hreq, show (v.on t).agentField "owners" = _ from howners, hsigners]
      simp [hK]
    | _ => exact absurd rfl hK
  · have hfield : (v.on t).agentField "owners" = v.agentField "owners" := hsame _
    rw [hfield]
    rfl

/-- The validations before and after the migration: the same, or a missing signature is reported
differently. -/
theorem validate_migrated (h : Migrated v.snapshot t) (hreads : SameReads H v t)
    (hagree : VerdictsAgree v) :
    (¬(OwnerUnsigned v ∧ UpToOwners v) →
      validate H v.cal v.calHash t v.trace = validate H v.cal v.calHash v.snapshot v.trace) ∧
    (OwnerUnsigned v ∧ UpToOwners v →
      validate H v.cal v.calHash v.snapshot v.trace =
        .ok (v.failure .CAPABILITY_DENIED (spamCharge v.cal v.snapshot)) ∧
      validate H v.cal v.calHash t v.trace =
        .ok (v.failure .QUORUM_NOT_MET (spamCharge v.cal v.snapshot))) := by
  obtain ⟨hdiffers, hsame⟩ := ownerGate_migrated h hreads hagree
  constructor
  · intro hnot
    have hphase : (v.on t).phaseA H = v.phaseA H := by
      by_cases hunsigned : OwnerUnsigned v
      · exact phaseA_before hreads fun hbefore => hnot ⟨hunsigned, hbefore⟩
      · exact phaseA_on hreads (hsame hunsigned)
    change ((v.on t).phaseA H >>= fun a => _) = (v.phaseA H >>= fun a => _)
    rw [hphase]
    cases ha : v.phaseA H with
    | error e => rfl
    | ok a =>
      cases a with
      | terminal r => rfl
      | validated events =>
        cases phaseA_end ha with
        | validated gates => exact phaseB_on hreads.prices (ownerAuth_migrated h hreads hagree gates.owner) _
  · rintro ⟨hunsigned, hbefore⟩
    obtain ⟨hdenied, hquorum⟩ := hdiffers hunsigned
    refine ⟨validate_ownerGate hbefore hdenied, ?_⟩
    have hvalidate := validate_ownerGate (H := H) (upToOwners_on hreads hbefore) hquorum
    have hcharge : spamCharge (v.on t).cal (v.on t).snapshot = spamCharge v.cal v.snapshot :=
      spamCharge_on hreads
    rw [hcharge] at hvalidate
    exact hvalidate

end Validator

/-- The migration is idempotent and changes three fields of the agents' records only. A validation on
the migrated state is the one on the original, if its precondition has the same outcome on both and its
owners' verdicts are those of the single key; but a signature that is missing is reported as a quorum
that is not met. -/
theorem migration_keeps_behaviour :
    (∀ s, migrateRegistryV1ToV2 (migrateRegistryV1ToV2 s) = migrateRegistryV1ToV2 s) ∧
    (∀ s q, (∀ id, Apart (ownersPath id) q ∧ Apart (thresholdPath id) q ∧ Apart (ownerKeyPath id) q) →
      getIn (migrateRegistryV1ToV2 s) q = getIn s q ∧
      ownIn (migrateRegistryV1ToV2 s) q = ownIn s q) ∧
    ∀ (H : Host) (v : Validator),
      Outcome.code <$> evalExpr H (getIn v.cal [js "preconditions"]) .precondition
          { state := some (migrateRegistryV1ToV2 v.snapshot) } =
        Outcome.code <$> evalExpr H (getIn v.cal [js "preconditions"]) .precondition
          { state := some v.snapshot } →
      v.VerdictsAgree →
      (¬(v.OwnerUnsigned ∧ v.UpToOwners) →
        validate H v.cal v.calHash (migrateRegistryV1ToV2 v.snapshot) v.trace =
          validate H v.cal v.calHash v.snapshot v.trace) ∧
      (v.OwnerUnsigned ∧ v.UpToOwners →
        validate H v.cal v.calHash v.snapshot v.trace =
          .ok (v.failure .CAPABILITY_DENIED (spamCharge v.cal v.snapshot)) ∧
        validate H v.cal v.calHash (migrateRegistryV1ToV2 v.snapshot) v.trace =
          .ok (v.failure .QUORUM_NOT_MET (spamCharge v.cal v.snapshot))) := by
  refine ⟨migrate_migrate, fun s q => (migrate_spec s).frame, fun H v hpre hagree => ?_⟩
  have hmigrated := migrate_spec v.snapshot
  exact Validator.validate_migrated hmigrated (Validator.sameReads_migrated hmigrated hpre) hagree

/-- A migration of the scenario's agent that its owner has signed, with the verdicts of both kinds. -/
def signedMigration : Validator :=
  let v := Escape.validation (js "agent.migrate") (js "agent.migrate")
  { v with trace := { v.trace with ownerSigners := some [js "0x02"] } }

theorem migration_keeps_behaviour_signed :
    getIn (migrateRegistryV1ToV2 signedMigration.snapshot) (thresholdPath Escape.agent) =
      some (.int 1) ∧
    validate Escape.host signedMigration.cal signedMigration.calHash
        (migrateRegistryV1ToV2 signedMigration.snapshot) signedMigration.trace =
      validate Escape.host signedMigration.cal signedMigration.calHash signedMigration.snapshot
        signedMigration.trace := by
  have hsigned : signedMigration.trace.ownerSigPresent = true := by decide +kernel
  have hkey : signedMigration.agentField "owner_pubkey" = some (.str (js "0x02")) := by rfl
  refine ⟨by rfl, (migration_keeps_behaviour.2.2 Escape.host signedMigration (by decide +kernel)
    fun K hK => ?_).1 fun hmissing => ?_⟩
  · rw [hkey] at hK
    cases hK
    rw [hsigned]
    rfl
  · rw [hmissing.1.unsigned] at hsigned
    cases hsigned

end ParadigmTerra
