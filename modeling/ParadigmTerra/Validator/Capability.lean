import ParadigmTerra.Validator.Gates

/-!
# Step verbs and the checked capability

The gates of phase A look at the top-level action of a CAL. The verbs of its steps need only be of the
same namespace, so that a verb is inside the checked capability when the action dominates it: the
action asks for all that the verb would have asked for.

`verbs_inside_iff_dominates` says that a verb is inside in every validation exactly when its action
dominates it. One direction is tier implication over the gates that have passed. For the other, a pair
that is not dominated has a CAL that is validated with the verb outside: `escapes_of_not_dominates`
runs it for each such pair of the taxonomy.
-/

namespace ParadigmTerra

open Text Fallible

/-- Scopes with those that they imply. -/
def tierExpanded (granted : List Str) : List Str := granted.flatMap fun g => g :: impliedScopes g

namespace Validator

/-- The scopes granted to the agent. -/
def grantedScopes (v : Validator) : List Str := onlyStrings (listOf (v.agentField "granted_scopes"))

/-- The owner gate holds, whatever the action: the quorum of a record with owners, and a present
signature with a registered key for the others. -/
def ownerHeld (v : Validator) : Bool :=
  match v.agentField "owners" with
  | some (.arr os) =>
    onlyStrings os ≠ [] &&
      (multisigQuorum (onlyStrings os) (asBig (v.agentField "threshold") 0) v.signers).isNone
  | _ => v.trace.ownerSigPresent && asStr (v.agentField "owner_pubkey") ≠ []

/-- A verb is inside the capability that the state and the trace give the agent. -/
structure VerbInside (v : Validator) (verb : Str) : Prop where
  scopes : ∀ s ∈ requiredScopes verb, s ∈ tierExpanded v.grantedScopes
  owner : isOwnerRequired verb = true → v.ownerHeld = true
  bounded : v.boundedMode = true → isBoundedAllowed verb = true

instance (v : Validator) (verb : Str) : Decidable (VerbInside v verb) :=
  decidable_of_iff ((∀ s ∈ requiredScopes verb, s ∈ tierExpanded v.grantedScopes) ∧
      (isOwnerRequired verb = true → v.ownerHeld = true) ∧
      (v.boundedMode = true → isBoundedAllowed verb = true))
    ⟨fun ⟨h1, h2, h3⟩ => ⟨h1, h2, h3⟩, fun ⟨h1, h2, h3⟩ => ⟨h1, h2, h3⟩⟩

end Validator

open Validator

/-- The gates of an action ask for all that those of a verb would ask for. -/
structure Dominates (action verb : Str) : Prop where
  scopes : ∀ s ∈ requiredScopes verb, s ∈ tierExpanded (requiredScopes action)
  owner : isOwnerRequired verb = true → isOwnerRequired action = true
  bounded : isBoundedAllowed action = true → isBoundedAllowed verb = true

instance (action verb : Str) : Decidable (Dominates action verb) :=
  decidable_of_iff ((∀ s ∈ requiredScopes verb, s ∈ tierExpanded (requiredScopes action)) ∧
      (isOwnerRequired verb = true → isOwnerRequired action = true) ∧
      (isBoundedAllowed action = true → isBoundedAllowed verb = true))
    ⟨fun ⟨h1, h2, h3⟩ => ⟨h1, h2, h3⟩, fun ⟨h1, h2, h3⟩ => ⟨h1, h2, h3⟩⟩

/-! ## Dominated verbs are inside -/

theorem mem_tierExpanded {granted : List Str} {s : Str} :
    s ∈ tierExpanded granted ↔ s ∈ granted ∨ ∃ g ∈ granted, s ∈ impliedScopes g := by
  simp only [tierExpanded, List.mem_flatMap, List.mem_cons]
  constructor
  · rintro ⟨g, hg, rfl | hs⟩
    · exact .inl hg
    · exact .inr ⟨g, hg, hs⟩
  · rintro (hs | ⟨g, hg, hs⟩)
    · exact ⟨s, hs, .inl rfl⟩
    · exact ⟨g, hg, .inr hs⟩

/-- Tier implication twice is tier implication once. -/
theorem tierExpanded_mono {required granted : List Str}
    (h : ∀ s ∈ required, s ∈ tierExpanded granted) {s : Str} (hs : s ∈ tierExpanded required) :
    s ∈ tierExpanded granted := by
  rcases mem_tierExpanded.mp hs with hs | ⟨g, hg, hs⟩
  · exact h s hs
  · rcases mem_tierExpanded.mp (h g hg) with hg | ⟨r, -, hg⟩
    · exact mem_tierExpanded.mpr (.inr ⟨g, hg, hs⟩)
    · rw [impliedScopes_implied hg] at hs
      cases hs

/-- The gate on the scopes, in terms of the tier-expanded scopes. -/
theorem Validator.Gates.scopes_mem {v : Validator} (g : Gates v) :
    ∀ s ∈ requiredScopes v.action, s ∈ tierExpanded v.grantedScopes := by
  have h := g.scopes
  unfold capabilityGrants at h
  split at h
  · next hnil =>
    rw [hnil]
    rintro s hs
    cases hs
  · simp only [bind_eq_ok, pure_eq_ok, List.all_eq_true, decide_eq_true_eq] at h
    obtain ⟨set, hset, h⟩ := h
    exact fun s hs => mem_tierExpanded.mpr ((mem_expandGrantedScopes hset).mp (h s hs))

/-- The owner gate on an action that requires the owner. -/
theorem Validator.Gates.ownerHeld {v : Validator} (g : Gates v) (h : v.ownerRequired = true) :
    v.ownerHeld = true := by
  have howner := g.owner
  simp only [ownerGate, h, Bool.not_true, Bool.false_eq_true, if_false] at howner
  have hlegacy : (if !v.trace.ownerSigPresent then some ReasonCode.CAPABILITY_DENIED
      else if asStr (v.agentField "owner_pubkey") = [] then some .CAPABILITY_DENIED
      else none) = none →
      (v.trace.ownerSigPresent && decide (asStr (v.agentField "owner_pubkey") ≠ [])) = true := by
    intro h
    split_ifs at h with hsig hkey
    simpa [hkey] using hsig
  unfold Validator.ownerHeld
  cases hf : v.agentField "owners" with
  | none =>
    rw [hf] at howner
    exact hlegacy howner
  | some o =>
    rw [hf] at howner
    cases o with
    | arr os =>
      simp only at howner
      split_ifs at howner with hnil
      simp [hnil, howner]
    | _ => exact hlegacy howner

theorem Validator.Gates.verbInside {v : Validator} (g : Gates v) {verb : Str}
    (h : Dominates v.action verb) : VerbInside v verb where
  scopes s hs := tierExpanded_mono g.scopes_mem (h.scopes s hs)
  owner hverb := g.ownerHeld (by rw [ownerRequired, h.owner hverb, Bool.true_or])
  bounded hmode := h.bounded (g.bounded hmode)

/-! ## The other verbs are outside in some validation -/

namespace Escape

/-- The strings of the scenario are of the assigned part of the basic plane. -/
def host : Host := ⟨id, fun c => c < 888⟩

def agent : Str := js "0:" ++ List.replicate 64 48

/-- The verb of the scenario escapes at Bounded Mode if it escapes nowhere else. -/
def bounded (action verb : Str) : Bool :=
  decide (∀ s ∈ requiredScopes verb, s ∈ tierExpanded (requiredScopes action)) &&
    (!isOwnerRequired verb || isOwnerRequired action)

/-- A CAL under the action with one step of the verb. -/
def calOf (action verb : Str) : Json :=
  .obj [(js "cal_version", .str CAL_VERSION), (js "action", .str action), (js "agent_id", .str agent),
    (js "nonce", .int 1), (js "expiration_tick", .int 100),
    (js "preconditions", constNode (.bool true)), (js "invariants", .arr []),
    (js "steps", .arr [.obj [(js "verb", .str verb), (js "params", .obj [])]]),
    (js "receipt_required", .bool false),
    (js "signatures", .obj [(js "operator_sig", .str (js "0x"))])]

/-- A state that grants the agent exactly what the action requires. -/
def snapshotOf (action verb : Str) : Json :=
  .obj [(js "registry", .obj [(js "agents", .obj [(agent, .obj [
      (js "operator_pubkey", .str (js "0x01")), (js "owner_pubkey", .str (js "0x02")),
      (js "granted_scopes", .arr ((requiredScopes action).map .str))])])]),
    (js "ptra", .obj [(js "balances", .obj [(agent, .int 1000000000)])]),
    (js "failure_mode", .obj [(js "is_bounded_mode", .bool (bounded action verb))])]

/-- A trace with the owner's signature only where the action asks for it. -/
def traceOf (action verb : Str) : ExecutionTrace where
  currentTick := 1
  steps := []
  stateBefore := .obj []
  stateAfter := .obj []
  operatorSigPresent := true
  ownerSigPresent := isOwnerRequired action || bounded action verb
  ownerSigners := none
  pinnedMcpSchemaHash := none

/-- The validation of the scenario. -/
def validation (action verb : Str) : Validator :=
  ⟨calOf action verb, js "H", snapshotOf action verb, traceOf action verb⟩

/-- The CAL is accepted and validated, and the verb of its step is outside. -/
def Escapes (action verb : Str) : Prop :=
  (validateCal (calOf action verb)).isOk = true ∧
    reachesValidated host (validation action verb) = true ∧
    ¬VerbInside (validation action verb) verb

instance (action verb : Str) : Decidable (Escapes action verb) := by
  unfold Escapes; infer_instance

/-- Each verb of the taxonomy that an action of its namespace does not dominate escapes. -/
theorem escapes_of_not_dominates : ∀ action ∈ REGISTERED_ACTIONS, ∀ verb ∈ REGISTERED_ACTIONS,
    namespaceOf verb = namespaceOf action → ¬Dominates action verb → Escapes action verb := by
  decide +kernel

end Escape

open Escape

/-- The property of one action and one verb: in every CAL of the action with a step of the verb that
is accepted and validated, the verb is inside. -/
def AlwaysInside (action verb : Str) : Prop :=
  ∀ (H : Host) (input cal snapshot : Json) (ch : Str) (trace : ExecutionTrace),
    validateCal input = .ok cal → getIn cal [js "action"] = some (.str action) →
    verb ∈ stepVerbs cal → Emits H cal ch snapshot trace →
    VerbInside ⟨cal, ch, snapshot, trace⟩ verb

theorem not_alwaysInside_of_escapes {action verb : Str} (h : Escapes action verb) :
    ¬AlwaysInside action verb := by
  obtain ⟨hcal, hemits, hout⟩ := h
  intro hinside
  refine hout (hinside host _ _ _ (js "H") _ (validateCal_of_isOk hcal) (by rfl) ?_
    (emits_of_reachesValidated hemits))
  simp [stepVerbs, listOf, getIn, Json.isPlainObject, Json.read, OrderedMap.get, calOf]

/-- A step verb is inside the checked capability in every validation exactly when the action of the CAL
dominates it, for all verbs that a CAL of the action can carry. -/
theorem verbs_inside_iff_dominates (action verb : Str) :
    AlwaysInside action verb ↔
      (isRegisteredAction action = true ∧ isRegisteredAction verb = true ∧
        namespaceOf verb = namespaceOf action → Dominates action verb) := by
  constructor
  · rintro h ⟨ha, hv, hns⟩
    by_contra hd
    refine not_alwaysInside_of_escapes ?_ h
    exact escapes_of_not_dominates action (of_decide_eq_true ha) verb (of_decide_eq_true hv) hns hd
  · intro hd H input cal snapshot ch trace hval haction hverb hemits
    have hg := emits_gates hemits
    obtain ⟨a, ha, hreg, hsteps⟩ := (validateCal_spec hval).action
    cases haction.symm.trans ha
    refine hg.verbInside ?_
    have hact : Validator.action ⟨cal, ch, snapshot, trace⟩ = action := by
      rw [Validator.action, haction]
      rfl
    rw [hact]
    exact hd ⟨hreg, hsteps verb hverb⟩

/-- Not every pair of one namespace is dominated: a CAL that sends TON carries a transfer of jettons,
which the agent was not granted. -/
theorem send_ton_not_alwaysInside_send_jetton :
    ¬∀ (H : Host) (input cal snapshot : Json) (ch : Str) (trace : ExecutionTrace),
      validateCal input = .ok cal → Emits H cal ch snapshot trace →
      ∀ verb ∈ stepVerbs cal, VerbInside ⟨cal, ch, snapshot, trace⟩ verb := by
  intro h
  have hescapes : Escapes (js "wallet.send_ton") (js "wallet.send_jetton") := by decide +kernel
  refine not_alwaysInside_of_escapes hescapes ?_
  intro H input cal snapshot ch trace hval _ hverb hemits
  exact h H input cal snapshot ch trace hval hemits _ hverb

end ParadigmTerra
