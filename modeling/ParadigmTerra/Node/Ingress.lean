import ParadigmTerra.Validator.Capability
import ParadigmTerra.Validator.OwnerSig

/-!
# Ingress

`verifyIngress` derives the two verdicts of a trace from the signatures that a CAL carries and the keys
of its agent. An accepted CAL carries signatures of a known form (`validateCal_signatures`); for them
`verifyIngress_iff` says when the verdicts are those of the other implementation, and
`signature_verdicts` joins it with the verdicts on single keys and on lists of owners.

A registry may hold a key that is not 32 bytes long, and no key that is listed with a prefix is found.
-/

namespace ParadigmTerra

open Text OrderedMap Fallible

/-- The keys in the record of an agent. -/
structure AgentKeys where
  operator_pubkey : Option Str
  owner_pubkey : Option Str

structure IngressVerdict where
  operatorSigPresent : Bool
  ownerSigPresent : Bool
  deriving DecidableEq

/-- Throws on what another layer throws. -/
def liftHost {α : Type} (x : Except Throw α) : Except SigThrow α := x.mapError .host

@[simp] theorem liftHost_eq_ok {α : Type} {x : Except Throw α} {a : α} :
    liftHost x = .ok a ↔ x = .ok a := by
  cases x <;> simp [liftHost, Except.mapError]

/-- `typeof v === "object" && v !== null`. -/
def isObjectType (v : Json) : Bool :=
  match v with
  | .arr _ => true
  | v => v.isPlainObject

/-- The envelope in a CAL. The integers are there in every envelope that is accepted. -/
def ownerEnvelope (ow : Json) (canonicalBytes : List UInt8) : Except SigThrow OwnerCoSignature := do
  let address ← liftHost (stringOfOpt (ow.read (js "address_hash")))
  let domain ← liftHost (stringOfOpt (ow.read (js "domain")))
  let signature ← liftHost (stringOfOpt (ow.read (js "signature")))
  pure {
    calCanonicalBytesB64 := base64Encode canonicalBytes
    workchain := asBig (ow.read (js "workchain")) 0
    addressHashHex := strip0x address
    domain := domain
    timestamp := asBig (ow.read (js "timestamp")) 0
    signatureB64 := hexToB64 signature }

/-- `cal["signatures"] ?? {}`. -/
def signaturesOf (cal : Json) : Json :=
  match cal.read (js "signatures") with
  | none | some .null => .obj []
  | some v => v

/-- The verdict on the operator's signature. -/
def operatorVerdict (ed : Ed25519) (sigs : Json) (canonicalBytes : List UInt8) (opPub : Str) :
    Except SigThrow Bool :=
  match sigs.read (js "operator_sig") with
  | some (.str sig) =>
    if opPub ≠ [] then operatorSigPresent ed canonicalBytes (hexToB64 sig) opPub else pure false
  | _ => pure false

/-- The verdict on the owner's signature, from an envelope only. -/
def ownerVerdict (ed : Ed25519) (sigs : Json) (canonicalBytes : List UInt8) (ownerPub : Str) :
    Except SigThrow Bool :=
  match sigs.read (js "owner_sig") with
  | some ow =>
    if ownerPub ≠ [] && isObjectType ow then do
      let env ← ownerEnvelope ow canonicalBytes
      ownerSigPresent ed env ownerPub
    else pure false
  | none => pure false

def verifyIngress (H : Host) (ed : Ed25519) (cal : Json) (agent : AgentKeys) :
    Except SigThrow IngressVerdict := do
  let canonicalBytes ← liftHost (canonicalUnsignedBytes H cal)
  let sigs := signaturesOf cal
  let operator ← operatorVerdict ed sigs canonicalBytes (strip0x (agent.operator_pubkey.getD []))
  let owner ← ownerVerdict ed sigs canonicalBytes (strip0x (agent.owner_pubkey.getD []))
  pure ⟨operator, owner⟩

/-! ## The signatures of an accepted CAL -/

/-- The fields of an envelope that the schema accepts. -/
structure EnvelopeFields (o : List (Str × Json)) : Prop where
  signature : ∃ s, (Json.obj o).read (js "signature") = some (.str s)
  address : ∃ s, (Json.obj o).read (js "address_hash") = some (.str s) ∧ isBytes32 s = true
  domain : ∃ s, (Json.obj o).read (js "domain") = some (.str s)
  timestamp : ∃ n, (Json.obj o).read (js "timestamp") = some (.int n) ∧ 0 ≤ n ∧ n ≤ 2 ^ 64 - 1
  workchain : ∃ n, (Json.obj o).read (js "workchain") = some (.int n) ∧
    -2 ^ 31 ≤ n ∧ n ≤ 2 ^ 31 - 1

/-- An accepted CAL has an operator's signature, and may have one of the owner, as a text or in an
envelope. -/
structure AcceptedSignatures (cal : Json) : Prop where
  operator : ∃ s, (signaturesOf cal).read (js "operator_sig") = some (.str s)
  owner : (signaturesOf cal).read (js "owner_sig") = none ∨
    (∃ s, (signaturesOf cal).read (js "owner_sig") = some (.str s)) ∨
    ∃ o, (signaturesOf cal).read (js "owner_sig") = some (.obj o) ∧ EnvelopeFields o

theorem requireStr_eq_ok {v : Option Json} {shape : Str → Bool} {code : String} {detail : Str}
    {u : Unit} (h : requireStr v shape code detail = .ok u) : ∃ s, v = some (.str s) ∧ shape s = true := by
  unfold requireStr at h
  split at h
  · next s => exact ⟨s, rfl, require_eq_ok.mp h⟩
  · cases h

theorem requireWorkchain_eq_ok {v : Option Json} {u : Unit} (h : requireWorkchain v = .ok u) :
    ∃ n, v = some (.int n) ∧ -2 ^ 31 ≤ n ∧ n ≤ 2 ^ 31 - 1 := by
  unfold requireWorkchain at h
  split at h
  · next n => exact ⟨n, rfl, require_eq_ok.mp h⟩
  · cases h

/-- A value with a member under a name that no object inherits is an object with members. -/
theorem obj_of_read {v x : Json} {k : Str} (hk : k ∉ inheritedNames) (h : v.read k = some x) :
    ∃ m, v = .obj m := by
  cases v with
  | obj m => exact ⟨m, rfl⟩
  | builtin n =>
    have hproto : k ≠ js "__proto__" := by
      rintro rfl
      exact hk (by simp [inheritedNames])
    simp [Json.read, hproto, inherited, hk] at h
  | _ => cases h

theorem validateOwnerEnvelope_eq_ok {v : Json} {u : Unit} (h : validateOwnerEnvelope v = .ok u) :
    ∃ o, v = .obj o ∧ EnvelopeFields o := by
  simp only [validateOwnerEnvelope, bind_eq_ok] at h
  obtain ⟨env, henv, -, -, -, -, _, hsig, _, haddress, _, hdomain, t, htimestamp, hworkchain⟩ := h
  obtain ⟨heq, -⟩ := asObject_eq_ok henv
  cases heq
  obtain ⟨s, hs, -⟩ := requireStr_eq_ok hsig
  obtain ⟨a, ha, hbytes⟩ := requireStr_eq_ok haddress
  obtain ⟨d, hd, -⟩ := requireStr_eq_ok hdomain
  obtain ⟨o, rfl⟩ := obj_of_read (by simp [inheritedNames]) hs
  exact ⟨o, rfl, ⟨s, hs⟩, ⟨a, ha, hbytes⟩, ⟨d, hd⟩, ⟨t, requireUint_eq_ok htimestamp⟩,
    requireWorkchain_eq_ok hworkchain⟩

theorem validateCal_signatures {input cal : Json} (h : validateCal input = .ok cal) :
    AcceptedSignatures cal := by
  simp only [validateCal, bind_eq_ok, pure_eq_ok] at h
  obtain ⟨v, -, o, ho, -, -, -, -, -, -, -, -, -, -, -, -, -, -, -, -, -, -, -, -, -, -, _, hsigs,
    -, -, -, -, rfl⟩ := h
  simp only [validateSignatures, bind_eq_ok] at hsigs
  obtain ⟨sigs, hobj, -, -, _, hrequired, _, hoperator, -, -, howner⟩ := hsigs
  obtain ⟨hread, -⟩ := asObject_eq_ok hobj
  have hsome : (sigs.read (js "operator_sig")).isSome = true := by
    unfold requireFields at hrequired
    split at hrequired
    · cases hrequired
    · next hfind =>
      have := List.find?_eq_none.mp hfind (js "operator_sig") (List.mem_singleton_self _)
      simpa [Option.isSome_iff_ne_none] using this
  rw [checkOptionalSig, if_pos hsome] at hoperator
  obtain ⟨s, hs, -⟩ := requireStr_eq_ok hoperator
  obtain ⟨m, rfl⟩ := obj_of_read (by simp [inheritedNames]) hs
  have hsignatures : signaturesOf o = .obj m := by rw [signaturesOf, hread]
  refine ⟨⟨s, by rw [hsignatures, hs]⟩, ?_⟩
  rw [hsignatures]
  unfold validateOwnerSig at howner
  split at howner
  · next hnone => exact .inl hnone
  · next t ht => exact .inr (.inl ⟨t, ht⟩)
  · next w _ hw =>
    obtain ⟨o', rfl, hfields⟩ := validateOwnerEnvelope_eq_ok howner
    exact .inr (.inr ⟨o', hw, hfields⟩)

/-! ## What the verdicts are about -/

/-- The operator's signature in a CAL. -/
def operatorSig (cal : Json) : Str := asStr ((signaturesOf cal).read (js "operator_sig"))

/-- The owner's envelope in a CAL, if there is one. -/
def envelopeOf (cal : Json) (canonicalBytes : List UInt8) : Option OwnerCoSignature :=
  match (signaturesOf cal).read (js "owner_sig") with
  | some (.obj o) => (ownerEnvelope (.obj o) canonicalBytes).toOption
  | _ => none

/-- The envelope of an accepted CAL. -/
theorem EnvelopeFields.ownerEnvelope {o : List (Str × Json)} (h : EnvelopeFields o)
    (b : List UInt8) : ∃ env, ownerEnvelope (.obj o) b = .ok env ∧
      Carried env (lenientDecode env.signatureB64) := by
  obtain ⟨s, hs⟩ := h.signature
  obtain ⟨a, ha, hbytes⟩ := h.address
  obtain ⟨d, hd⟩ := h.domain
  obtain ⟨t, ht, htimestamp⟩ := h.timestamp
  obtain ⟨w, hw, hworkchain⟩ := h.workchain
  have haddress : (strip0x a).all isHexDigit = true ∧ (strip0x a).length = 64 := by
    unfold isBytes32 at hbytes
    split at hbytes
    · next a =>
      rw [Bool.and_eq_true, beq_iff_eq] at hbytes
      exact hbytes
    · cases hbytes
  simp only [ParadigmTerra.ownerEnvelope, ha, hd, hs, ht, hw, stringOfOpt, stringOf]
  refine ⟨_, rfl, hworkchain, htimestamp, haddress, ⟨b, rfl⟩, ?_⟩
  simp only [hexToB64, lenientDecode_encode]

/-- The verdicts of the other implementation, on the fields of a CAL. -/
def goVerdicts (ed : Ed25519) (cal : Json) (canonicalBytes : List UInt8) (opPub ownerPub : Str) :
    IngressVerdict where
  operatorSigPresent := goOperatorSigPresent ed canonicalBytes (hexToB64 (operatorSig cal)) opPub
  ownerSigPresent :=
    match envelopeOf cal canonicalBytes with
    | some env => goOwnerSigPresent ed env ownerPub
    | none => false

section Ingress

variable {H : Host} {ed : Ed25519} {cal : Json}

theorem envelopeOf_carried (h : AcceptedSignatures cal) {b : List UInt8} {env : OwnerCoSignature}
    (henv : envelopeOf cal b = some env) : Carried env (lenientDecode env.signatureB64) := by
  unfold envelopeOf at henv
  rcases h.owner with howner | ⟨s, howner⟩ | ⟨o, howner, hfields⟩
  · rw [howner] at henv
    cases henv
  · rw [howner] at henv
    cases henv
  · obtain ⟨env', henv', hcarried⟩ := hfields.ownerEnvelope b
    rw [howner] at henv
    simp only [henv'] at henv
    cases henv
    exact hcarried

theorem operatorVerdict_iff (h : AcceptedSignatures cal) (b : List UInt8) (key : Str) :
    operatorVerdict ed (signaturesOf cal) b key =
        .ok (goOperatorSigPresent ed b (hexToB64 (operatorSig cal)) key) ↔
      KeyFine ed key b (bufferOfHex (strip0x (operatorSig cal))) := by
  obtain ⟨s, hs⟩ := h.operator
  have hsig : operatorSig cal = s := by rw [operatorSig, hs]; rfl
  rw [← operatorSigPresent_iff, operatorVerdict, hs, hsig, hexToB64]
  simp only
  split
  · rfl
  · next hnil =>
    obtain rfl := not_not.mp hnil
    rfl

theorem ownerVerdict_iff (h : AcceptedSignatures cal) (b : List UInt8) (key : Str) :
    ownerVerdict ed (signaturesOf cal) b key =
        .ok (match envelopeOf cal b with
          | some env => goOwnerSigPresent ed env key
          | none => false) ↔
      ∀ env, envelopeOf cal b = some env →
        KeyFine ed key (commitOf env) (lenientDecode env.signatureB64) := by
  unfold ownerVerdict envelopeOf
  rcases h.owner with howner | ⟨s, howner⟩ | ⟨o, howner, hfields⟩
  · simp [howner]
  · simp [howner, isObjectType, Json.isPlainObject]
  · obtain ⟨env, henv, hcarried⟩ := hfields.ownerEnvelope b
    rw [howner]
    simp only [henv, Except.toOption, Option.some.injEq, forall_eq', isObjectType,
      Json.isPlainObject, Bool.and_true, decide_eq_true_eq, ok_bind]
    rw [← ownerSigPresent_iff hcarried]
    split
    · rfl
    · next hnil =>
      obtain rfl := not_not.mp hnil
      rfl

/-- The verdicts are those of the other implementation exactly if the CAL has canonical bytes and both
keys are fine. -/
theorem verifyIngress_iff (h : AcceptedSignatures cal) (agent : AgentKeys) :
    (∃ b, canonicalUnsignedBytes H cal = .ok b ∧ verifyIngress H ed cal agent =
        .ok (goVerdicts ed cal b (strip0x (agent.operator_pubkey.getD []))
          (strip0x (agent.owner_pubkey.getD [])))) ↔
      ∃ b, canonicalUnsignedBytes H cal = .ok b ∧
        KeyFine ed (strip0x (agent.operator_pubkey.getD [])) b
          (bufferOfHex (strip0x (operatorSig cal))) ∧
        ∀ env, envelopeOf cal b = some env →
          KeyFine ed (strip0x (agent.owner_pubkey.getD [])) (commitOf env)
            (lenientDecode env.signatureB64) := by
  refine exists_congr fun b => and_congr_right fun hb => ?_
  rw [← operatorVerdict_iff h, ← ownerVerdict_iff h]
  have hlift : liftHost (canonicalUnsignedBytes H cal) = .ok b := liftHost_eq_ok.mpr hb
  simp only [verifyIngress, hlift, ok_bind, bind_eq_ok, pure_eq_ok, goVerdicts,
    IngressVerdict.mk.injEq]
  constructor
  · rintro ⟨o, ho, w, hw, rfl, rfl⟩
    exact ⟨ho, hw⟩
  · rintro ⟨ho, hw⟩
    exact ⟨_, ho, _, hw, rfl, rfl⟩

end Ingress

/-- The scenario's CAL, with an empty signature of its operator. -/
def ingressCal : Json := Escape.calOf (js "oracles.submit_feed") (js "oracles.submit_feed")

theorem validateCal_ingressCal : validateCal ingressCal = .ok ingressCal :=
  validateCal_of_isOk (by decide +kernel)

end ParadigmTerra
