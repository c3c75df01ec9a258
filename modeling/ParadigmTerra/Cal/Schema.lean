import ParadigmTerra.Canonical.Hash
import ParadigmTerra.Dsl.Parse

/-!
# The wire format of a CAL

`validateCal` checks what can be decided from the blob alone: the fields and their types, the action
and the verbs of the steps, and that every embedded expression parses at its scope. `calHash` and
`eventHash` are the canonical hashes.

`validateCal_spec` collects what the layers above use of an accepted CAL: its action is registered,
every step carries a registered verb of the action's namespace, and the integers are in range.
-/

namespace ParadigmTerra

open Text Fallible

def CAL_VERSION : Str := js "0.1.0"
def UINT64_MAX : ℤ := 2 ^ 64 - 1

def TOP_LEVEL_KEYS : List Str := [
  js "cal_version", js "action", js "agent_id", js "nonce", js "expiration_tick",
  js "preconditions", js "invariants", js "steps", js "receipt_required", js "signatures",
  js "compatibility_pragma", js "gas_limit_ptra"]

/-- The fields that every CAL has. -/
def REQUIRED_FIELDS : List Str := TOP_LEVEL_KEYS.take 10

def STEP_KEYS : List Str := [js "verb", js "params", js "post_conditions"]

def SIG_KEYS : List Str := [js "operator_sig", js "owner_sig", js "sponsor_sig"]

def OWNER_ENVELOPE_KEYS : List Str := [
  js "signature", js "domain", js "timestamp", js "workchain", js "address_hash"]

def calError {α : Type} (code : String) (detail : Option Str) : Except Throw α :=
  throw (.cal code detail)

def asObject (v : Option Json) (code : String) : Except Throw Json :=
  match v with
  | some j => if j.isPlainObject then pure j else calError code none
  | none => calError code none

def requireUint (v : Option Json) (max : ℤ) (code : String) : Except Throw ℤ :=
  match v with
  | some (.int n) => if 0 ≤ n ∧ n ≤ max then pure n else calError code none
  | _ => calError code none

def checkUnexpected (o : Json) (allowed : List Str) (code : String) : Except Throw Unit :=
  match o.members.find? (fun e => e.1 ∉ allowed) with
  | some e => calError code (some e.1)
  | none => pure ()

/-- The first field of the list that is missing. -/
def requireFields (o : Json) (fields : List Str) (where_ : Str) : Except Throw Unit :=
  match fields.find? (fun f => (o.read f).isNone) with
  | some f => calError "MISSING_FIELD" (some (where_ ++ f))
  | none => pure ()

/-- The text of a phase. -/
def Phase.text : Phase → String
  | .PARSE_ERROR => "PARSE_ERROR"
  | .VALIDATION_ERROR => "VALIDATION_ERROR"
  | .ERROR => "ERROR"

/-- Checks one embedded expression, bare or enveloped. A fault of the envelope is thrown on. -/
def validateEmbeddedDsl (node : Json) (scope : Scope) (where_ : Str) : Except Throw Unit := do
  let env ← openEnvelope node
  match parseExpression env.expr ⟨scope, env.version⟩ with
  | .ok _ => pure ()
  | .error (.dsl p reason) =>
    calError "DSL_INVALID" (some (where_ ++ js ": " ++ js p.text ++ js "/" ++ js reason))
  | .error e => throw e

/-- `xs.forEach((x, i) => f(i, x))`, from the index `i` on. -/
def forEachFrom (f : ℕ → Json → Except Throw Unit) : ℕ → List Json → Except Throw Unit
  | _, [] => pure ()
  | i, x :: xs => do
    f i x
    forEachFrom f (i + 1) xs

/-- `name[i]`. -/
def indexed (name : Str) (i : ℕ) : Str := name ++ js "[" ++ decimalNat i ++ js "]"

/-- A string of a shape. -/
def requireStr (v : Option Json) (shape : Str → Bool) (code : String) (detail : Str) :
    Except Throw Unit :=
  match v with
  | some (.str s) => require (shape s = true) (.cal code (some detail))
  | _ => calError code (some detail)

/-- A signature of hex bytes that may be absent. -/
def checkOptionalSig (o : Json) (k : String) : Except Throw Unit :=
  if (o.read (js k)).isSome then
    requireStr (o.read (js k)) isHexBytes "BAD_SIG_BYTES" (js "signatures." ++ js k)
  else pure ()

/-- The workchain of an owner envelope, an int32. -/
def requireWorkchain (v : Option Json) : Except Throw Unit :=
  match v with
  | some (.int wc) =>
    require (-2 ^ 31 ≤ wc ∧ wc ≤ 2 ^ 31 - 1)
      (.cal "BAD_OWNER_ENVELOPE" (some (js "signatures.owner_sig.workchain (int32)")))
  | _ => calError "BAD_OWNER_ENVELOPE" (some (js "signatures.owner_sig.workchain (int32)"))

/-- The owner's co-signature as an envelope. -/
def validateOwnerEnvelope (v : Json) : Except Throw Unit := do
  let env ← asObject (some v) "BAD_OWNER_ENVELOPE"
  checkUnexpected env OWNER_ENVELOPE_KEYS "UNEXPECTED_OWNER_ENVELOPE_FIELD"
  requireFields env OWNER_ENVELOPE_KEYS (js "signatures.owner_sig.")
  requireStr (env.read (js "signature")) isHexBytes "BAD_SIG_BYTES"
    (js "signatures.owner_sig.signature")
  requireStr (env.read (js "address_hash")) isBytes32 "BAD_OWNER_ENVELOPE"
    (js "signatures.owner_sig.address_hash (expect 0x + 32 bytes)")
  requireStr (env.read (js "domain")) (fun d => !d.isEmpty) "BAD_OWNER_ENVELOPE"
    (js "signatures.owner_sig.domain")
  let _ ← requireUint (env.read (js "timestamp")) UINT64_MAX "BAD_OWNER_ENVELOPE"
  requireWorkchain (env.read (js "workchain"))

/-- The owner's co-signature: hex bytes, or an envelope. -/
def validateOwnerSig (v : Option Json) : Except Throw Unit :=
  match v with
  | none => pure ()
  | some (.str s) =>
    require (isHexBytes s = true) (.cal "BAD_SIG_BYTES" (some (js "signatures.owner_sig")))
  | some v => validateOwnerEnvelope v

def validateSignatures (sig : Option Json) : Except Throw Unit := do
  let o ← asObject sig "BAD_SIGNATURES"
  checkUnexpected o SIG_KEYS "UNEXPECTED_SIG_FIELD"
  requireFields o [js "operator_sig"] (js "signatures.")
  checkOptionalSig o "operator_sig"
  checkOptionalSig o "sponsor_sig"
  validateOwnerSig (o.read (js "owner_sig"))

/-- The part of an action before its first dot. -/
def namespaceOf (action : Str) : Str := (splitOn 0x2E action).headD []

def validatePostConditions (step : Json) (where_ : Str) : Except Throw Unit :=
  match step.read (js "post_conditions") with
  | none => pure ()
  | some (.arr pcs) =>
    forEachFrom (fun i pc => validateEmbeddedDsl pc .post_condition
      (indexed (where_ ++ js ".post_conditions") i)) 0 pcs
  | some _ => calError "POSTCONDITIONS_NOT_LIST" (some where_)

def validateStep (ns : Str) (where_ : Str) (step : Json) : Except Throw Unit := do
  let o ← asObject (some step) "BAD_STEP"
  checkUnexpected o STEP_KEYS "UNEXPECTED_STEP_FIELD"
  match o.read (js "verb") with
  | some (.str verb) => do
    require (isRegisteredAction verb = true) (.cal "UNKNOWN_VERB" (some verb))
    require (namespaceOf verb = ns)
      (.cal "VERB_NAMESPACE_MISMATCH" (some (verb ++ js " not in " ++ ns ++ js ".*")))
    let _ ← asObject (o.read (js "params")) "BAD_PARAMS"
    validatePostConditions o where_
  | _ => calError "BAD_STEP" (some (where_ ++ js ".verb"))

/-- The action of a CAL. -/
def validateAction (cal : Json) : Except Throw Str :=
  match cal.read (js "action") with
  | some (.str action) =>
    if isRegisteredAction action then pure action else calError "UNKNOWN_ACTION" (some action)
  | v => do
    let s ← stringOfOpt v
    calError "UNKNOWN_ACTION" (some s)

def validateAgentId (cal : Json) : Except Throw Unit :=
  match cal.read (js "agent_id") with
  | some (.str a) => require (isCanonicalAddress a = true) (.cal "BAD_AGENT_ID" none)
  | _ => calError "BAD_AGENT_ID" none

/-- A member that equals a fixed string. -/
def requireText (cal : Json) (k : String) (text : Str) (code : String) : Except Throw Unit :=
  if isStr (cal.read (js k)) text then pure ()
  else do
    let s ← stringOfOpt (cal.read (js k))
    calError code (some s)

def validateInvariants (cal : Json) : Except Throw Unit :=
  match cal.read (js "invariants") with
  | some (.arr invariants) =>
    forEachFrom (fun i inv => validateEmbeddedDsl inv .invariant (indexed (js "invariants") i)) 0
      invariants
  | _ => calError "INVARIANTS_NOT_LIST" none

def validateSteps (cal : Json) (ns : Str) : Except Throw Unit :=
  match cal.read (js "steps") with
  | some (.arr []) => calError "EMPTY_STEPS" none
  | some (.arr steps) =>
    forEachFrom (fun i s => validateStep ns (indexed (js "steps") i) s) 0 steps
  | _ => calError "STEPS_NOT_LIST" none

def validateReceiptRequired (cal : Json) : Except Throw Unit :=
  match cal.read (js "receipt_required") with
  | some (.bool _) => pure ()
  | _ => calError "BAD_RECEIPT_REQUIRED" none

def validatePragma (cal : Json) : Except Throw Unit :=
  if (cal.read (js "compatibility_pragma")).isSome then
    requireText cal "compatibility_pragma" (js "v0.9.5") "BAD_PRAGMA"
  else pure ()

def validateGasLimit (cal : Json) : Except Throw Unit :=
  if (cal.read (js "gas_limit_ptra")).isSome then do
    let _ ← requireUint (cal.read (js "gas_limit_ptra")) UINT256_MAX "BAD_GAS_LIMIT"
    pure ()
  else pure ()

/-- Validates a CAL, a value or the canonical text of one, and returns its object. -/
def validateCal (input : Json) : Except Throw Json := do
  let v ← parsedInput input
  let cal ← asObject (some v) "NOT_OBJECT"
  checkUnexpected cal TOP_LEVEL_KEYS "UNEXPECTED_FIELD"
  requireFields cal REQUIRED_FIELDS []
  requireText cal "cal_version" CAL_VERSION "BAD_CAL_VERSION"
  let action ← validateAction cal
  validateAgentId cal
  let _ ← requireUint (cal.read (js "nonce")) UINT64_MAX "BAD_NONCE"
  let _ ← requireUint (cal.read (js "expiration_tick")) UINT64_MAX "BAD_EXPIRATION"
  validateEmbeddedDsl ((cal.read (js "preconditions")).getD .null) .precondition (js "preconditions")
  validateInvariants cal
  validateSteps cal (namespaceOf action)
  validateReceiptRequired cal
  validateSignatures (cal.read (js "signatures"))
  validatePragma cal
  validateGasLimit cal
  pure cal

/-! ## Accepted CALs -/

/-- The verbs of the steps. -/
def stepVerbs (cal : Json) : List Str :=
  (listOf (getIn cal [js "steps"])).filterMap fun step =>
    match getIn step [js "verb"] with
    | some (.str verb) => some verb
    | _ => none

/-- What holds of a CAL that `validateCal` accepts. -/
structure AcceptedCal (cal : Json) : Prop where
  plain : ∃ m, cal = .obj m
  action : ∃ a, getIn cal [js "action"] = some (.str a) ∧ isRegisteredAction a = true ∧
    ∀ verb ∈ stepVerbs cal, isRegisteredAction verb = true ∧ namespaceOf verb = namespaceOf a
  agent : ∃ a, getIn cal [js "agent_id"] = some (.str a) ∧ isCanonicalAddress a = true
  nonce : ∃ n, getIn cal [js "nonce"] = some (.int n) ∧ 0 ≤ n ∧ n ≤ UINT64_MAX
  expiration : ∃ n, getIn cal [js "expiration_tick"] = some (.int n) ∧ 0 ≤ n ∧ n ≤ UINT64_MAX
  gasLimit : ∀ x, getIn cal [js "gas_limit_ptra"] = some x → ∃ n, x = .int n ∧ 0 ≤ n

theorem asObject_eq_ok {v : Option Json} {code : String} {o : Json} (h : asObject v code = .ok o) :
    v = some o ∧ o.isPlainObject = true := by
  unfold asObject at h
  split at h
  · split at h
    · next hp =>
      cases h
      exact ⟨rfl, hp⟩
    · cases h
  · cases h

theorem requireUint_eq_ok {v : Option Json} {max n : ℤ} {code : String}
    (h : requireUint v max code = .ok n) : v = some (.int n) ∧ 0 ≤ n ∧ n ≤ max := by
  unfold requireUint at h
  split at h
  · split at h
    · next hn =>
      cases h
      exact ⟨rfl, hn⟩
    · cases h
  · cases h

theorem validateAction_eq_ok {cal : Json} {a : Str} (h : validateAction cal = .ok a) :
    cal.read (js "action") = some (.str a) ∧ isRegisteredAction a = true := by
  unfold validateAction at h
  split at h
  · next heq =>
    split at h
    · next hr =>
      cases h
      exact ⟨heq, hr⟩
    · cases h
  · simp [calError] at h

theorem validateAgentId_eq_ok {cal : Json} {u : Unit} (h : validateAgentId cal = .ok u) :
    ∃ a, cal.read (js "agent_id") = some (.str a) ∧ isCanonicalAddress a = true := by
  unfold validateAgentId at h
  split at h
  · next a heq => exact ⟨a, heq, require_eq_ok.mp h⟩
  · cases h

theorem validateGasLimit_eq_ok {cal : Json} {u : Unit} (h : validateGasLimit cal = .ok u) {x : Json}
    (hx : cal.read (js "gas_limit_ptra") = some x) : ∃ n, x = .int n ∧ 0 ≤ n := by
  simp only [validateGasLimit, hx, Option.isSome_some, if_true, bind_eq_ok] at h
  obtain ⟨n, hn, -⟩ := h
  obtain ⟨heq, hn, -⟩ := requireUint_eq_ok hn
  exact ⟨n, Option.some.inj heq, hn⟩

/-- The verb of an accepted step. -/
theorem validateStep_eq_ok {ns where_ : Str} {step : Json} {u : Unit}
    (h : validateStep ns where_ step = .ok u) :
    ∃ verb, getIn step [js "verb"] = some (.str verb) ∧ isRegisteredAction verb = true ∧
      namespaceOf verb = ns := by
  simp only [validateStep, bind_eq_ok] at h
  obtain ⟨o, ho, -, -, h⟩ := h
  obtain ⟨heq, hplain⟩ := asObject_eq_ok ho
  cases heq
  split at h
  · next verb hverb =>
    simp only [bind_eq_ok, require_eq_ok] at h
    obtain ⟨-, hreg, -, hns, -⟩ := h
    exact ⟨verb, by rw [getIn_singleton hplain, hverb], hreg, hns⟩
  · cases h

theorem forEachFrom_eq_ok {f : ℕ → Json → Except Throw Unit} {i : ℕ} {xs : List Json} {u : Unit}
    (h : forEachFrom f i xs = .ok u) {x : Json} (hx : x ∈ xs) : ∃ j v, f j x = .ok v := by
  induction xs generalizing i with
  | nil => cases hx
  | cons y ys ih =>
    simp only [forEachFrom, bind_eq_ok] at h
    obtain ⟨v, hv, h⟩ := h
    rcases List.mem_cons.mp hx with rfl | hx
    · exact ⟨i, v, hv⟩
    · exact ih h hx

theorem validateSteps_eq_ok {cal : Json} {ns : Str} {u : Unit} (hplain : cal.isPlainObject = true)
    (h : validateSteps cal ns = .ok u) {verb : Str} (hverb : verb ∈ stepVerbs cal) :
    isRegisteredAction verb = true ∧ namespaceOf verb = ns := by
  obtain ⟨step, hstep, hv⟩ := List.mem_filterMap.mp hverb
  rw [getIn_singleton hplain] at hstep
  unfold validateSteps at h
  split at h
  · cases h
  · next steps _ heq =>
    rw [heq] at hstep
    obtain ⟨i, v, hi⟩ := forEachFrom_eq_ok h hstep
    obtain ⟨verb', hverb', hreg, hns⟩ := validateStep_eq_ok hi
    rw [hverb'] at hv
    cases hv
    exact ⟨hreg, hns⟩
  · cases h

/-- A value that is no object has no member that is required of a CAL. -/
theorem plain_of_action {cal : Json} {a : Str} (h : cal.read (js "action") = some (.str a)) :
    ∃ m, cal = .obj m := by
  cases cal with
  | obj m => exact ⟨m, rfl⟩
  | builtin k => simp [Json.read, inherited, inheritedNames] at h
  | _ => cases h

theorem validateCal_spec {input cal : Json} (h : validateCal input = .ok cal) : AcceptedCal cal := by
  simp only [validateCal, bind_eq_ok, pure_eq_ok] at h
  obtain ⟨v, -, o, ho, -, -, -, -, -, -, action, haction, _, hagent, n, hn, e, he, -, -, -, -, _,
    hsteps, -, -, -, -, -, -, _, hgas, rfl⟩ := h
  have hplain := (asObject_eq_ok ho).2
  obtain ⟨ha, hreg⟩ := validateAction_eq_ok haction
  obtain ⟨agent, hagent, hcanon⟩ := validateAgentId_eq_ok hagent
  obtain ⟨hn, hnonce⟩ := requireUint_eq_ok hn
  obtain ⟨he, hexpiration⟩ := requireUint_eq_ok he
  refine ⟨plain_of_action ha, ⟨action, ?_, hreg, fun verb => validateSteps_eq_ok hplain hsteps⟩,
    ⟨agent, ?_, hcanon⟩, ⟨n, ?_, hnonce⟩, ⟨e, ?_, hexpiration⟩, fun x hx => ?_⟩
  · rw [getIn_singleton hplain, ha]
  · rw [getIn_singleton hplain, hagent]
  · rw [getIn_singleton hplain, hn]
  · rw [getIn_singleton hplain, he]
  · rw [getIn_singleton hplain] at hx
    exact validateGasLimit_eq_ok hgas hx

/-- An object is accepted as it is. -/
theorem validateCal_obj {m : List (Str × Json)} {cal : Json} (h : validateCal (.obj m) = .ok cal) :
    cal = .obj m := by
  simp only [validateCal, parsedInput, bind_eq_ok, pure_eq_ok] at h
  obtain ⟨v, rfl, o, ho, h⟩ := h
  obtain ⟨-, -, -, -, -, -, -, -, -, -, -, -, -, -, -, -, -, -, -, -, -, -, -, -, -, -, -, -, rfl⟩ := h
  exact (Option.some.inj (asObject_eq_ok ho).1).symm

theorem validateCal_of_isOk {m : List (Str × Json)} (h : (validateCal (.obj m)).isOk = true) :
    validateCal (.obj m) = .ok (.obj m) := by
  cases hval : validateCal (.obj m) with
  | error e => rw [hval] at h; cases h
  | ok cal => rw [validateCal_obj hval]

/-! ## Hashes -/

/-- The canonical bytes of a CAL without its signatures. -/
def canonicalUnsignedBytes (H : Host) (cal : Json) : Except Throw (List UInt8) := do
  require (cal.isPlainObject = true) (.cal "NOT_OBJECT" none)
  let rest := (cal.members.filter fun e => e.1 ≠ js "signatures").foldl
    (fun out e => assignMember e.1 e.2 out) []
  canonicalizeValue H (some (.obj rest))

def calHash (H : Host) (cal : Json) : Except Throw (List UInt8) := do
  let b ← canonicalUnsignedBytes H cal
  pure (domainHash .CAL_V1 b)

def eventHash (H : Host) (event : Json) : Except Throw (List UInt8) := do
  let b ← canonicalizeValue H (some event)
  pure (domainHash .EVENT_V1 b)

end ParadigmTerra
