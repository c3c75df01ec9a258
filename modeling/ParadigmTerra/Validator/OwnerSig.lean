import ParadigmTerra.Cal.Schema
import ParadigmTerra.Canonical.Numerals
import ParadigmTerra.Text.Base64

/-!
# Verdicts on signatures

The node verifies the signatures of a CAL before it is validated, in two implementations: one decodes
hex and base64 leniently and throws on a key that is not 32 bytes long, the other decodes strictly and
reports false. `KeyFine` is the condition on a key under which the verdicts of both are the same
(`operatorSigPresent_iff`, `ownerSigPresent_iff`), and `OwnersFine` the one on a list of owners under
which the search for the owner that signed finds it (`findOwner_iff`).

The predicate of the curve, on keys of 32 bytes and signatures of 64, is a parameter, the same for both.
-/

namespace ParadigmTerra

open Text Fallible

/-- The predicate of the curve: of a key, a message and a signature. -/
abbrev Ed25519 := List UInt8 → List UInt8 → List UInt8 → Bool

/-- What the verification of a signature can throw: on a key, or what the other layers throw. -/
inductive SigThrow
  | malformedKey
  | host (t : Throw)
  deriving DecidableEq

/-! ## Hex -/

/-- `Buffer.from(s, "hex")`: the pairs of digits up to what is none. -/
def bufferOfHex : Str → List UInt8
  | a :: b :: s =>
    if isHexDigit a && isHexDigit b then UInt8.ofNat (hexValue a * 16 + hexValue b) :: bufferOfHex s
    else []
  | _ => []

/-- `hex.DecodeString(s)`: all of the text, or an error. -/
def hexDecodeString : Str → Option (List UInt8)
  | [] => some []
  | [_] => none
  | a :: b :: s =>
    if isHexDigit a && isHexDigit b then
      (hexDecodeString s).map (UInt8.ofNat (hexValue a * 16 + hexValue b) :: ·)
    else none

/-- The hex digits behind `0x`. -/
def strip0x : Str → Str
  | 48 :: 120 :: h => h
  | h => h

def hexToB64 (h : Str) : Str := base64Encode (bufferOfHex (strip0x h))

/-! ## The curve -/

section Model

variable (ed : Ed25519)

/-- `createPublicKey` on a raw key, which throws unless it has 32 bytes. -/
def ed25519PublicKey (pubkeyHex : Str) : Except SigThrow (List UInt8) :=
  if (bufferOfHex pubkeyHex).length = 32 then pure (bufferOfHex pubkeyHex) else throw .malformedKey

/-- `crypto.verify`, false on a signature of another length. -/
def cryptoVerify (key message signature : List UInt8) : Bool :=
  decide (signature.length = 64) && ed key message signature

/-! ## Contract A -/

inductive SignDataPayload
  | text (text : Str)
  | binary (bytesB64 : Str)

structure SignDataInput where
  workchain : ℤ
  addressHashHex : Str
  domain : Str
  timestamp : ℤ
  payload : SignDataPayload

/-- The parts of the message that the wallet signs. -/
def signDataMessage (workchain : ℤ) (addressHash domain : List UInt8) (timestamp : ℤ)
    (tag : String) (payload : List UInt8) : List UInt8 :=
  [0xff, 0xff] ++ utf8Encode (js "ton-connect/sign-data/") ++
    bytesBe 4 (workchain % 2 ^ 32).toNat ++ addressHash ++ bytesBe 4 domain.length ++ domain ++
    bytesBe 8 timestamp.toNat ++ utf8Encode (js tag) ++ bytesBe 4 payload.length ++ payload

/-- The commit of `signData`. The integers are written into fields of four and eight bytes, which
throws if they do not fit. -/
def signDataDigest (input : SignDataInput) : Except SigThrow (List UInt8) := do
  let (tag, payload) := match input.payload with
    | .text text => ("txt", utf8Encode text)
    | .binary bytesB64 => ("bin", lenientDecode bytesB64)
  require (-2 ^ 31 ≤ input.workchain ∧ input.workchain ≤ 2 ^ 31 - 1) (.host .rangeError)
  require (0 ≤ input.timestamp ∧ input.timestamp ≤ 2 ^ 64 - 1) (.host .rangeError)
  pure (sha256 (signDataMessage input.workchain (bufferOfHex input.addressHashHex)
    (utf8Encode input.domain) input.timestamp tag payload))

def ed25519Verify (digest : List UInt8) (signatureB64 pubkeyHex : Str) : Except SigThrow Bool := do
  let key ← ed25519PublicKey pubkeyHex
  pure (cryptoVerify ed key digest (lenientDecode signatureB64))

def verifySignData (input : SignDataInput) (signatureB64 pubkeyHex : Str) :
    Except SigThrow Bool := do
  let digest ← signDataDigest input
  ed25519Verify ed digest signatureB64 pubkeyHex

/-! ## The verdicts of a CAL -/

/-- The raw signature of the agent's operator. -/
def operatorSigPresent (calCanonicalBytes : List UInt8) (operatorSigB64 operatorPubkeyHex : Str) :
    Except SigThrow Bool :=
  if operatorPubkeyHex = [] then pure false
  else do
    let key ← ed25519PublicKey operatorPubkeyHex
    pure (cryptoVerify ed key calCanonicalBytes (lenientDecode operatorSigB64))

/-- The envelope of an owner's co-signature. -/
structure OwnerCoSignature where
  calCanonicalBytesB64 : Str
  workchain : ℤ
  addressHashHex : Str
  domain : Str
  timestamp : ℤ
  signatureB64 : Str

/-- The commit that the envelope is rebuilt to. -/
def OwnerCoSignature.input (env : OwnerCoSignature) : SignDataInput :=
  ⟨env.workchain, env.addressHashHex, env.domain, env.timestamp, .binary env.calCanonicalBytesB64⟩

def ownerSigPresent (env : OwnerCoSignature) (ownerPubkeyHex : Str) : Except SigThrow Bool :=
  if ownerPubkeyHex = [] then pure false
  else verifySignData ed env.input env.signatureB64 ownerPubkeyHex

/-- The first owner against whom the envelope verifies. -/
def findOwner (env : OwnerCoSignature) : List Str → Except SigThrow (Option Str)
  | [] => pure none
  | pk :: owners => do
    let verified ← ownerSigPresent ed env pk
    if verified then pure (some pk) else findOwner env owners

/-- The owners who signed the envelopes, the empty string where there is none. -/
def computeOwnerSigners (envelopes : List OwnerCoSignature) (owners : List Str) :
    Except SigThrow (List Str) :=
  envelopes.mapM fun env => do
    let owner ← findOwner ed env owners
    pure (owner.getD [])

/-! ## The same in the other implementation -/

/-- `ed25519.Verify` on a key of 32 bytes. -/
def goVerify (key message signature : List UInt8) : Bool :=
  decide (signature.length = 64) && ed key message signature

def goOperatorSigPresent (calCanonicalBytes : List UInt8) (operatorSigB64 operatorPubkeyHex : Str) :
    Bool :=
  if operatorPubkeyHex = [] then false
  else
    match hexDecodeString operatorPubkeyHex with
    | none => false
    | some pub =>
      if pub.length ≠ 32 then false
      else
        let (sig, ok) := strictDecode operatorSigB64
        if !ok || sig.length ≠ 64 then false else goVerify ed pub calCanonicalBytes sig

def goSignDataDigest (workchain : ℤ) (addressHash : List UInt8) (domain : Str) (timestamp : ℤ)
    (payloadB64 : Str) : List UInt8 :=
  sha256 (signDataMessage workchain addressHash (utf8Encode domain) timestamp "bin"
    (strictDecode payloadB64).1)

def goOwnerSigPresent (env : OwnerCoSignature) (ownerPubkeyHex : Str) : Bool :=
  if ownerPubkeyHex = [] then false
  else
    match hexDecodeString ownerPubkeyHex with
    | none => false
    | some pub =>
      if pub.length ≠ 32 then false
      else
        let (sig, ok) := strictDecode env.signatureB64
        if !ok then false
        else
          match hexDecodeString env.addressHashHex with
          | none => false
          | some address =>
            if address.length ≠ 32 then false
            else
              goVerify ed pub (goSignDataDigest env.workchain address env.domain env.timestamp
                env.calCanonicalBytesB64) sig

end Model

/-! ## Decoding hex in both ways -/

theorem bufferOfHex_of_decodeString {s : Str} {b : List UInt8} (h : hexDecodeString s = some b) :
    bufferOfHex s = b := by
  induction s using hexDecodeString.induct generalizing b with
  | case1 => cases h; rfl
  | case2 a => cases h
  | case3 x y s hxy ih =>
    rw [hexDecodeString, if_pos hxy, Option.map_eq_some_iff] at h
    obtain ⟨b', hb', rfl⟩ := h
    rw [bufferOfHex, if_pos hxy, ih hb']
  | case4 x y s hxy =>
    rw [hexDecodeString, if_neg hxy] at h
    cases h

/-- Digits in pairs are decoded. -/
theorem hexDecodeString_of_digits {s : Str} (h : s.all isHexDigit = true) (heven : s.length % 2 = 0) :
    hexDecodeString s = some (bufferOfHex s) ∧ (bufferOfHex s).length = s.length / 2 := by
  induction s using hexDecodeString.induct with
  | case1 => exact ⟨rfl, rfl⟩
  | case2 a => simp at heven
  | case3 x y s hxy ih =>
    simp only [List.all_cons, Bool.and_eq_true] at h
    simp only [List.length_cons] at heven
    obtain ⟨hdecode, hlen⟩ := ih h.2.2 (by omega)
    rw [hexDecodeString, if_pos hxy, bufferOfHex, if_pos hxy, hdecode]
    refine ⟨rfl, ?_⟩
    simp only [List.length_cons, hlen]
    omega
  | case4 x y s hxy =>
    simp only [List.all_cons, Bool.and_eq_true] at h
    simp [h.1, h.2.1] at hxy

/-- A prefix ends a lenient decoding at once. -/
theorem strip0x_of_bufferOfHex {s : Str} (h : bufferOfHex s ≠ []) : strip0x s = s := by
  unfold strip0x
  split
  · exact absurd (by rw [bufferOfHex, if_neg (by decide)]) h
  · rfl

/-! ## One key -/

section Verdicts

variable {ed : Ed25519} {key : Str} {message : List UInt8}

/-- The key is empty, or it decodes to 32 bytes and does so strictly if it verifies the signature. -/
def KeyFine (ed : Ed25519) (key : Str) (message signature : List UInt8) : Prop :=
  key = [] ∨ (bufferOfHex key).length = 32 ∧
    ((hexDecodeString key).isSome = true ∨
      cryptoVerify ed (bufferOfHex key) message signature = false)

/-- The key is not the hex of 32 bytes. -/
def MalformedKey (key : Str) : Prop := ∀ b, hexDecodeString key = some b → b.length ≠ 32

theorem goOperatorSigPresent_eq (signature : List UInt8) :
    goOperatorSigPresent ed message (base64Encode signature) key =
      match hexDecodeString key with
      | none => false
      | some pub => decide (pub.length = 32) && cryptoVerify ed pub message signature := by
  unfold goOperatorSigPresent
  cases key with
  | nil => rfl
  | cons u key =>
    rw [if_neg (List.cons_ne_nil _ _)]
    cases hexDecodeString (u :: key) with
    | none => rfl
    | some pub =>
      simp only [strictDecode_encode, goVerify, cryptoVerify]
      by_cases hpub : pub.length = 32 <;> by_cases hsig : signature.length = 64 <;>
        simp [hpub, hsig]

/-- The verdicts of a lenient and of a strict verification are the same exactly for a fine key. -/
theorem verdict_iff {signature : List UInt8} {x : Except SigThrow Bool}
    (hx : x = if key = [] then pure false else
      if (bufferOfHex key).length = 32 then
        pure (cryptoVerify ed (bufferOfHex key) message signature)
      else throw .malformedKey) :
    (x = .ok (match hexDecodeString key with
      | none => false
      | some pub => decide (pub.length = 32) && cryptoVerify ed pub message signature)) ↔
      KeyFine ed key message signature := by
  unfold KeyFine
  by_cases hnil : key = []
  · subst hnil
    simp [hx, hexDecodeString]
  by_cases hlen : (bufferOfHex key).length = 32
  · rw [hx, if_neg hnil, if_pos hlen, pure_eq_ok]
    cases hdecode : hexDecodeString key with
    | none => simp [hnil, hlen]
    | some pub =>
      obtain rfl := bufferOfHex_of_decodeString hdecode
      simp [hlen]
  · rw [hx, if_neg hnil, if_neg hlen]
    simp [hnil, hlen]

theorem operatorSigPresent_iff {signature : List UInt8} :
    operatorSigPresent ed message (base64Encode signature) key =
        .ok (goOperatorSigPresent ed message (base64Encode signature) key) ↔
      KeyFine ed key message signature := by
  rw [goOperatorSigPresent_eq]
  refine verdict_iff ?_
  unfold operatorSigPresent ed25519PublicKey
  rw [lenientDecode_encode]
  split
  · rfl
  · split <;> rfl

theorem goOperatorSigPresent_malformed {signature : List UInt8}
    (h : MalformedKey key ∨ signature.length ≠ 64) :
    goOperatorSigPresent ed message (base64Encode signature) key = false := by
  rw [goOperatorSigPresent_eq]
  cases hdecode : hexDecodeString key with
  | none => rfl
  | some pub =>
    rcases h with h | h
    · simp [h pub hdecode]
    · simp [cryptoVerify, h]

/-! ## Envelopes -/

/-- An envelope as an accepted CAL carries it, with the bytes of its signature. -/
structure Carried (env : OwnerCoSignature) (signature : List UInt8) : Prop where
  workchain : -2 ^ 31 ≤ env.workchain ∧ env.workchain ≤ 2 ^ 31 - 1
  timestamp : 0 ≤ env.timestamp ∧ env.timestamp ≤ 2 ^ 64 - 1
  address : env.addressHashHex.all isHexDigit = true ∧ env.addressHashHex.length = 64
  payload : ∃ b, env.calCanonicalBytesB64 = base64Encode b
  signature : env.signatureB64 = base64Encode signature

/-- The commit of an envelope whose integers fit. -/
def commitOf (env : OwnerCoSignature) : List UInt8 :=
  sha256 (signDataMessage env.workchain (bufferOfHex env.addressHashHex) (utf8Encode env.domain)
    env.timestamp "bin" (lenientDecode env.calCanonicalBytesB64))

variable {env : OwnerCoSignature} {signature : List UInt8}

theorem signDataDigest_carried (h : Carried env signature) :
    signDataDigest env.input = .ok (commitOf env) := by
  unfold signDataDigest
  exact bind_eq_ok.mpr ⟨(), require_eq_ok.mpr h.workchain,
    bind_eq_ok.mpr ⟨(), require_eq_ok.mpr h.timestamp, rfl⟩⟩

theorem ownerSigPresent_eq (h : Carried env signature) (key : Str) :
    ownerSigPresent ed env key = if key = [] then pure false else
      if (bufferOfHex key).length = 32 then
        pure (cryptoVerify ed (bufferOfHex key) (commitOf env) signature)
      else throw .malformedKey := by
  unfold ownerSigPresent verifySignData
  rw [signDataDigest_carried h, h.signature, ok_bind, ed25519Verify, ed25519PublicKey,
    lenientDecode_encode]
  split
  · rfl
  · split <;> rfl

theorem goOwnerSigPresent_eq (h : Carried env signature) (key : Str) :
    goOwnerSigPresent ed env key =
      match hexDecodeString key with
      | none => false
      | some pub => decide (pub.length = 32) && cryptoVerify ed pub (commitOf env) signature := by
  obtain ⟨haddress, hlen⟩ := hexDecodeString_of_digits h.address.1 (by rw [h.address.2])
  rw [h.address.2] at hlen
  obtain ⟨b, hb⟩ := h.payload
  have hdigest : goSignDataDigest env.workchain (bufferOfHex env.addressHashHex) env.domain
      env.timestamp env.calCanonicalBytesB64 = commitOf env := by
    rw [goSignDataDigest, commitOf, hb, strictDecode_encode, lenientDecode_encode]
  unfold goOwnerSigPresent
  cases key with
  | nil => rfl
  | cons u key =>
    rw [if_neg (List.cons_ne_nil _ _)]
    cases hexDecodeString (u :: key) with
    | none => rfl
    | some pub =>
      simp only [h.signature, strictDecode_encode, haddress, hlen, hdigest, goVerify, cryptoVerify]
      by_cases hpub : pub.length = 32 <;> simp [hpub]

theorem ownerSigPresent_iff (h : Carried env signature) :
    ownerSigPresent ed env key = .ok (goOwnerSigPresent ed env key) ↔
      KeyFine ed key (commitOf env) signature := by
  rw [goOwnerSigPresent_eq h]
  exact verdict_iff (ownerSigPresent_eq h key)

theorem goOwnerSigPresent_malformed (h : Carried env signature)
    (hmalformed : MalformedKey key ∨ signature.length ≠ 64) :
    goOwnerSigPresent ed env key = false := by
  rw [goOwnerSigPresent_eq h]
  cases hdecode : hexDecodeString key with
  | none => rfl
  | some pub =>
    rcases hmalformed with hkey | hsig
    · simp [hkey pub hdecode]
    · simp [cryptoVerify, hsig]

/-! ## The owner who signed -/

/-- The owner's key, with or without a prefix, verifies the envelope. -/
def VerifiesAs (ed : Ed25519) (env : OwnerCoSignature) (pk : Str) : Prop :=
  goOwnerSigPresent ed env (strip0x pk) = true

/-- The string names an owner who verifies the envelope, and is empty only if no owner does. -/
structure MatchesOwner (ed : Ed25519) (owners : List Str) (env : OwnerCoSignature) (s : Str) : Prop where
  found : s ≠ [] ↔ ∃ pk ∈ owners, VerifiesAs ed env pk
  verifies : s ≠ [] → s ∈ owners ∧ VerifiesAs ed env s

/-- Up to the first owner whose key, leniently decoded, verifies the envelope, each key is empty or
decodes to 32 bytes; and that owner's key is well-formed. -/
def OwnersFine (ed : Ed25519) (env : OwnerCoSignature) (signature : List UInt8) : List Str → Prop
  | [] => True
  | pk :: owners =>
    pk = [] ∧ OwnersFine ed env signature owners ∨
      (bufferOfHex pk).length = 32 ∧
        if cryptoVerify ed (bufferOfHex pk) (commitOf env) signature = true then
          (hexDecodeString pk).isSome = true
        else OwnersFine ed env signature owners

/-- A key that decodes to 32 bytes has no prefix. -/
theorem strip0x_of_length {pk : Str} (h : (bufferOfHex pk).length = 32) : strip0x pk = pk := by
  refine strip0x_of_bufferOfHex fun hnil => ?_
  rw [hnil] at h
  cases h

theorem verifiesAs_iff (h : Carried env signature) {pk : Str} (hlen : (bufferOfHex pk).length = 32) :
    VerifiesAs ed env pk ↔ (hexDecodeString pk).isSome = true ∧
      cryptoVerify ed (bufferOfHex pk) (commitOf env) signature = true := by
  rw [VerifiesAs, strip0x_of_length hlen, goOwnerSigPresent_eq h]
  cases hdecode : hexDecodeString pk with
  | none => simp
  | some pub =>
    obtain rfl := bufferOfHex_of_decodeString hdecode
    simp [hlen]

theorem not_verifiesAs_nil : ¬VerifiesAs ed env [] := by
  intro h
  cases h

/-- An owner who does not verify the envelope can be left out. -/
theorem matchesOwner_cons {pk s : Str} {owners : List Str} (hpk : ¬VerifiesAs ed env pk) :
    MatchesOwner ed (pk :: owners) env s ↔ MatchesOwner ed owners env s := by
  constructor
  · intro h
    refine ⟨?_, fun hs => ?_⟩
    · rw [h.found, List.exists_mem_cons_iff, or_iff_right hpk]
    · obtain ⟨hmem, hverifies⟩ := h.verifies hs
      rcases List.mem_cons.mp hmem with rfl | hmem
      · exact absurd hverifies hpk
      · exact ⟨hmem, hverifies⟩
  · intro h
    refine ⟨?_, fun hs => ?_⟩
    · rw [h.found, List.exists_mem_cons_iff, or_iff_right hpk]
    · obtain ⟨hmem, hverifies⟩ := h.verifies hs
      exact ⟨List.mem_cons_of_mem _ hmem, hverifies⟩

/-- The search returns a matching owner exactly for a list of fine keys. -/
theorem findOwner_iff (h : Carried env signature) (owners : List Str) :
    (∃ owner, findOwner ed env owners = .ok owner ∧ MatchesOwner ed owners env (owner.getD [])) ↔
      OwnersFine ed env signature owners := by
  induction owners with
  | nil =>
    refine iff_of_true ⟨none, rfl, ?_, ?_⟩ trivial <;> simp
  | cons pk owners ih =>
    rw [findOwner, ownerSigPresent_eq h, OwnersFine]
    by_cases hnil : pk = []
    · subst hnil
      rw [if_pos rfl, pure_bind, if_neg (by simp)]
      simp only [matchesOwner_cons not_verifiesAs_nil, ih, true_and]
      simp [bufferOfHex]
    by_cases hlen : (bufferOfHex pk).length = 32
    · rw [if_neg hnil, if_pos hlen, pure_bind]
      simp only [hnil, hlen, false_and, false_or, true_and]
      by_cases hverify : cryptoVerify ed (bufferOfHex pk) (commitOf env) signature = true
      · rw [if_pos hverify, if_pos hverify]
        constructor
        · rintro ⟨owner, howner, hmatches⟩
          cases howner
          exact ((verifiesAs_iff h hlen).mp (hmatches.verifies hnil).2).1
        · intro hwf
          have hv : VerifiesAs ed env pk := (verifiesAs_iff h hlen).mpr ⟨hwf, hverify⟩
          refine ⟨some pk, rfl, ?_, fun _ => ⟨List.mem_cons_self, hv⟩⟩
          exact ⟨fun _ => ⟨pk, List.mem_cons_self, hv⟩, fun _ => hnil⟩
      · rw [if_neg hverify, if_neg hverify, ← ih]
        have hpk : ¬VerifiesAs ed env pk := fun hv => hverify ((verifiesAs_iff h hlen).mp hv).2
        simp only [matchesOwner_cons hpk]
    · -- the search throws on the key
      rw [if_neg hnil, if_neg hlen]
      simp [hnil, hlen]

/-- All envelopes are answered exactly if the search is, for each. -/
theorem computeOwnerSigners_iff {envelopes : List OwnerCoSignature} {owners : List Str}
    {sigOf : OwnerCoSignature → List UInt8} (h : ∀ env ∈ envelopes, Carried env (sigOf env)) :
    (∃ signers, computeOwnerSigners ed envelopes owners = .ok signers ∧
        List.Forall₂ (MatchesOwner ed owners) envelopes signers) ↔
      ∀ env ∈ envelopes, OwnersFine ed env (sigOf env) owners := by
  unfold computeOwnerSigners
  induction envelopes with
  | nil => exact iff_of_true ⟨[], rfl, .nil⟩ (fun _ h => (nomatch h))
  | cons env envelopes ih =>
    obtain ⟨henv, hrest⟩ := List.forall_mem_cons.mp h
    rw [List.forall_mem_cons, ← ih hrest, ← findOwner_iff henv]
    simp only [List.mapM_cons, bind_eq_ok, pure_eq_ok]
    constructor
    · rintro ⟨signers, ⟨s, ⟨owner, howner, rfl⟩, rest, hmap, rfl⟩, hmatches⟩
      obtain ⟨hs, hmatches⟩ := List.forall₂_cons.mp hmatches
      exact ⟨⟨owner, howner, hs⟩, rest, hmap, hmatches⟩
    · rintro ⟨⟨owner, howner, hs⟩, rest, hmap, hmatches⟩
      exact ⟨_, ⟨_, ⟨owner, howner, rfl⟩, rest, hmap, rfl⟩, .cons hs hmatches⟩

end Verdicts

end ParadigmTerra
