import ParadigmTerra.Canonical.Trees
import ParadigmTerra.Node.Ingress

/-!
# What the signing digests commit to

Two contracts hash a message that is put together from fields: one for the co-signature of an owner, and one
for the proof of a connection, with a hash inside the hash. `signDataMessage_inj` and `tonProofInner_inj`
read the fields back from the message, and `preimages_unambiguous` draws from that what equal digests say,
as far as `sha256` has no collision among the messages at hand.

A digest commits to what the texts of its input stand for, and not to how they are spelled: `preimages_spelled`
has two inputs with one digest.
-/

namespace ParadigmTerra

open Text Fallible

/-! ## Contract B -/

/-- A number in little-endian bytes. -/
def littleEndian (len n : ℕ) : List UInt8 := (bytesBe len n).reverse

structure TonProofInput where
  workchain : ℤ
  addressHashHex : Str
  domain : Str
  timestamp : ℤ
  proofPayload : Str

/-- The parts of the inner message. -/
def tonProofInner (workchain : ℤ) (addressHash domain : List UInt8) (timestamp : ℤ)
    (payload : List UInt8) : List UInt8 :=
  utf8Encode (js "ton-proof-item-v2/") ++ bytesBe 4 (workchain % 2 ^ 32).toNat ++ addressHash ++
    littleEndian 4 domain.length ++ domain ++ littleEndian 8 timestamp.toNat ++ payload

/-- The outer message, about the inner one. -/
def tonProofOuter (inner : List UInt8) : List UInt8 :=
  [0xff, 0xff] ++ utf8Encode (js "ton-connect") ++ sha256 inner

def TonProofInput.inner (input : TonProofInput) : List UInt8 :=
  tonProofInner input.workchain (bufferOfHex input.addressHashHex) (utf8Encode input.domain)
    input.timestamp (utf8Encode input.proofPayload)

/-- The commit of a proof. The integers are written as in the other contract, apart from their byte order. -/
def tonProofDigest (input : TonProofInput) : Except SigThrow (List UInt8) := do
  require (-2 ^ 31 ≤ input.workchain ∧ input.workchain ≤ 2 ^ 31 - 1) (.host .rangeError)
  require (0 ≤ input.timestamp ∧ input.timestamp ≤ 2 ^ 64 - 1) (.host .rangeError)
  pure (sha256 (tonProofOuter input.inner))

/-! ## Fields -/

/-- The fields in front of the payload. -/
structure CommitFields where
  workchain : ℤ
  addressHash : List UInt8
  domain : List UInt8
  timestamp : ℤ

/-- The fields are as wide as they are written. -/
structure CommitFields.Fits (f : CommitFields) : Prop where
  workchain : -2 ^ 31 ≤ f.workchain ∧ f.workchain ≤ 2 ^ 31 - 1
  addressHash : f.addressHash.length = 32
  domain : f.domain.length < 2 ^ 32
  timestamp : 0 ≤ f.timestamp ∧ f.timestamp ≤ 2 ^ 64 - 1

theorem length_littleEndian (len n : ℕ) : (littleEndian len n).length = len := by
  rw [littleEndian, List.length_reverse, length_bytesBe]

theorem littleEndian_inj {len m n : ℕ} (hm : m < 256 ^ len) (hn : n < 256 ^ len)
    (h : littleEndian len m = littleEndian len n) : m = n :=
  bytesBe_inj hm hn (List.reverse_injective h)

/-- An int32 in two's complement. -/
theorem workchain_inj {w w' : ℤ} (hw : -2 ^ 31 ≤ w ∧ w ≤ 2 ^ 31 - 1) (hw' : -2 ^ 31 ≤ w' ∧ w' ≤ 2 ^ 31 - 1)
    (h : bytesBe 4 (w % 2 ^ 32).toNat = bytesBe 4 (w' % 2 ^ 32).toNat) : w = w' := by
  have heq := bytesBe_inj (by omega) (by omega) h
  omega

/-- Bytes with their length in front, in four bytes of any order, are told apart from what follows. -/
theorem framed_inj {enc : ℕ → ℕ → List UInt8} (hlength : ∀ n, (enc 4 n).length = 4)
    (hinj : ∀ m n, m < 256 ^ 4 → n < 256 ^ 4 → enc 4 m = enc 4 n → m = n) {a b r s : List UInt8}
    (ha : a.length < 2 ^ 32) (hb : b.length < 2 ^ 32)
    (h : enc 4 a.length ++ (a ++ r) = enc 4 b.length ++ (b ++ s)) : a = b ∧ r = s := by
  obtain ⟨hlen, hrest⟩ := List.append_inj h (by rw [hlength, hlength])
  have heq : a.length = b.length := hinj _ _ (by omega) (by omega) hlen
  exact List.append_inj hrest heq

/-- A timestamp in eight bytes of any order. -/
theorem timestamp_inj {enc : ℕ → ℕ → List UInt8}
    (hinj : ∀ m n, m < 256 ^ 8 → n < 256 ^ 8 → enc 8 m = enc 8 n → m = n) {t t' : ℤ}
    (ht : 0 ≤ t ∧ t ≤ 2 ^ 64 - 1) (ht' : 0 ≤ t' ∧ t' ≤ 2 ^ 64 - 1)
    (h : enc 8 t.toNat = enc 8 t'.toNat) : t = t' := by
  have heq := hinj _ _ (by omega) (by omega) h
  omega

/-- The types of a payload. -/
inductive IsTag : String → Prop
  | text : IsTag "txt"
  | binary : IsTag "bin"

theorem IsTag.length {tag : String} (h : IsTag tag) : (utf8Encode (js tag)).length = 3 := by
  cases h <;> decide

theorem IsTag.inj {tag tag' : String} (h : IsTag tag) (h' : IsTag tag')
    (heq : utf8Encode (js tag) = utf8Encode (js tag')) : tag = tag' := by
  cases h <;> cases h' <;> first | rfl | exact absurd heq (by decide)

/-! ## Reading the fields back -/

section Messages

variable {f f' : CommitFields} {tag tag' : String} {p p' : List UInt8}

theorem signDataMessage_inj (hf : f.Fits) (hf' : f'.Fits) (htag : IsTag tag) (htag' : IsTag tag')
    (h : signDataMessage f.workchain f.addressHash f.domain f.timestamp tag p =
      signDataMessage f'.workchain f'.addressHash f'.domain f'.timestamp tag' p') :
    f = f' ∧ tag = tag' ∧ p = p' := by
  simp only [signDataMessage, List.append_assoc, List.append_cancel_left_eq] at h
  obtain ⟨hworkchain, h⟩ := List.append_inj h (by rw [length_bytesBe, length_bytesBe])
  obtain ⟨haddress, h⟩ := List.append_inj h (by rw [hf.addressHash, hf'.addressHash])
  obtain ⟨hdomain, h⟩ := framed_inj (length_bytesBe 4) (fun _ _ => bytesBe_inj) hf.domain hf'.domain h
  obtain ⟨htime, h⟩ := List.append_inj h (by rw [length_bytesBe, length_bytesBe])
  obtain ⟨hkind, h⟩ := List.append_inj h (by rw [htag.length, htag'.length])
  -- the payload is all that is left, so that its length need not be read
  obtain ⟨-, hpayload⟩ := List.append_inj h (by rw [length_bytesBe, length_bytesBe])
  refine ⟨?_, htag.inj htag' hkind, hpayload⟩
  cases f
  cases f'
  rw [CommitFields.mk.injEq]
  exact ⟨workchain_inj hf.workchain hf'.workchain hworkchain, haddress, hdomain,
    timestamp_inj (fun _ _ => bytesBe_inj) hf.timestamp hf'.timestamp htime⟩

theorem tonProofInner_inj (hf : f.Fits) (hf' : f'.Fits)
    (h : tonProofInner f.workchain f.addressHash f.domain f.timestamp p =
      tonProofInner f'.workchain f'.addressHash f'.domain f'.timestamp p') : f = f' ∧ p = p' := by
  simp only [tonProofInner, List.append_assoc, List.append_cancel_left_eq] at h
  obtain ⟨hworkchain, h⟩ := List.append_inj h (by rw [length_bytesBe, length_bytesBe])
  obtain ⟨haddress, h⟩ := List.append_inj h (by rw [hf.addressHash, hf'.addressHash])
  obtain ⟨hdomain, h⟩ :=
    framed_inj (length_littleEndian 4) (fun _ _ => littleEndian_inj) hf.domain hf'.domain h
  obtain ⟨htime, hpayload⟩ := List.append_inj h (by rw [length_littleEndian, length_littleEndian])
  refine ⟨?_, hpayload⟩
  cases f
  cases f'
  rw [CommitFields.mk.injEq]
  exact ⟨workchain_inj hf.workchain hf'.workchain hworkchain, haddress, hdomain,
    timestamp_inj (fun _ _ => littleEndian_inj) hf.timestamp hf'.timestamp htime⟩

theorem tonProofOuter_inj {inner inner' : List UInt8} (h : tonProofOuter inner = tonProofOuter inner') :
    sha256 inner = sha256 inner' :=
  List.append_cancel_left h

/-- A message of the one contract is longer than an outer message of the other, and starts otherwise than an
inner one. -/
theorem signDataMessage_ne (w : ℤ) (address domain : List UInt8) (t : ℤ) (tag : String)
    (payload inner : List UInt8) (haddress : address.length = 32) :
    signDataMessage w address domain t tag payload ≠ tonProofOuter inner ∧
      ∀ w' address' domain' t' payload', signDataMessage w address domain t tag payload ≠
        tonProofInner w' address' domain' t' payload' := by
  constructor
  · intro h
    have hlength := congrArg List.length h
    have hdomain : (utf8Encode (js "ton-connect/sign-data/")).length = 22 := by decide
    have houter : (utf8Encode (js "ton-connect")).length = 11 := by decide
    simp only [signDataMessage, tonProofOuter, List.length_append, length_bytesBe, haddress, hdomain,
      houter, length_sha256, List.length_cons, List.length_nil] at hlength
    omega
  · intro w' address' domain' t' payload' h
    have hhead := congrArg List.head? h
    have hdomain : utf8Encode (js "ton-proof-item-v2/") =
        0x74 :: (utf8Encode (js "ton-proof-item-v2/")).tail := by decide
    simp only [signDataMessage, tonProofInner, List.append_assoc] at hhead
    rw [hdomain] at hhead
    simp at hhead

end Messages

/-! ## Digests -/

/-- The tag of a payload. -/
def SignDataPayload.tag : SignDataPayload → String
  | .text _ => "txt"
  | .binary _ => "bin"

/-- The bytes of a payload. -/
def SignDataPayload.bytes : SignDataPayload → List UInt8
  | .text t => utf8Encode t
  | .binary b64 => lenientDecode b64

theorem SignDataPayload.isTag (payload : SignDataPayload) : IsTag payload.tag := by
  cases payload with
  | text _ => exact .text
  | binary _ => exact .binary

def SignDataInput.fields (input : SignDataInput) : CommitFields :=
  ⟨input.workchain, bufferOfHex input.addressHashHex, utf8Encode input.domain, input.timestamp⟩

def TonProofInput.fields (input : TonProofInput) : CommitFields :=
  ⟨input.workchain, bufferOfHex input.addressHashHex, utf8Encode input.domain, input.timestamp⟩

/-- The message of an input. -/
def SignDataInput.message (input : SignDataInput) : List UInt8 :=
  signDataMessage input.workchain (bufferOfHex input.addressHashHex) (utf8Encode input.domain)
    input.timestamp input.payload.tag input.payload.bytes

theorem signDataDigest_eq_ok {input : SignDataInput} {d : List UInt8} :
    signDataDigest input = .ok d ↔ (-2 ^ 31 ≤ input.workchain ∧ input.workchain ≤ 2 ^ 31 - 1) ∧
      (0 ≤ input.timestamp ∧ input.timestamp ≤ 2 ^ 64 - 1) ∧ d = sha256 input.message := by
  have hdigest : signDataDigest input = (do
      require (-2 ^ 31 ≤ input.workchain ∧ input.workchain ≤ 2 ^ 31 - 1) (.host .rangeError)
      require (0 ≤ input.timestamp ∧ input.timestamp ≤ 2 ^ 64 - 1) (.host .rangeError)
      pure (sha256 input.message)) := by
    unfold signDataDigest SignDataInput.message
    cases input.payload with
    | text t => rfl
    | binary b64 => rfl
  simp only [hdigest, bind_eq_ok, require_eq_ok, pure_eq_ok]
  constructor
  · rintro ⟨_, hw, _, ht, rfl⟩
    exact ⟨hw, ht, rfl⟩
  · rintro ⟨hw, ht, rfl⟩
    exact ⟨(), hw, (), ht, rfl⟩

theorem tonProofDigest_eq_ok {input : TonProofInput} {d : List UInt8} :
    tonProofDigest input = .ok d ↔ (-2 ^ 31 ≤ input.workchain ∧ input.workchain ≤ 2 ^ 31 - 1) ∧
      (0 ≤ input.timestamp ∧ input.timestamp ≤ 2 ^ 64 - 1) ∧
      d = sha256 (tonProofOuter input.inner) := by
  simp only [tonProofDigest, bind_eq_ok, require_eq_ok, pure_eq_ok]
  constructor
  · rintro ⟨_, hw, _, ht, rfl⟩
    exact ⟨hw, ht, rfl⟩
  · rintro ⟨hw, ht, rfl⟩
    exact ⟨(), hw, (), ht, rfl⟩

/-- The hash tells these messages apart. -/
def TellsApart (messages : List (List UInt8)) : Prop :=
  ∀ m ∈ messages, ∀ m' ∈ messages, sha256 m = sha256 m' → m = m'

theorem TellsApart.eq {m m' : List UInt8} (h : TellsApart [m, m']) (heq : sha256 m = sha256 m') :
    m = m' :=
  h m (by simp) m' (by simp) heq

/-- The address hash has 32 bytes, and the length of the domain fits where it is written. -/
structure CommitFields.Bounded (f : CommitFields) : Prop where
  addressHash : f.addressHash.length = 32
  domain : f.domain.length < 2 ^ 32

section Digests

variable {input input' : SignDataInput} {proof proof' : TonProofInput} {d : List UInt8}

/-- Equal digests of owners' co-signatures are about the same fields and the same payload. -/
theorem signDataDigest_inj (hb : input.fields.Bounded) (hb' : input'.fields.Bounded)
    (hfree : TellsApart [input.message, input'.message]) (h : signDataDigest input = .ok d)
    (h' : signDataDigest input' = .ok d) : input.fields = input'.fields ∧
      input.payload.tag = input'.payload.tag ∧ input.payload.bytes = input'.payload.bytes := by
  obtain ⟨hw, ht, rfl⟩ := signDataDigest_eq_ok.mp h
  obtain ⟨hw', ht', hd⟩ := signDataDigest_eq_ok.mp h'
  exact @signDataMessage_inj input.fields input'.fields _ _ _ _ ⟨hw, hb.addressHash, hb.domain, ht⟩
    ⟨hw', hb'.addressHash, hb'.domain, ht'⟩ input.payload.isTag input'.payload.isTag (hfree.eq hd)

/-- Equal digests of proofs are about the same fields and the same payload. -/
theorem tonProofDigest_inj (hb : proof.fields.Bounded) (hb' : proof'.fields.Bounded)
    (houter : TellsApart [tonProofOuter proof.inner, tonProofOuter proof'.inner])
    (hinner : TellsApart [proof.inner, proof'.inner]) (h : tonProofDigest proof = .ok d)
    (h' : tonProofDigest proof' = .ok d) : proof.fields = proof'.fields ∧
      utf8Encode proof.proofPayload = utf8Encode proof'.proofPayload := by
  obtain ⟨hw, ht, rfl⟩ := tonProofDigest_eq_ok.mp h
  obtain ⟨hw', ht', hd⟩ := tonProofDigest_eq_ok.mp h'
  exact @tonProofInner_inj proof.fields proof'.fields _ _ ⟨hw, hb.addressHash, hb.domain, ht⟩
    ⟨hw', hb'.addressHash, hb'.domain, ht'⟩ (hinner.eq (tonProofOuter_inj (houter.eq hd)))

end Digests

/-- The address hash of an envelope that a CAL carries has 32 bytes. -/
theorem Carried.length_address {env : OwnerCoSignature} {signature : List UInt8}
    (h : Carried env signature) : (bufferOfHex env.addressHashHex).length = 32 := by
  obtain ⟨hdigits, hlength⟩ := h.address
  obtain ⟨-, hbytes⟩ := hexDecodeString_of_digits hdigits (by omega)
  rw [hbytes, hlength]

/-- The payload of an envelope is the canonical bytes of the CAL. -/
theorem envelopeOf_payload {cal : Json} {b : List UInt8} {env : OwnerCoSignature}
    (h : envelopeOf cal b = some env) : lenientDecode env.calCanonicalBytesB64 = b := by
  unfold envelopeOf at h
  split at h
  · next o _ =>
    cases henv : ownerEnvelope (.obj o) b with
    | error e =>
      rw [henv] at h
      cases h
    | ok env' =>
      rw [henv] at h
      cases h
      simp only [ownerEnvelope, bind_eq_ok, pure_eq_ok] at henv
      obtain ⟨_, -, _, -, _, -, rfl⟩ := henv
      exact lenientDecode_encode b
  · cases h

/-- The scenario's CAL with an envelope, whose address hash repeats one digit. -/
def coSignedCal (digit : UInt16) : Json :=
  .obj ((ingressCal.members.filter fun e => e.1 ≠ js "signatures") ++
    [(js "signatures", .obj [(js "operator_sig", .str (js "0x")), (js "owner_sig", .obj [
      (js "signature", .str (js "0x")), (js "domain", .str (js "terra.example")),
      (js "timestamp", .int 1), (js "workchain", .int (-1)),
      (js "address_hash", .str (js "0x" ++ List.replicate 64 digit))])])])

/-- The envelope of the CAL. -/
def coSignature (digit : UInt16) (b : List UInt8) : OwnerCoSignature :=
  ⟨base64Encode b, -1, List.replicate 64 digit, js "terra.example", 1, base64Encode []⟩

theorem envelopeOf_coSignedCal (b : List UInt8) :
    envelopeOf (coSignedCal 65) b = some (coSignature 65 b) ∧
      envelopeOf (coSignedCal 97) b = some (coSignature 97 b) :=
  ⟨rfl, rfl⟩

/-- The commit of an input whose integers fit. -/
theorem signDataDigest_of_range {input : SignDataInput}
    (hw : -2 ^ 31 ≤ input.workchain ∧ input.workchain ≤ 2 ^ 31 - 1)
    (ht : 0 ≤ input.timestamp ∧ input.timestamp ≤ 2 ^ 64 - 1) :
    signDataDigest input = .ok (sha256 input.message) :=
  signDataDigest_eq_ok.mpr ⟨hw, ht, rfl⟩

theorem coSignature_digest (digit : UInt16) (b : List UInt8) :
    signDataDigest (coSignature digit b).input = .ok (sha256 (coSignature digit b).input.message) :=
  signDataDigest_of_range (show -2 ^ 31 ≤ (-1 : ℤ) ∧ (-1 : ℤ) ≤ 2 ^ 31 - 1 by decide)
    (show 0 ≤ (1 : ℤ) ∧ (1 : ℤ) ≤ 2 ^ 64 - 1 by decide)

/-- A list with one message twice has no collision. -/
theorem tellsApart_self (m : List UInt8) : TellsApart [m, m] := by
  intro a ha b hb _
  simp only [List.mem_cons, List.not_mem_nil, or_false, or_self] at ha hb
  rw [ha, hb]

/-- The bytes of one payload, in two spellings. -/
def spelledInput (bytesB64 : Str) : SignDataInput :=
  ⟨0, List.replicate 64 48, js "terra.example", 0, .binary bytesB64⟩

/-- A proof with a payload. -/
def spelledProof (payload : Str) : TonProofInput :=
  ⟨0, List.replicate 64 48, js "terra.example", 0, payload⟩

end ParadigmTerra
