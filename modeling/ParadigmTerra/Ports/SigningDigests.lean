import ParadigmTerra.Node.Preimages
import ParadigmTerra.Ports.Sha256
import ParadigmTerra.Text.StandardBase64

/-!
# The signing digests in the three languages

Each language builds the messages of the two contracts with encoders of its own, and reads a binary payload
with a decoder of its own. `signing_digests_agree` says for which payloads the digests of the three are one:
the port in Go keeps what its strict decoder returned in front of an error, and has the digest of the others
for the texts that this decoder reads as a whole. The commit of a proof reads nothing and is the same for all
inputs.
-/

namespace ParadigmTerra.Ports

open Text Fallible

/-! ## Little-endian bytes -/

/-- `u32::to_le_bytes`, and `PutUint32` on little-endian bytes. -/
def le32 (n : UInt32) : List UInt8 :=
  [n.toUInt8, (n >>> 8).toUInt8, (n >>> 16).toUInt8, (n >>> 24).toUInt8]

/-- `u64::to_le_bytes`, and `PutUint64` on little-endian bytes. -/
def le64 (n : UInt64) : List UInt8 :=
  [n.toUInt8, (n >>> 8).toUInt8, (n >>> 16).toUInt8, (n >>> 24).toUInt8,
    (n >>> 32).toUInt8, (n >>> 40).toUInt8, (n >>> 48).toUInt8, (n >>> 56).toUInt8]

/-! ## The port in Rust -/

namespace Rust

/-- The payload of an owner's signature. -/
inductive Payload
  | text (t : Str)
  | binary (b64 : Str)

structure SignDataInput where
  workchain : Int32
  addressHash : Vector UInt8 32
  domain : Str
  timestamp : UInt64
  payload : Payload

def signDataTag : Payload → List UInt8 × List UInt8
  | .text t => (utf8Encode (js "txt"), utf8Encode t)
  | .binary b64 => (utf8Encode (js "bin"), b64Decode (utf8Encode b64))

def signDataMessage (input : SignDataInput) : List UInt8 :=
  let (tag, payload) := signDataTag input.payload
  let domain := utf8Encode input.domain
  [0xff, 0xff] ++ utf8Encode (js "ton-connect/sign-data/") ++ be32 input.workchain.toUInt32 ++
    input.addressHash.toList ++ be32 (UInt32.ofNat domain.length) ++ domain ++ be64 input.timestamp ++
    tag ++ be32 (UInt32.ofNat payload.length) ++ payload

def signDataDigest (input : SignDataInput) : List UInt8 := ParadigmTerra.sha256 (signDataMessage input)

structure TonProofInput where
  workchain : Int32
  addressHash : Vector UInt8 32
  domain : Str
  timestamp : UInt64
  proofPayload : Str

def tonProofDigest (input : TonProofInput) : List UInt8 :=
  let domain := utf8Encode input.domain
  let inner := utf8Encode (js "ton-proof-item-v2/") ++ be32 input.workchain.toUInt32 ++
    input.addressHash.toList ++ le32 (UInt32.ofNat domain.length) ++ domain ++ le64 input.timestamp ++
    utf8Encode input.proofPayload
  ParadigmTerra.sha256 ([0xff, 0xff] ++ utf8Encode (js "ton-connect") ++ ParadigmTerra.sha256 inner)

end Rust

/-! ## The port in Go -/

namespace Go

structure SignDataInput where
  workchain : Int32
  addressHash : Vector UInt8 32
  domain : Str
  timestamp : UInt64
  payloadType : Str
  payloadText : Str
  payloadB64 : Str

/-- The tag and the payload. The error of the decoder is dropped, and the bytes in front of it are kept. -/
def signDataTag (input : SignDataInput) : List UInt8 × List UInt8 :=
  if input.payloadType = js "text" then (utf8Encode (js "txt"), utf8Encode input.payloadText)
  else (utf8Encode (js "bin"), (strictDecode input.payloadB64).1)

def signDataMessage (input : SignDataInput) : List UInt8 :=
  let (tag, payload) := signDataTag input
  let domain := utf8Encode input.domain
  [0xff, 0xff] ++ utf8Encode (js "ton-connect/sign-data/") ++ be32 input.workchain.toUInt32 ++
    input.addressHash.toList ++ be32 (UInt32.ofNat domain.length) ++ domain ++ be64 input.timestamp ++
    tag ++ be32 (UInt32.ofNat payload.length) ++ payload

def signDataDigest (input : SignDataInput) : List UInt8 := sha256 (signDataMessage input)

structure TonProofInput where
  workchain : Int32
  addressHash : Vector UInt8 32
  domain : Str
  timestamp : UInt64
  proofPayload : Str

def tonProofDigest (input : TonProofInput) : List UInt8 :=
  let domain := utf8Encode input.domain
  let inner := utf8Encode (js "ton-proof-item-v2/") ++ be32 input.workchain.toUInt32 ++
    input.addressHash.toList ++ le32 (UInt32.ofNat domain.length) ++ domain ++ le64 input.timestamp ++
    utf8Encode input.proofPayload
  sha256 ([0xff, 0xff] ++ utf8Encode (js "ton-connect") ++ sha256 inner)

end Go

/-! ## One encoding of integers -/

theorem le32_eq (n : UInt32) : le32 n = littleEndian 4 n.toNat := by
  rw [littleEndian, ← be32_eq]
  rfl

theorem le64_eq (n : UInt64) : le64 n = littleEndian 8 n.toNat := by
  rw [littleEndian, ← be64_eq]
  rfl

/-- A length is cut off at 32 bits, and so are its bytes. -/
theorem bytesBe_mod (n : ℕ) : bytesBe 4 (n % 2 ^ 32) = bytesBe 4 n := by
  have hbyte : ∀ i, i < 4 → n % 2 ^ 32 / 256 ^ i % 256 = n / 256 ^ i % 256 := by
    intro i hi
    interval_cases i <;> omega
  unfold bytesBe
  refine List.map_congr_left fun i hi => ?_
  rw [hbyte i (by simpa using hi)]

theorem be32_length (n : ℕ) : be32 (UInt32.ofNat n) = bytesBe 4 n := by
  rw [be32_eq, UInt32.toNat_ofNat', bytesBe_mod]

theorem le32_length (n : ℕ) : le32 (UInt32.ofNat n) = littleEndian 4 n := by
  rw [le32_eq, UInt32.toNat_ofNat', littleEndian, bytesBe_mod, littleEndian]

theorem be32_workchain (w : Int32) : be32 w.toUInt32 = bytesBe 4 (w.toInt % 2 ^ 32).toNat := by
  have hnat : (w.toInt % 2 ^ 32).toNat = w.toUInt32.toNat := by
    have hint : w.toInt = w.toUInt32.toBitVec.toInt := rfl
    rw [hint, BitVec.toInt_eq_toNat_cond, UInt32.toNat]
    have hlt := w.toUInt32.toBitVec.isLt
    split <;> omega
  rw [be32_eq, hnat]

/-! ## Agreement -/

/-- What the signer and the payload are about, in the types of the ports. -/
structure SigningRequest where
  workchain : Int32
  addressHashHex : Str
  addressHash : Vector UInt8 32
  address_eq : bufferOfHex addressHashHex = addressHash.toList
  domain : Str
  domain_wellFormed : wellFormed domain = true
  domain_short : (utf8Encode domain).length < 2 ^ 32
  timestamp : UInt64

namespace SigningRequest

variable (r : SigningRequest)

/-- The input of the reference implementation. -/
def reference (payload : SignDataPayload) : SignDataInput :=
  ⟨r.workchain.toInt, r.addressHashHex, r.domain, r.timestamp.toNat, payload⟩

/-- The input of the port in Rust. -/
def rust : SignDataPayload → Rust.SignDataInput
  | .text t => ⟨r.workchain, r.addressHash, r.domain, r.timestamp, .text t⟩
  | .binary b64 => ⟨r.workchain, r.addressHash, r.domain, r.timestamp, .binary b64⟩

/-- The input of the port in Go. -/
def go : SignDataPayload → Go.SignDataInput
  | .text t => ⟨r.workchain, r.addressHash, r.domain, r.timestamp, js "text", t, []⟩
  | .binary b64 => ⟨r.workchain, r.addressHash, r.domain, r.timestamp, js "binary", [], b64⟩

/-- The three digests of a payload are one. The ports reject nothing. -/
def SignDataAgree (payload : SignDataPayload) : Prop :=
  signDataDigest (r.reference payload) = .ok (Rust.signDataDigest (r.rust payload)) ∧
    Rust.signDataDigest (r.rust payload) = Go.signDataDigest (r.go payload)

/-- The three digests of a proof are one. -/
def TonProofAgree (proofPayload : Str) : Prop :=
  tonProofDigest ⟨r.workchain.toInt, r.addressHashHex, r.domain, r.timestamp.toNat, proofPayload⟩ =
      .ok (Rust.tonProofDigest ⟨r.workchain, r.addressHash, r.domain, r.timestamp, proofPayload⟩) ∧
    Rust.tonProofDigest ⟨r.workchain, r.addressHash, r.domain, r.timestamp, proofPayload⟩ =
      Go.tonProofDigest ⟨r.workchain, r.addressHash, r.domain, r.timestamp, proofPayload⟩

end SigningRequest

/-- Any text, or bytes as a standard text of base64. -/
def StandardPayload : SignDataPayload → Prop
  | .text _ => True
  | .binary b64 => StandardText b64

/-- Any text, or bytes as a text that the strict decoder reads as a whole. -/
def ReadPayload : SignDataPayload → Prop
  | .text _ => True
  | .binary b64 => ReadStrictly b64

section Requests

variable {r : SigningRequest} {payload : SignDataPayload}

theorem reference_digest (r : SigningRequest) (payload : SignDataPayload) :
    signDataDigest (r.reference payload) = .ok (sha256 (r.reference payload).message) := by
  have hlow := Int32.le_toInt r.workchain
  have hhigh := Int32.toInt_lt r.workchain
  have htime := r.timestamp.toNat_lt
  have hw : -2 ^ 31 ≤ r.workchain.toInt ∧ r.workchain.toInt ≤ 2 ^ 31 - 1 := by omega
  have ht : 0 ≤ (r.timestamp.toNat : ℤ) ∧ (r.timestamp.toNat : ℤ) ≤ 2 ^ 64 - 1 := by omega
  exact signDataDigest_of_range hw ht

/-- The port in Rust builds the message of the reference implementation. -/
theorem rust_message (h : StandardPayload payload) :
    Rust.signDataMessage (r.rust payload) = (r.reference payload).message := by
  have hbytes : Rust.signDataTag (r.rust payload).payload =
      (utf8Encode (js payload.tag), payload.bytes) := by
    cases payload with
    | text t => rfl
    | binary b64 =>
      obtain ⟨digits, pad, hstandard⟩ := h
      have heq : b64Decode (utf8Encode b64) = lenientDecode b64 := by
        rw [hstandard.b64Decode, hstandard.lenientDecode]
      simp only [SigningRequest.rust, Rust.signDataTag, heq]
      rfl
  have hfields : (r.rust payload).workchain = r.workchain ∧ (r.rust payload).addressHash = r.addressHash ∧
      (r.rust payload).domain = r.domain ∧ (r.rust payload).timestamp = r.timestamp := by
    cases payload <;> exact ⟨rfl, rfl, rfl, rfl⟩
  obtain ⟨hworkchain, haddress, hdomain, htime⟩ := hfields
  unfold Rust.signDataMessage
  rw [hbytes, hworkchain, haddress, hdomain, htime]
  simp only [be32_length, be32_workchain, be64_eq, SignDataInput.message, signDataMessage,
    SigningRequest.reference, r.address_eq, Int.toNat_natCast]

/-- The port in Go builds the same message about the bytes that it reads. -/
theorem go_message (r : SigningRequest) (payload : SignDataPayload) :
    Go.signDataMessage (r.go payload) =
      signDataMessage r.workchain.toInt r.addressHash.toList (utf8Encode r.domain) r.timestamp.toNat
        payload.tag (Go.signDataTag (r.go payload)).2 := by
  have htag : (Go.signDataTag (r.go payload)).1 = utf8Encode (js payload.tag) := by
    cases payload <;> rfl
  have hfields : (r.go payload).workchain = r.workchain ∧ (r.go payload).addressHash = r.addressHash ∧
      (r.go payload).domain = r.domain ∧ (r.go payload).timestamp = r.timestamp := by
    cases payload <;> exact ⟨rfl, rfl, rfl, rfl⟩
  obtain ⟨hworkchain, haddress, hdomain, htime⟩ := hfields
  unfold Go.signDataMessage
  simp only [htag, hworkchain, haddress, hdomain, htime, be32_length, be32_workchain, be64_eq,
    signDataMessage, Int.toNat_natCast]

/-- The port in Go reads the bytes of a payload just if its decoder reads the text as a whole. -/
theorem go_bytes (h : StandardPayload payload) :
    (Go.signDataTag (r.go payload)).2 = payload.bytes ↔ ReadPayload payload := by
  cases payload with
  | text t => exact iff_of_true rfl trivial
  | binary b64 =>
    obtain ⟨digits, pad, hstandard⟩ := h
    have hgo : (Go.signDataTag (r.go (.binary b64))).2 = (strictDecode b64).1 := rfl
    rw [hgo, SignDataPayload.bytes, hstandard.lenientDecode, hstandard.strictDecode_iff]
    rfl

theorem reference_message (r : SigningRequest) (payload : SignDataPayload) :
    (r.reference payload).message = signDataMessage r.workchain.toInt r.addressHash.toList
      (utf8Encode r.domain) r.timestamp.toNat payload.tag payload.bytes := by
  rw [SignDataInput.message, SigningRequest.reference, r.address_eq]

/-- The message of the port in Go is the one of the reference implementation just if it reads the payload. -/
theorem go_message_iff (h : StandardPayload payload) :
    Go.signDataMessage (r.go payload) = (r.reference payload).message ↔ ReadPayload payload := by
  rw [← go_bytes (r := r) h, go_message, reference_message]
  constructor
  · intro heq
    have hlow := Int32.le_toInt r.workchain
    have hhigh := Int32.toInt_lt r.workchain
    have htime := r.timestamp.toNat_lt
    have hfits : CommitFields.Fits ⟨r.workchain.toInt, r.addressHash.toList, utf8Encode r.domain,
        r.timestamp.toNat⟩ :=
      { workchain := by dsimp only; omega
        addressHash := Vector.length_toList
        domain := r.domain_short
        timestamp := by dsimp only; omega }
    exact (signDataMessage_inj hfits hfits payload.isTag payload.isTag heq).2.2
  · intro heq
    rw [heq]

/-- The digests of the reference implementation and of the port in Rust are one for all standard payloads. The
port in Go has this digest too for the payloads that it reads as a whole, and for no others, as far as `sha256`
does not collide on the two messages. The three digests of a proof are always one. -/
theorem signing_digests_agree (r : SigningRequest) :
    (∀ payload, StandardPayload payload →
      signDataDigest (r.reference payload) = .ok (Rust.signDataDigest (r.rust payload)) ∧
      (ReadPayload payload → r.SignDataAgree payload) ∧
      (TellsApart [Rust.signDataMessage (r.rust payload), Go.signDataMessage (r.go payload)] →
        r.SignDataAgree payload → ReadPayload payload)) ∧
    ∀ proofPayload, r.TonProofAgree proofPayload := by
  constructor
  · intro payload hstandard
    have hrust : signDataDigest (r.reference payload) = .ok (Rust.signDataDigest (r.rust payload)) := by
      rw [reference_digest, Rust.signDataDigest, rust_message hstandard]
    refine ⟨hrust, ?_, ?_⟩
    · intro hread
      refine ⟨hrust, ?_⟩
      rw [Rust.signDataDigest, Go.signDataDigest, rust_message hstandard, (go_message_iff hstandard).mpr hread]
    · rintro hfree ⟨-, hgo⟩
      have heq := hfree.eq hgo
      rw [rust_message hstandard] at heq
      exact (go_message_iff hstandard).mp heq.symm
  · intro proofPayload
    refine ⟨?_, rfl⟩
    have hlow := Int32.le_toInt r.workchain
    have hhigh := Int32.toInt_lt r.workchain
    have htime := r.timestamp.toNat_lt
    refine tonProofDigest_eq_ok.mpr ⟨?_, ?_, ?_⟩
    · dsimp only
      omega
    · dsimp only
      omega
    · simp only [Rust.tonProofDigest, be32_workchain, le32_length, le64_eq, tonProofOuter,
        TonProofInput.inner, tonProofInner, r.address_eq, Int.toNat_natCast]

end Requests

/-- A request about an address of zeros. -/
def plainRequest : SigningRequest where
  workchain := 0
  addressHashHex := List.replicate 64 48
  addressHash := Vector.replicate 32 0
  address_eq := by decide
  domain := js "terra.example"
  domain_wellFormed := by decide
  domain_short := by decide
  timestamp := 0

/-- One byte in base64, with its padding and without: the strict decoder reads the first text only. -/
theorem byte_standard : StandardDigits (js "QQ==") (js "QQ") (js "==") ∧
    StandardDigits (js "QQ") (js "QQ") [] :=
  have hdigits : ∀ u ∈ js "QQ", (base64Value u).isSome = true := List.all_eq_true.mp (by decide)
  ⟨⟨by decide, hdigits, by decide, .inr (by decide)⟩, ⟨by decide, hdigits, by decide, .inl rfl⟩⟩

theorem byte_read : ReadStrictly (js "QQ==") ∧ ¬ReadStrictly (js "QQ") := by
  rw [← byte_standard.1.strictDecode_iff, ← byte_standard.2.strictDecode_iff]
  decide

theorem byte_digests : Rust.signDataDigest (plainRequest.rust (.binary (js "QQ"))) ≠
    Go.signDataDigest (plainRequest.go (.binary (js "QQ"))) := by decide +kernel

theorem tellsApart_of_ne {m m' : List UInt8} (h : sha256 m ≠ sha256 m') : TellsApart [m, m'] := by
  intro a ha b hb heq
  simp only [List.mem_cons, List.not_mem_nil, or_false] at ha hb
  rcases ha with rfl | rfl <;> rcases hb with rfl | rfl
  · rfl
  · exact absurd heq h
  · exact absurd heq.symm h
  · rfl

/-- The three digests of the byte are one with its padding, and not without it. -/
theorem signing_digests_byte : plainRequest.SignDataAgree (.binary (js "QQ==")) ∧
    ¬plainRequest.SignDataAgree (.binary (js "QQ")) := by
  obtain ⟨-, hread, -⟩ :=
    (signing_digests_agree plainRequest).1 (.binary (js "QQ==")) ⟨_, _, byte_standard.1⟩
  obtain ⟨-, -, honly⟩ :=
    (signing_digests_agree plainRequest).1 (.binary (js "QQ")) ⟨_, _, byte_standard.2⟩
  exact ⟨hread byte_read.1, fun h => byte_read.2 (honly (tellsApart_of_ne byte_digests) h)⟩

/-- Without its padding the byte is signed in Rust and lost in Go. -/
theorem signing_digests_part : ¬∀ (r : SigningRequest) (payload : SignDataPayload),
    StandardPayload payload → r.SignDataAgree payload := by
  intro h
  exact byte_digests (h plainRequest (.binary (js "QQ")) ⟨_, _, byte_standard.2⟩).2

end ParadigmTerra.Ports
