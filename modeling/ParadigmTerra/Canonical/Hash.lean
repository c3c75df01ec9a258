import ParadigmTerra.Canonical.Jcs

/-!
# Hashes and roots

`sha256` is the standard hash function, on words as natural numbers below `2 ^ 32`. The canonical
hashes put the bytes of a domain tag in front of the payload, and the roots are binary Merkle trees
over such hashes that repeat the last node of an odd level.
-/

namespace ParadigmTerra

open Text Fallible

/-! ## SHA-256 -/

/-- The round constants. -/
def sha256K : List ℕ := [
  0x428a2f98, 0x71374491, 0xb5c0fbcf, 0xe9b5dba5, 0x3956c25b, 0x59f111f1, 0x923f82a4, 0xab1c5ed5,
  0xd807aa98, 0x12835b01, 0x243185be, 0x550c7dc3, 0x72be5d74, 0x80deb1fe, 0x9bdc06a7, 0xc19bf174,
  0xe49b69c1, 0xefbe4786, 0x0fc19dc6, 0x240ca1cc, 0x2de92c6f, 0x4a7484aa, 0x5cb0a9dc, 0x76f988da,
  0x983e5152, 0xa831c66d, 0xb00327c8, 0xbf597fc7, 0xc6e00bf3, 0xd5a79147, 0x06ca6351, 0x14292967,
  0x27b70a85, 0x2e1b2138, 0x4d2c6dfc, 0x53380d13, 0x650a7354, 0x766a0abb, 0x81c2c92e, 0x92722c85,
  0xa2bfe8a1, 0xa81a664b, 0xc24b8b70, 0xc76c51a3, 0xd192e819, 0xd6990624, 0xf40e3585, 0x106aa070,
  0x19a4c116, 0x1e376c08, 0x2748774c, 0x34b0bcb5, 0x391c0cb3, 0x4ed8aa4a, 0x5b9cca4f, 0x682e6ff3,
  0x748f82ee, 0x78a5636f, 0x84c87814, 0x8cc70208, 0x90befffa, 0xa4506ceb, 0xbef9a3f7, 0xc67178f2]

/-- The working variables. -/
structure ShaState where
  (a b c d e f g h : ℕ)

/-- The initial hash value. -/
def ShaState.initial : ShaState :=
  ⟨0x6a09e667, 0xbb67ae85, 0x3c6ef372, 0xa54ff53a, 0x510e527f, 0x9b05688c, 0x1f83d9ab, 0x5be0cd19⟩

/-- Continues with a number that is computed first. -/
def computed {α : Type} (n : ℕ) (k : ℕ → α) : α :=
  match n with
  | 0 => k 0
  | n + 1 => k (n + 1)

def rotr (n x : ℕ) : ℕ := (x >>> n) ||| ((x <<< (32 - n)) % 2 ^ 32)

/-- The message schedule, last word first, with `n` more words. -/
def shaSchedule : ℕ → List ℕ → List ℕ
  | 0, w => w
  | n + 1, w =>
    let s0 := rotr 7 (w.getD 14 0) ^^^ rotr 18 (w.getD 14 0) ^^^ (w.getD 14 0 >>> 3)
    let s1 := rotr 17 (w.getD 1 0) ^^^ rotr 19 (w.getD 1 0) ^^^ (w.getD 1 0 >>> 10)
    computed ((s1 + w.getD 6 0 + s0 + w.getD 15 0) % 2 ^ 32) fun x => shaSchedule n (x :: w)

/-- One round, with its constant and its word of the schedule. -/
def shaRound (s : ShaState) (kw : ℕ × ℕ) : ShaState :=
  let ch := (s.e &&& s.f) ^^^ ((0xffffffff - s.e) &&& s.g)
  let maj := (s.a &&& s.b) ^^^ (s.a &&& s.c) ^^^ (s.b &&& s.c)
  computed (s.h + (rotr 6 s.e ^^^ rotr 11 s.e ^^^ rotr 25 s.e) + ch + kw.1 + kw.2) fun t1 =>
  computed ((s.d + t1) % 2 ^ 32) fun e =>
  computed ((t1 + (rotr 2 s.a ^^^ rotr 13 s.a ^^^ rotr 22 s.a) + maj) % 2 ^ 32) fun a =>
  ⟨a, s.a, s.b, s.c, e, s.e, s.f, s.g⟩

/-- The compression of one block of sixteen words. -/
def shaCompress (s : ShaState) (block : List ℕ) : ShaState :=
  let t := (sha256K.zip (shaSchedule 48 block.reverse).reverse).foldl shaRound s
  computed ((s.a + t.a) % 2 ^ 32) fun a => computed ((s.b + t.b) % 2 ^ 32) fun b =>
  computed ((s.c + t.c) % 2 ^ 32) fun c => computed ((s.d + t.d) % 2 ^ 32) fun d =>
  computed ((s.e + t.e) % 2 ^ 32) fun e => computed ((s.f + t.f) % 2 ^ 32) fun f =>
  computed ((s.g + t.g) % 2 ^ 32) fun g => computed ((s.h + t.h) % 2 ^ 32) fun h =>
  ⟨a, b, c, d, e, f, g, h⟩

/-- Big-endian words of a message. -/
def shaWords : List ℕ → List ℕ
  | a :: b :: c :: d :: r => (a * 0x1000000 + b * 0x10000 + c * 0x100 + d) :: shaWords r
  | _ => []

/-- A number in big-endian bytes. -/
def bytesBe (len n : ℕ) : List UInt8 :=
  (List.range len).reverse.map fun i => UInt8.ofNat (n / 256 ^ i % 256)

/-- The message with its padding. -/
def shaPad (m : List UInt8) : List UInt8 :=
  m ++ [0x80] ++ List.replicate ((119 - m.length % 64) % 64) 0 ++ bytesBe 8 (8 * m.length)

/-- The blocks of a padded message. -/
def shaBlocks : ℕ → List ℕ → List (List ℕ)
  | 0, _ => []
  | n + 1, w => if w.isEmpty then [] else w.take 16 :: shaBlocks n (w.drop 16)

def sha256 (m : List UInt8) : List UInt8 :=
  let words := shaWords ((shaPad m).map UInt8.toNat)
  let s := (shaBlocks words.length words).foldl shaCompress .initial
  bytesBe 4 s.a ++ bytesBe 4 s.b ++ bytesBe 4 s.c ++ bytesBe 4 s.d ++
    bytesBe 4 s.e ++ bytesBe 4 s.f ++ bytesBe 4 s.g ++ bytesBe 4 s.h

@[simp] theorem length_sha256 (m : List UInt8) : (sha256 m).length = 32 := by
  simp [sha256, bytesBe]

/-! ## Domain tags -/

/-- The tags that the modelled hashes use. -/
inductive DomainTag
  | MERKLE_LEAF_V1 | MERKLE_NODE_V1 | STATE_V1 | EVENT_V1 | CAL_V1 | STATE_ROOT_V1
  deriving DecidableEq, Repr

/-- The text of a tag. -/
def DomainTag.text : DomainTag → Str
  | MERKLE_LEAF_V1 => js "PARADIGM_TERRA_MERKLE_LEAF_V1"
  | MERKLE_NODE_V1 => js "PARADIGM_TERRA_MERKLE_NODE_V1"
  | STATE_V1 => js "PARADIGM_TERRA_STATE_V1"
  | EVENT_V1 => js "PARADIGM_TERRA_EVENT_V1"
  | CAL_V1 => js "PARADIGM_TERRA_CAL_V1"
  | STATE_ROOT_V1 => js "PARADIGM_TERRA_STATE_ROOT_V1"

/-- A hash under a domain tag. Every tag is ASCII, so that the check of the tag passes. -/
def domainHash (tag : DomainTag) (payload : List UInt8) : List UInt8 :=
  sha256 (utf8Encode tag.text ++ payload)

@[simp] theorem length_domainHash (tag : DomainTag) (payload : List UInt8) :
    (domainHash tag payload).length = 32 := length_sha256 _

/-- Bytes in lower-case hex. -/
def toHex (bytes : List UInt8) : Str :=
  bytes.flatMap fun b => [hexDigit (b.toNat / 16), hexDigit (b.toNat % 16)]

/-- Bytes in hex behind `0x`. -/
def hex (bytes : List UInt8) : Str := js "0x" ++ toHex bytes

/-! ## Merkle roots -/

/-- The level above a level of nodes. -/
def merkleLevel (tag : DomainTag) : List (List UInt8) → List (List UInt8)
  | a :: b :: r => domainHash tag (a ++ b) :: merkleLevel tag r
  | [a] => [domainHash tag (a ++ a)]
  | [] => []

theorem length_merkleLevel (tag : DomainTag) (l : List (List UInt8)) :
    (merkleLevel tag l).length = (l.length + 1) / 2 := by
  induction l using merkleLevel.induct with
  | case1 a b r ih =>
    simp only [merkleLevel, List.length_cons, ih]
    omega
  | case2 a => simp [merkleLevel]
  | case3 => simp [merkleLevel]

/-- The root over a level; `n` levels are enough for `2 ^ n` leaves. -/
def merkleRoot (tag : DomainTag) : ℕ → List (List UInt8) → List UInt8
  | _, [a] => a
  | n + 1, l => merkleRoot tag n (merkleLevel tag l)
  | 0, _ => []

def binaryMerkle (leafHashes : List (List UInt8)) (tag : DomainTag) : Except Throw (List UInt8) := do
  require (leafHashes ≠ []) (.canonicalEncoding "MERKLE_EMPTY")
  require (leafHashes.all (fun h => h.length == 32) = true)
    (.canonicalEncoding "MERKLE_BAD_LEAF_LEN")
  pure (merkleRoot tag leafHashes.length leafHashes)

/-- A leaf of the stream tree. -/
structure StreamLeaf where
  streamId : Str
  stateHash : List UInt8
  lastEventHash : List UInt8
  lastSeqno : ℕ

def streamLeafHash (H : Host) (leaf : StreamLeaf) : Except Throw (List UInt8) := do
  require (leaf.stateHash.length = 32) (.canonicalEncoding "MERKLE_BAD_STATE_HASH_LEN")
  require (leaf.lastEventHash.length = 32) (.canonicalEncoding "MERKLE_BAD_EVENT_HASH_LEN")
  let id ← utf8NfcBytes H leaf.streamId
  require (id.length ≤ 0xffff) (.canonicalEncoding "MERKLE_STREAM_ID_TOO_LONG")
  require (leaf.lastSeqno < 2 ^ 64) (.canonicalEncoding "UINT64_OUT_OF_RANGE")
  pure (domainHash .MERKLE_LEAF_V1
    (bytesBe 2 id.length ++ id ++ leaf.stateHash ++ leaf.lastEventHash ++ bytesBe 8 leaf.lastSeqno))

/-- The stream tree's root over one stream. -/
def streamTreeRoot (H : Host) (leaf : StreamLeaf) : Except Throw (List UInt8) := do
  let h ← streamLeafHash H leaf
  binaryMerkle [h] .MERKLE_NODE_V1

/-- A namespace of the state root: its name and its canonical bytes. -/
structure StateNamespace where
  name : Str
  canonicalBytes : List UInt8

def stateNamespaceLeafHash (H : Host) (ns : StateNamespace) : Except Throw (List UInt8) := do
  let inner := domainHash .STATE_V1 ns.canonicalBytes
  let name ← utf8NfcBytes H ns.name
  require (name.length ≤ 0xffff) (.canonicalEncoding "STATE_ROOT_NAME_TOO_LONG")
  pure (domainHash .STATE_ROOT_V1 (bytesBe 2 name.length ++ name ++ inner))

/-- The state root over namespaces, in the order of the bytes of their names. -/
def stateRoot (H : Host) (namespaces : List StateNamespace) : Except Throw (List UInt8) := do
  require (namespaces ≠ []) (.canonicalEncoding "STATE_ROOT_EMPTY")
  require ((namespaces.map StateNamespace.name).Nodup)
    (.canonicalEncoding "STATE_ROOT_DUPLICATE_NAMESPACE")
  let keyed ← namespaces.mapM fun ns => do
    let b ← utf8NfcBytes H ns.name
    pure (b, ns)
  let sorted := keyed.insertionSort fun a b => bytesLe a.1 b.1 = true
  let leafHashes ← sorted.mapM fun e => stateNamespaceLeafHash H e.2
  binaryMerkle leafHashes .STATE_ROOT_V1

end ParadigmTerra
