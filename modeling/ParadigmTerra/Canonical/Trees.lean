import ParadigmTerra.Canonical.Hash
import ParadigmTerra.Canonical.NormalForm
import ParadigmTerra.Lib.KeyedTree

/-!
# What the roots of lists commit to

The stream tree and the state root are trees over lists of leaves, in the order of the bytes of their names.
`merkle_commits_iff` says for which two lists the roots are independent of the order and equal only for the
same leaves up to NFC of the names: leaves of one name are equal, and lists that are filled up to one complete
tree have one length. Nothing keeps a list of streams from repeating a leaf, and the check of the state root
compares names before they are normalized.
-/

namespace ParadigmTerra

open Text Fallible Merkle Sorting

/-- The root of the stream tree, over leaves in the order of the bytes of their ids. The ids are read before
they are compared, which only decides which error is thrown first. -/
def streamTreeRootOf (H : Host) (leaves : List StreamLeaf) : Except Throw (List UInt8) := do
  require (leaves ≠ []) (.canonicalEncoding "MERKLE_EMPTY")
  let keyed ← leaves.mapM fun leaf => do
    let b ← utf8NfcBytes H leaf.streamId
    pure (b, leaf)
  let sorted := keyed.insertionSort fun a b => bytesLe a.1 b.1 = true
  let leafHashes ← sorted.mapM fun e => streamLeafHash H e.2
  binaryMerkle leafHashes .MERKLE_NODE_V1

/-- Over one stream it is that stream's root. -/
theorem streamTreeRootOf_single {H : Host} {leaf : StreamLeaf} {r : List UInt8} :
    streamTreeRootOf H [leaf] = .ok r ↔ streamTreeRoot H leaf = .ok r := by
  simp only [streamTreeRootOf, streamTreeRoot, List.mapM_cons, List.mapM_nil, bind_eq_ok, pure_eq_ok,
    require_eq_ok]
  constructor
  · rintro ⟨-, -, keyed, ⟨p, ⟨b, -, rfl⟩, -, rfl, rfl⟩, hashes, hhashes, h⟩
    rw [List.insertionSort_cons, List.insertionSort_nil, List.orderedInsert_nil, List.mapM_cons,
      List.mapM_nil] at hhashes
    simp only [bind_eq_ok, pure_eq_ok] at hhashes
    obtain ⟨x, hx, -, rfl, rfl⟩ := hhashes
    exact ⟨x, hx, h⟩
  · rintro ⟨x, hx, h⟩
    have hid : ∃ b, utf8NfcBytes H leaf.streamId = .ok b := by
      simp only [streamLeafHash, bind_eq_ok] at hx
      obtain ⟨-, -, -, -, b, hb, -⟩ := hx
      exact ⟨b, hb⟩
    obtain ⟨b, hb⟩ := hid
    refine ⟨(), by simp, _, ⟨_, ⟨b, hb, rfl⟩, _, rfl, rfl⟩, [x], ?_, h⟩
    rw [List.insertionSort_cons, List.insertionSort_nil, List.orderedInsert_nil, List.mapM_cons,
      List.mapM_nil, hx]
    rfl

/-! ## Bytes -/

/-- The order of the leaves. -/
def BytesLe (a b : List UInt8) : Prop := bytesLe a b = true

instance : DecidableRel BytesLe := fun a b => inferInstanceAs (Decidable (bytesLe a b = true))

instance : Std.Total BytesLe := ⟨bytesLe_total⟩

instance : IsTrans (List UInt8) BytesLe := ⟨fun _ _ _ => bytesLe_trans⟩

instance : Std.Antisymm BytesLe := ⟨fun _ _ => bytesLe_antisymm⟩

theorem mod_pow_eq_of_digits {len m n : ℕ} (h : ∀ i < len, m / 256 ^ i % 256 = n / 256 ^ i % 256) :
    m % 256 ^ len = n % 256 ^ len := by
  induction len with
  | zero => rw [Nat.pow_zero, Nat.mod_one, Nat.mod_one]
  | succ len ih =>
    rw [Nat.mod_pow_succ, Nat.mod_pow_succ, ih fun i hi => h i (by omega), h len (by omega)]

/-- A number is determined by as many bytes as it needs. -/
theorem bytesBe_inj {len m n : ℕ} (hm : m < 256 ^ len) (hn : n < 256 ^ len)
    (h : bytesBe len m = bytesBe len n) : m = n := by
  have hdigits : ∀ i < len, m / 256 ^ i % 256 = n / 256 ^ i % 256 := by
    intro i hi
    have hbyte := List.map_inj_left.mp h i (by simpa using hi)
    have hnat := congrArg UInt8.toNat hbyte
    simp only [UInt8.toNat_ofNat'] at hnat
    omega
  have hmod := mod_pow_eq_of_digits hdigits
  rwa [Nat.mod_eq_of_lt hm, Nat.mod_eq_of_lt hn] at hmod

theorem length_bytesBe (len n : ℕ) : (bytesBe len n).length = len := by simp [bytesBe]

/-- The bytes of a name, after NFC. -/
def nameBytes (H : Host) (name : Str) : List UInt8 := utf8Encode (H.normalize name)

theorem utf8NfcBytes_spec {H : Host} {s : Str} {b : List UInt8} (h : utf8NfcBytes H s = .ok b) :
    wellFormed (H.normalize s) = true ∧ b = nameBytes H s := by
  simp only [utf8NfcBytes, bind_eq_ok, require_eq_ok, pure_eq_ok] at h
  obtain ⟨-, -, -, -, _, hwf, rfl⟩ := h
  exact ⟨hwf, rfl⟩

/-- A name with its length in front is told apart from what follows it. -/
theorem named_inj {a b r s : List UInt8} (ha : a.length ≤ 0xffff) (hb : b.length ≤ 0xffff)
    (h : bytesBe 2 a.length ++ a ++ r = bytesBe 2 b.length ++ b ++ s) : a = b ∧ r = s := by
  rw [List.append_assoc, List.append_assoc] at h
  obtain ⟨hlength, hrest⟩ := List.append_inj h (by rw [length_bytesBe, length_bytesBe])
  have heq : a.length = b.length := bytesBe_inj (by omega) (by omega) hlength
  exact List.append_inj hrest heq

/-! ## Roots of sorted leaves -/

/-- An inner node. -/
def taggedNode (tag : DomainTag) (a b : List UInt8) : List UInt8 := domainHash tag (a ++ b)

theorem merkleLevel_eq (tag : DomainTag) (l : List (List UInt8)) :
    merkleLevel tag l = level (taggedNode tag) l := by
  induction l using merkleLevel.induct with
  | case1 a b r ih =>
    rw [merkleLevel, ih]
    rfl
  | case2 a => rfl
  | case3 => rfl

/-- The root is the one node of the highest level. -/
theorem merkleRoot_eq {tag : DomainTag} {n : ℕ} {l : List (List UInt8)} (hne : l ≠ [])
    (hn : l.length ≤ n + 1) : levels (taggedNode tag) (height l) l = [merkleRoot tag n l] := by
  induction n generalizing l with
  | zero =>
    match l with
    | [a] => rfl
    | _ :: _ :: _ => simp at hn
  | succ n ih =>
    match l with
    | [a] => rfl
    | a :: b :: r =>
      have hheight : height (a :: b :: r) = height (level (taggedNode tag) (a :: b :: r)) + 1 :=
        height_level (by simp)
      have hlength := @length_level _ (taggedNode tag) (a :: b :: r)
      rw [hheight, levels, merkleRoot, merkleLevel_eq]
      · refine ih ?_ ?_
        · rw [Ne, level, List.map_eq_nil_iff]
          exact pairs_ne_nil (by simp)
        · rw [hlength]
          rw [List.length_cons, List.length_cons] at hn ⊢
          omega
      · simp

section Sorted

variable {E : Type} (H : Host) (name : E → Str) (leafHash : E → Except Throw (List UInt8)) (tag : DomainTag)

/-- The root over leaves in the order of the bytes of their names. -/
def sortedRoot (l : List E) : Except Throw (List UInt8) := do
  let keyed ← l.mapM fun e => do
    let b ← utf8NfcBytes H (name e)
    pure (b, e)
  let sorted := keyed.insertionSort fun a b => bytesLe a.1 b.1 = true
  let leafHashes ← sorted.mapM fun e => leafHash e.2
  binaryMerkle leafHashes tag

theorem streamTreeRootOf_eq (l : List StreamLeaf) : streamTreeRootOf H l = (do
    require (l ≠ []) (.canonicalEncoding "MERKLE_EMPTY")
    sortedRoot H StreamLeaf.streamId (streamLeafHash H) .MERKLE_NODE_V1 l) := rfl

theorem stateRoot_eq (l : List StateNamespace) : stateRoot H l = (do
    require (l ≠ []) (.canonicalEncoding "STATE_ROOT_EMPTY")
    require ((l.map StateNamespace.name).Nodup) (.canonicalEncoding "STATE_ROOT_DUPLICATE_NAMESPACE")
    sortedRoot H StateNamespace.name (stateNamespaceLeafHash H) .STATE_ROOT_V1 l) := rfl

/-- The key of a leaf. -/
def leafKey (e : E) : List UInt8 := nameBytes H (name e)

/-- When the leaf of an element is made, and what it is. -/
structure LeafSpec (Fits : E → Prop) (hash : E → List UInt8) : Prop where
  eq_ok : ∀ e h, leafHash e = .ok h ↔ Fits e ∧ h = hash e
  named : ∀ e, Fits e → ∃ b, utf8NfcBytes H (name e) = .ok b
  length : ∀ e, (hash e).length = 32

variable {H name leafHash tag} {Fits : E → Prop} {hash : E → List UInt8} {l : List E}

theorem keyed_eq (h : ∀ e ∈ l, ∃ b, utf8NfcBytes H (name e) = .ok b) :
    (l.mapM fun e => do
      let b ← utf8NfcBytes H (name e)
      pure (b, e) : Except Throw (List (List UInt8 × E))) = .ok (l.map fun e => (leafKey H name e, e)) := by
  rw [mapM_ok, List.forall₂_map_right_iff, List.forall₂_same]
  intro e he
  obtain ⟨b, hb⟩ := h e he
  rw [hb, (utf8NfcBytes_spec hb).2]
  rfl

theorem sorted_eq : (l.map fun e => (leafKey H name e, e)).insertionSort (fun a b => bytesLe a.1 b.1 = true) =
    (sortBy (leafKey H name) BytesLe l).map fun e => (leafKey H name e, e) :=
  (List.map_insertionSort (fun a b => BytesLe (leafKey H name a) (leafKey H name b))
    (fun a b : List UInt8 × E => bytesLe a.1 b.1 = true) (fun e => (leafKey H name e, e)) l
    fun _ _ _ _ => Iff.rfl).symm

/-- Leaves that are made have a root, which is the one of the tree over them. -/
theorem sortedRoot_of_fits (hspec : LeafSpec H name leafHash Fits hash) (hne : l ≠ [])
    (hfits : ∀ e ∈ l, Fits e) : ∃ r, sortedRoot H name leafHash tag l = .ok r ∧
      rootOf (leafKey H name) BytesLe hash (taggedNode tag) l = [r] := by
  have hleaves : ((sortBy (leafKey H name) BytesLe l).map fun e => (leafKey H name e, e)).mapM
      (fun e => leafHash e.2) = .ok (leavesOf (leafKey H name) BytesLe hash l) := by
    rw [leavesOf, mapM_ok, List.forall₂_map_left_iff, List.forall₂_map_right_iff, List.forall₂_same]
    intro e he
    exact (hspec.eq_ok e _).mpr ⟨hfits e ((mem_sortBy _ _).mp he), rfl⟩
  have hall : (leavesOf (leafKey H name) BytesLe hash l).all (fun h => h.length == 32) = true := by
    rw [leavesOf, List.all_map]
    exact List.all_eq_true.mpr fun e _ => by simp [hspec.length e]
  have hleavesne : leavesOf (leafKey H name) BytesLe hash l ≠ [] := leavesOf_ne_nil hne
  refine ⟨merkleRoot tag (leavesOf (leafKey H name) BytesLe hash l).length
    (leavesOf (leafKey H name) BytesLe hash l), ?_, merkleRoot_eq hleavesne (Nat.le_succ _)⟩
  simp only [sortedRoot, keyed_eq fun e he => hspec.named e (hfits e he), ok_bind, sorted_eq, hleaves,
    binaryMerkle, require, hleavesne, ne_eq, not_false_eq_true, if_true, hall]
  rfl

/-- Each element of a mapped list has its result. -/
theorem exists_mem_of_mapM {α β : Type} {f : α → Except Throw β} {l : List α} {ys : List β}
    (h : l.mapM f = .ok ys) {a : α} (ha : a ∈ l) : ∃ y ∈ ys, f a = .ok y := by
  have hforall := mapM_ok.mp h
  clear h
  induction hforall with
  | nil => cases ha
  | cons hab _ ih =>
    rcases List.mem_cons.mp ha with rfl | ha
    · exact ⟨_, List.mem_cons_self, hab⟩
    · obtain ⟨y, hy, hfa⟩ := ih ha
      exact ⟨y, List.mem_cons_of_mem _ hy, hfa⟩

/-- A root means that every leaf is made. -/
theorem fits_of_sortedRoot (hspec : LeafSpec H name leafHash Fits hash) {r : List UInt8}
    (h : sortedRoot H name leafHash tag l = .ok r) : ∀ e ∈ l, Fits e := by
  simp only [sortedRoot, bind_eq_ok] at h
  obtain ⟨keyed, hkeyed, leaves, hleaves, -⟩ := h
  intro e he
  have hmem : (leafKey H name e, e) ∈ keyed := by
    obtain ⟨p, hp, hpe⟩ := exists_mem_of_mapM hkeyed he
    simp only [bind_eq_ok, pure_eq_ok] at hpe
    obtain ⟨b, hb, rfl⟩ := hpe
    rwa [(utf8NfcBytes_spec hb).2] at hp
  obtain ⟨h, -, hh⟩ := exists_mem_of_mapM hleaves ((List.mem_insertionSort _).mpr hmem)
  exact ((hspec.eq_ok e h).mp hh).1

end Sorted

/-! ## Commitment -/

/-- The roots of two lists depend on no order, and are equal only for the same leaves. -/
structure RootCommits {E : Type} (root : List E → Except Throw (List UInt8)) (canon : E → E)
    (l l' : List E) : Prop where
  order : ∀ k, l.Perm k → root k = root l
  order' : ∀ k, l'.Perm k → root k = root l'
  leaves : root l = root l' → (l.map canon).Perm (l'.map canon)

/-- The payloads of the inner nodes of a tree, with their tag. -/
def nodePayloads (tag : DomainTag) (leaves : List (List UInt8)) : List (DomainTag × List UInt8) :=
  (combined (taggedNode tag) (height leaves) leaves).map fun p => (tag, p.1 ++ p.2)

/-- No two of the payloads collide that are hashed for the orders of the two lists. -/
def NoCollision {E : Type} (payloads : List E → List (DomainTag × List UInt8)) (l l' : List E) : Prop :=
  ∀ k k', (l.Perm k ∨ l'.Perm k) → (l.Perm k' ∨ l'.Perm k') → ∀ e ∈ payloads k, ∀ f ∈ payloads k',
    domainHash e.1 e.2 = domainHash f.1 f.2 → e = f

/-- Nodes over hashes are told apart by their parts. -/
theorem node_inj {tag : DomainTag} {P Q : List (DomainTag × List UInt8)} {leaves leaves' : List (List UInt8)}
    (hP : ∀ e ∈ nodePayloads tag leaves, e ∈ P) (hQ : ∀ e ∈ nodePayloads tag leaves', e ∈ Q)
    (hfree : ∀ e ∈ P, ∀ f ∈ Q, domainHash e.1 e.2 = domainHash f.1 f.2 → e = f)
    (hlength : ∀ a ∈ leaves, a.length = 32) (hlength' : ∀ a ∈ leaves', a.length = 32) :
    ∀ p ∈ combined (taggedNode tag) (height leaves) leaves,
      ∀ q ∈ combined (taggedNode tag) (height leaves') leaves',
        taggedNode tag p.1 p.2 = taggedNode tag q.1 q.2 → p = q := by
  intro p hp q hq heq
  have hpayload := hfree _ (hP _ (List.mem_map_of_mem hp)) _ (hQ _ (List.mem_map_of_mem hq)) heq
  have hpq : p.1 ++ p.2 = q.1 ++ q.2 := (Prod.mk.inj hpayload).2
  have hsize : ∀ l : List (List UInt8), (∀ a ∈ l, a.length = 32) →
      ∀ p ∈ combined (taggedNode tag) (height l) l, p.1.length = 32 ∧ p.2.length = 32 := fun l hl =>
    forall_mem_combined (P := fun b : List UInt8 => b.length = 32) (fun a b => length_domainHash _ _) hl
  have hp1 := (hsize leaves hlength p hp).1
  have hq1 := (hsize leaves' hlength' q hq).1
  obtain ⟨h1, h2⟩ := List.append_inj hpq (hp1.trans hq1.symm)
  exact Prod.ext h1 h2

section Lists

variable {E : Type} {H : Host} {name : E → Str} {leafHash : E → Except Throw (List UInt8)} {tag : DomainTag}
  {Fits : E → Prop} {hash : E → List UInt8} {canon : E → E} {l l' : List E}
  {root : List E → Except Throw (List UInt8)}

/-- Where the roots are those of trees over sorted leaves, they commit as these do. -/
theorem rootCommits_iff (hspec : LeafSpec H name leafHash Fits hash) (hne : l ≠ []) (hne' : l' ≠ [])
    (hfits : ∀ e ∈ l, Fits e) (hfits' : ∀ e ∈ l', Fits e)
    (hroot : ∀ k, (l.Perm k ∨ l'.Perm k) → root k = sortedRoot H name leafHash tag k)
    (hdist : ∀ k k', (l.Perm k ∨ l'.Perm k) → (l.Perm k' ∨ l'.Perm k') →
      Distinct (leafKey H name) BytesLe canon hash (taggedNode tag) k k') :
    RootCommits root canon l l' ↔ Committable (leafKey H name) BytesLe canon l l' := by
  have hvalue : ∀ k, (l.Perm k ∨ l'.Perm k) → ∃ r, root k = .ok r ∧
      rootOf (leafKey H name) BytesLe hash (taggedNode tag) k = [r] := by
    intro k hk
    rw [hroot k hk]
    rcases hk with hk | hk
    · exact sortedRoot_of_fits hspec (fun h => hne (List.perm_nil.mp (h ▸ hk)))
        fun e he => hfits e (hk.mem_iff.mpr he)
    · exact sortedRoot_of_fits hspec (fun h => hne' (List.perm_nil.mp (h ▸ hk)))
        fun e he => hfits' e (hk.mem_iff.mpr he)
  have hiff : ∀ k k', (l.Perm k ∨ l'.Perm k) → (l.Perm k' ∨ l'.Perm k') → (root k = root k' ↔
      rootOf (leafKey H name) BytesLe hash (taggedNode tag) k =
        rootOf (leafKey H name) BytesLe hash (taggedNode tag) k') := by
    intro k k' hk hk'
    obtain ⟨r, hr, htree⟩ := hvalue k hk
    obtain ⟨r', hr', htree'⟩ := hvalue k' hk'
    rw [hr, hr', htree, htree', Except.ok.injEq, List.cons.injEq, and_iff_left rfl]
  have hl : l.Perm l ∨ l'.Perm l := .inl (.refl l)
  have hl' : l.Perm l' ∨ l'.Perm l' := .inr (.refl l')
  have hcommits : Commits (leafKey H name) BytesLe canon hash (taggedNode tag) l l' ↔
      Committable (leafKey H name) BytesLe canon l l' := commits_iff hne hne' hdist
  rw [← hcommits]
  constructor
  · rintro ⟨horder, horder', hleaves⟩
    exact {
      order := fun k hk => (hiff k l (.inl hk) hl).mp (horder k hk)
      order' := fun k hk => (hiff k l' (.inr hk) hl').mp (horder' k hk)
      elements := fun h => hleaves ((hiff l l' hl hl').mpr h) }
  · rintro ⟨horder, horder', helements⟩
    exact {
      order := fun k hk => (hiff k l (.inl hk) hl).mpr (horder k hk)
      order' := fun k hk => (hiff k l' (.inr hk) hl').mpr (horder' k hk)
      leaves := fun h => helements ((hiff l l' hl hl').mp h) }

end Lists

/-! ### Streams -/

/-- A leaf with the NFC of its id. -/
def nfcStream (H : Host) (leaf : StreamLeaf) : StreamLeaf :=
  { leaf with streamId := H.normalize leaf.streamId }

def streamPayload (H : Host) (leaf : StreamLeaf) : List UInt8 :=
  bytesBe 2 (nameBytes H leaf.streamId).length ++ nameBytes H leaf.streamId ++
    (leaf.stateHash ++ (leaf.lastEventHash ++ bytesBe 8 leaf.lastSeqno))

def streamHash (H : Host) (leaf : StreamLeaf) : List UInt8 := domainHash .MERKLE_LEAF_V1 (streamPayload H leaf)

/-- What a leaf has to be. -/
structure StreamFits (H : Host) (leaf : StreamLeaf) : Prop where
  state : leaf.stateHash.length = 32
  event : leaf.lastEventHash.length = 32
  name : ∃ b, utf8NfcBytes H leaf.streamId = .ok b
  short : (nameBytes H leaf.streamId).length ≤ 0xffff
  seqno : leaf.lastSeqno < 2 ^ 64

theorem streamLeafHash_spec (H : Host) :
    LeafSpec H StreamLeaf.streamId (streamLeafHash H) (StreamFits H) (streamHash H) where
  named leaf h := h.name
  length leaf := length_domainHash _ _
  eq_ok leaf h := by
    simp only [streamLeafHash, bind_eq_ok, require_eq_ok, pure_eq_ok]
    constructor
    · rintro ⟨_, hstate, _, hevent, id, hid, _, hshort, _, hseqno, rfl⟩
      rw [(utf8NfcBytes_spec hid).2] at hshort ⊢
      refine ⟨⟨hstate, hevent, ⟨id, hid⟩, hshort, hseqno⟩, ?_⟩
      rw [streamHash, streamPayload]
      simp only [List.append_assoc]
    · rintro ⟨hfits, rfl⟩
      obtain ⟨id, hid⟩ := hfits.name
      refine ⟨(), hfits.state, (), hfits.event, id, hid, (), ?_, (), hfits.seqno, ?_⟩
      · rw [(utf8NfcBytes_spec hid).2]
        exact hfits.short
      · rw [(utf8NfcBytes_spec hid).2, streamHash, streamPayload]
        simp only [List.append_assoc]

/-- All payloads that are hashed for a list of streams. -/
def streamPayloads (H : Host) (l : List StreamLeaf) : List (DomainTag × List UInt8) :=
  (l.map fun leaf => (.MERKLE_LEAF_V1, streamPayload H leaf)) ++
    nodePayloads .MERKLE_NODE_V1 (leavesOf (leafKey H StreamLeaf.streamId) BytesLe (streamHash H) l)

theorem streamPayload_inj {H : Host} {a b : StreamLeaf} (ha : StreamFits H a) (hb : StreamFits H b)
    (h : streamPayload H a = streamPayload H b) : nfcStream H a = nfcStream H b := by
  obtain ⟨hname, hrest⟩ := named_inj ha.short hb.short h
  obtain ⟨hstate, hrest⟩ := List.append_inj hrest (ha.state.trans hb.state.symm)
  obtain ⟨hevent, hseqno⟩ := List.append_inj hrest (ha.event.trans hb.event.symm)
  obtain ⟨x, hx⟩ := ha.name
  obtain ⟨y, hy⟩ := hb.name
  have hid := utf8Encode_inj (utf8NfcBytes_spec hx).1 (utf8NfcBytes_spec hy).1 hname
  have hn := bytesBe_inj (Nat.lt_of_lt_of_eq ha.seqno (by decide)) (Nat.lt_of_lt_of_eq hb.seqno (by decide)) hseqno
  cases a
  cases b
  simp only [nfcStream, StreamLeaf.mk.injEq] at *
  exact ⟨hid, hstate, hevent, hn⟩

theorem streams_distinct {H : Host} {k k' : List StreamLeaf} (hk : ∀ e ∈ k, StreamFits H e)
    (hk' : ∀ e ∈ k', StreamFits H e)
    (hfree : ∀ e ∈ streamPayloads H k, ∀ f ∈ streamPayloads H k', domainHash e.1 e.2 = domainHash f.1 f.2 → e = f) :
    Distinct (leafKey H StreamLeaf.streamId) BytesLe (nfcStream H) (streamHash H)
      (taggedNode .MERKLE_NODE_V1) k k' := by
  have hlength : ∀ k : List StreamLeaf, ∀ a ∈ leavesOf (leafKey H StreamLeaf.streamId) BytesLe (streamHash H) k,
      a.length = 32 := by
    intro k a ha
    obtain ⟨e, -, rfl⟩ := List.mem_map.mp ha
    exact length_domainHash _ _
  have hleaf : ∀ {k : List StreamLeaf} {e}, e ∈ k →
      (DomainTag.MERKLE_LEAF_V1, streamPayload H e) ∈ streamPayloads H k := fun he =>
    List.mem_append_left _ (List.mem_map.mpr ⟨_, he, rfl⟩)
  refine ⟨⟨?_, ?_, ?_⟩, ?_⟩
  · exact node_inj (fun e he => List.mem_append_right _ he) (fun e he => List.mem_append_right _ he) hfree
      (hlength k) (hlength k')
  · -- a leaf and a node have different tags
    intro a ha q hq heq
    obtain ⟨e, he, rfl⟩ := List.mem_map.mp ha
    cases hfree _ (hleaf ((mem_sortBy _ _).mp he)) (.MERKLE_NODE_V1, q.1 ++ q.2)
      (List.mem_append_right _ (List.mem_map_of_mem hq)) heq
  · intro a ha q hq heq
    obtain ⟨e, he, rfl⟩ := List.mem_map.mp ha
    cases hfree (.MERKLE_NODE_V1, q.1 ++ q.2) (List.mem_append_right _ (List.mem_map_of_mem hq)) _
      (hleaf ((mem_sortBy _ _).mp he)) heq.symm
  · intro a ha b hb
    constructor
    · intro heq
      have hfields := StreamLeaf.mk.inj heq
      rw [streamHash, streamHash, streamPayload, streamPayload, nameBytes, nameBytes, hfields.1, hfields.2.1,
        hfields.2.2.1, hfields.2.2.2]
    · intro heq
      exact streamPayload_inj (hk a ha) (hk' b hb) (Prod.mk.inj (hfree _ (hleaf ha) _ (hleaf hb) heq)).2

/-! ### Namespaces -/

/-- A namespace with the NFC of its name. -/
def nfcNamespace (H : Host) (ns : StateNamespace) : StateNamespace := { ns with name := H.normalize ns.name }

def namespacePayload (H : Host) (ns : StateNamespace) : List UInt8 :=
  bytesBe 2 (nameBytes H ns.name).length ++ nameBytes H ns.name ++ domainHash .STATE_V1 ns.canonicalBytes

def namespaceHash (H : Host) (ns : StateNamespace) : List UInt8 :=
  domainHash .STATE_ROOT_V1 (namespacePayload H ns)

structure NamespaceFits (H : Host) (ns : StateNamespace) : Prop where
  name : ∃ b, utf8NfcBytes H ns.name = .ok b
  short : (nameBytes H ns.name).length ≤ 0xffff

theorem stateNamespaceLeafHash_spec (H : Host) :
    LeafSpec H StateNamespace.name (stateNamespaceLeafHash H) (NamespaceFits H) (namespaceHash H) where
  named ns h := h.name
  length ns := length_domainHash _ _
  eq_ok ns h := by
    simp only [stateNamespaceLeafHash, bind_eq_ok, require_eq_ok, pure_eq_ok]
    constructor
    · rintro ⟨id, hid, _, hshort, rfl⟩
      rw [(utf8NfcBytes_spec hid).2] at hshort ⊢
      exact ⟨⟨⟨id, hid⟩, hshort⟩, rfl⟩
    · rintro ⟨hfits, rfl⟩
      obtain ⟨id, hid⟩ := hfits.name
      refine ⟨id, hid, (), ?_, ?_⟩
      · rw [(utf8NfcBytes_spec hid).2]
        exact hfits.short
      · rw [(utf8NfcBytes_spec hid).2]
        rfl

/-- All payloads that are hashed for a list of namespaces. -/
def namespacePayloads (H : Host) (l : List StateNamespace) : List (DomainTag × List UInt8) :=
  (l.map fun ns => (.STATE_V1, ns.canonicalBytes)) ++
    ((l.map fun ns => (.STATE_ROOT_V1, namespacePayload H ns)) ++
      nodePayloads .STATE_ROOT_V1 (leavesOf (leafKey H StateNamespace.name) BytesLe (namespaceHash H) l))

section Namespaces

variable {H : Host} {k k' : List StateNamespace}

theorem mem_namespacePayloads {ns : StateNamespace} (h : ns ∈ k) :
    (DomainTag.STATE_V1, ns.canonicalBytes) ∈ namespacePayloads H k ∧
      (DomainTag.STATE_ROOT_V1, namespacePayload H ns) ∈ namespacePayloads H k :=
  ⟨List.mem_append_left _ (List.mem_map.mpr ⟨ns, h, rfl⟩),
    List.mem_append_right _ (List.mem_append_left _ (List.mem_map.mpr ⟨ns, h, rfl⟩))⟩

/-- A leaf is no node, although they share their tag: a leaf's payload ends in a hash under another tag than
a node's does. -/
theorem namespaceHash_ne_node
    (hfree : ∀ e ∈ namespacePayloads H k, ∀ f ∈ namespacePayloads H k',
      domainHash e.1 e.2 = domainHash f.1 f.2 → e = f) {ns : StateNamespace} (hns : ns ∈ k)
    {q : List UInt8 × List UInt8} (hq : q ∈ combined (taggedNode .STATE_ROOT_V1)
      (height (leavesOf (leafKey H StateNamespace.name) BytesLe (namespaceHash H) k'))
      (leavesOf (leafKey H StateNamespace.name) BytesLe (namespaceHash H) k')) :
    namespaceHash H ns ≠ taggedNode .STATE_ROOT_V1 q.1 q.2 := by
  intro heq
  have hnode : (DomainTag.STATE_ROOT_V1, q.1 ++ q.2) ∈ namespacePayloads H k' :=
    List.mem_append_right _ (List.mem_append_right _ (List.mem_map_of_mem hq))
  have hpayload := (Prod.mk.inj (hfree _ (mem_namespacePayloads hns).2 _ hnode heq)).2
  have hsize := (@forall_mem_combined _ (taggedNode .STATE_ROOT_V1)
    (fun b : List UInt8 => b.length = 32) (fun a b => length_domainHash _ _) _ _ (fun a ha => by
      obtain ⟨e, -, rfl⟩ := List.mem_map.mp ha
      exact length_domainHash _ _) q hq).2
  have hinner := (List.append_inj' hpayload (by rw [length_domainHash, hsize])).2
  -- the second part of a node is a leaf or a node
  rcases mem_or_node_of_combined hq (.inr rfl) with hleaf | ⟨p, hp, hp2⟩
  · obtain ⟨e, he, hleaf⟩ := List.mem_map.mp hleaf
    cases hfree _ (mem_namespacePayloads hns).1 _ (mem_namespacePayloads ((mem_sortBy _ _).mp he)).2
      (hinner.trans hleaf.symm)
  · cases hfree _ (mem_namespacePayloads hns).1 (.STATE_ROOT_V1, p.1 ++ p.2)
      (List.mem_append_right _ (List.mem_append_right _ (List.mem_map_of_mem hp))) (hinner.trans hp2)

theorem namespaces_distinct (hk : ∀ e ∈ k, NamespaceFits H e) (hk' : ∀ e ∈ k', NamespaceFits H e)
    (hfree : ∀ e ∈ namespacePayloads H k, ∀ f ∈ namespacePayloads H k',
      domainHash e.1 e.2 = domainHash f.1 f.2 → e = f) :
    Distinct (leafKey H StateNamespace.name) BytesLe (nfcNamespace H) (namespaceHash H)
      (taggedNode .STATE_ROOT_V1) k k' := by
  have hlength : ∀ k : List StateNamespace,
      ∀ a ∈ leavesOf (leafKey H StateNamespace.name) BytesLe (namespaceHash H) k, a.length = 32 := by
    intro k a ha
    obtain ⟨e, -, rfl⟩ := List.mem_map.mp ha
    exact length_domainHash _ _
  refine ⟨⟨?_, ?_, ?_⟩, ?_⟩
  · exact node_inj (fun e he => List.mem_append_right _ (List.mem_append_right _ he))
      (fun e he => List.mem_append_right _ (List.mem_append_right _ he)) hfree (hlength k) (hlength k')
  · intro a ha q hq
    obtain ⟨e, he, rfl⟩ := List.mem_map.mp ha
    exact namespaceHash_ne_node hfree ((mem_sortBy _ _).mp he) hq
  · intro a ha q hq
    obtain ⟨e, he, rfl⟩ := List.mem_map.mp ha
    exact namespaceHash_ne_node (fun e he f hf heq => (hfree f hf e he heq.symm).symm)
      ((mem_sortBy _ _).mp he) hq
  · intro a ha b hb
    constructor
    · intro heq
      have hfields := StateNamespace.mk.inj heq
      rw [namespaceHash, namespaceHash, namespacePayload, namespacePayload, nameBytes, nameBytes, hfields.1,
        hfields.2]
    · intro heq
      have hpayload := (Prod.mk.inj (hfree _ (mem_namespacePayloads ha).2 _ (mem_namespacePayloads hb).2 heq)).2
      obtain ⟨hname, hinner⟩ := named_inj (hk a ha).short (hk' b hb).short hpayload
      have hbytes := hfree _ (mem_namespacePayloads ha).1 _ (mem_namespacePayloads hb).1 hinner
      obtain ⟨x, hx⟩ := (hk a ha).name
      obtain ⟨y, hy⟩ := (hk' b hb).name
      have hid := utf8Encode_inj (utf8NfcBytes_spec hx).1 (utf8NfcBytes_spec hy).1 hname
      rw [nfcNamespace, nfcNamespace, hid, (Prod.mk.inj hbytes).2]

end Namespaces

/-! ### Which roots commit -/

/-- A stream with this id, and a namespace with this name. -/
def streamNamed (id : Str) : StreamLeaf := ⟨id, List.replicate 32 1, List.replicate 32 2, 7⟩

def namespaceNamed (name : Str) : StateNamespace := ⟨name, [1]⟩

/-- The payloads of single leaves are hashed in one order only. -/
theorem noCollision_single {E : Type} {payloads : List E → List (DomainTag × List UInt8)} {a b : E}
    (h : ∀ k ∈ [[a], [b]], ∀ k' ∈ [[a], [b]], ∀ e ∈ payloads k, ∀ f ∈ payloads k',
      domainHash e.1 e.2 = domainHash f.1 f.2 → e = f) : NoCollision payloads [a] [b] := by
  have hmem : ∀ k, ([a].Perm k ∨ [b].Perm k) → k ∈ [[a], [b]] := by
    intro k hk
    rw [List.singleton_perm, List.singleton_perm] at hk
    rcases hk with rfl | rfl <;> simp
  exact fun k k' hk hk' => h k (hmem k hk) k' (hmem k' hk')

end ParadigmTerra
