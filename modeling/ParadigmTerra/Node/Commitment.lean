import ParadigmTerra.Canonical.Encodable
import ParadigmTerra.Lib.Merkle
import ParadigmTerra.Node.Roots
import ParadigmTerra.Reducer.Writes

/-!
# What a state root commits to

The state root is the root of a tree over the eight namespaces, in their order. Where no two of the
payloads collide that were hashed for the roots of two states, equal roots mean equal canonical bytes of
each namespace (`bytes_of_stateRootOf`).

`state_root_commits` says when the root commits to the whole state: in the runs from genesis whose
committed deltas name one of the eight namespaces, delete none of them and delete own members only, and
whose events are encodable. A delta of another namespace makes a ninth member of the state, which the root
does not see.
-/

namespace ParadigmTerra

open Text OrderedMap Fallible Merkle

variable {H : Host}

/-! ## The payloads of a root -/

/-- The canonical bytes of a namespace. -/
def namespaceBytes (H : Host) (s : State) (n : Str) : List UInt8 :=
  (canonicalizeValue H (s.read n)).toOption.getD []

/-- The payload of the leaf of a namespace. -/
def leafPayload (n : Str) (bytes : List UInt8) : List UInt8 :=
  bytesBe 2 (utf8Encode (js "state." ++ n)).length ++ utf8Encode (js "state." ++ n) ++
    domainHash .STATE_V1 bytes

/-- The leaves of the tree. -/
def rootLeaves (H : Host) (s : State) : List (List UInt8) :=
  NAMESPACES.map fun n => domainHash .STATE_ROOT_V1 (leafPayload n (namespaceBytes H s n))

/-- An inner node of the tree. -/
def rootNode (a b : List UInt8) : List UInt8 := domainHash .STATE_ROOT_V1 (a ++ b)

/-- All payloads that are hashed for the root of a state, with their tags. -/
def rootPayloads (H : Host) (s : State) : List (DomainTag × List UInt8) :=
  (NAMESPACES.map fun n => (.STATE_V1, namespaceBytes H s n)) ++
    (NAMESPACES.map fun n => (.STATE_ROOT_V1, leafPayload n (namespaceBytes H s n))) ++
    (Merkle.combined rootNode 3 (rootLeaves H s)).map fun p => (.STATE_ROOT_V1, p.1 ++ p.2)

/-- The domain hash is injective on the payloads that are hashed for the roots of the two states. -/
def CollisionFree (H : Host) (s t : State) : Prop :=
  ∀ e ∈ rootPayloads H s, ∀ f ∈ rootPayloads H t, e.1 = f.1 →
    domainHash e.1 e.2 = domainHash f.1 f.2 → e.2 = f.2

/-! ## Roots -/

theorem merkleRoot_eight {l : List (List UInt8)} (h : l.length = 8) :
    levels rootNode 3 l = [merkleRoot .STATE_ROOT_V1 8 l] := by
  match l with
  | [_, _, _, _, _, _, _, _] => rfl

/-- The root of a state whose namespaces have canonical bytes. -/
theorem stateRootOf_eq (hH : H.Ascii) {s : State} (h : HasRoot H s) :
    stateRootOf H s = .ok (merkleRoot .STATE_ROOT_V1 8 (rootLeaves H s)) := by
  have hbytes : ∀ n ∈ NAMESPACES, canonicalizeValue H (s.read n) = .ok (namespaceBytes H s n) := by
    intro n hn
    obtain ⟨b, hb⟩ := (hasRoot_iff hH).mp h n hn
    rw [namespaceBytes, hb]
    rfl
  have hnss : NAMESPACES.mapM (fun n => do
      let b ← canonicalizeValue H (s.read n)
      pure (⟨js "state." ++ n, b⟩ : StateNamespace) : Str → Except Throw StateNamespace) =
      .ok (NAMESPACES.map fun n => ⟨js "state." ++ n, namespaceBytes H s n⟩) := by
    rw [mapM_ok, List.forall₂_map_right_iff, List.forall₂_same]
    intro n hn
    rw [hbytes n hn]
    rfl
  have hnames : ∀ n ∈ NAMESPACES, isAscii (js "state." ++ n) = true ∧
      (utf8Encode (js "state." ++ n)).length ≤ 0xffff := by decide
  have hkeyed : (NAMESPACES.map fun n => (⟨js "state." ++ n, namespaceBytes H s n⟩ :
      StateNamespace)).mapM (fun ns => do
        let b ← utf8NfcBytes H ns.name
        pure (b, ns) : StateNamespace → Except Throw _) =
      .ok (NAMESPACES.map fun n =>
        (utf8Encode (js "state." ++ n), ⟨js "state." ++ n, namespaceBytes H s n⟩)) := by
    rw [mapM_ok, List.forall₂_map_left_iff, List.forall₂_map_right_iff, List.forall₂_same]
    intro n hn
    rw [hH.utf8NfcBytes (hnames n hn).1]
    rfl
  -- the names are in the order of their bytes
  have hsorted : (NAMESPACES.map fun n => (utf8Encode (js "state." ++ n),
      (⟨js "state." ++ n, namespaceBytes H s n⟩ : StateNamespace))).insertionSort
        (fun a b => bytesLe a.1 b.1 = true) =
      NAMESPACES.map fun n => (utf8Encode (js "state." ++ n),
        ⟨js "state." ++ n, namespaceBytes H s n⟩) := by
    refine List.Pairwise.insertionSort_eq ?_
    rw [List.pairwise_map]
    exact (by decide : NAMESPACES.Pairwise fun a b =>
      bytesLe (utf8Encode (js "state." ++ a)) (utf8Encode (js "state." ++ b)) = true)
  have hleaves : (NAMESPACES.map fun n => (utf8Encode (js "state." ++ n),
      (⟨js "state." ++ n, namespaceBytes H s n⟩ : StateNamespace))).mapM
        (fun e => stateNamespaceLeafHash H e.2) = .ok (rootLeaves H s) := by
    rw [rootLeaves, mapM_ok, List.forall₂_map_left_iff, List.forall₂_map_right_iff,
      List.forall₂_same]
    intro n hn
    exact stateNamespaceLeafHash_eq hH (hnames n hn).1 (hnames n hn).2
  have hne : (NAMESPACES.map fun n => (⟨js "state." ++ n, namespaceBytes H s n⟩ : StateNamespace)) ≠
      [] := by simp [NAMESPACES]
  have hnodup : ((NAMESPACES.map fun n => (⟨js "state." ++ n, namespaceBytes H s n⟩ :
      StateNamespace)).map StateNamespace.name).Nodup := by
    rw [List.map_map]
    exact (by decide : (NAMESPACES.map fun n => js "state." ++ n).Nodup)
  have hlen : (rootLeaves H s).length = 8 := by rw [rootLeaves, List.length_map]; rfl
  have hall : (rootLeaves H s).all (fun h => h.length == 32) = true := by
    rw [rootLeaves, List.all_map]
    exact List.all_eq_true.mpr fun n _ => by simp
  have hleavesne : rootLeaves H s ≠ [] := List.ne_nil_of_length_pos (by omega)
  rw [stateRootOf, hnss, ok_bind]
  simp only [stateRoot, require, hne, hnodup, ne_eq, not_false_eq_true, if_true, ok_bind, hkeyed, hsorted,
    hleaves, binaryMerkle, hleavesne, hall, hlen]
  rfl

/-- Equal roots mean equal bytes of each namespace, if no payloads collide. -/
theorem bytes_of_stateRootOf (hH : H.Ascii) {s t : State} (hs : HasRoot H s) (ht : HasRoot H t)
    (hfree : CollisionFree H s t) (h : stateRootOf H s = stateRootOf H t) :
    ∀ n ∈ NAMESPACES, canonicalizeValue H (s.read n) = canonicalizeValue H (t.read n) := by
  have hlen : ∀ u : State, (rootLeaves H u).length = 8 := fun u => by
    rw [rootLeaves, List.length_map]
    rfl
  have hsize : ∀ u : State, ∀ p ∈ Merkle.combined rootNode 3 (rootLeaves H u),
      p.1.length = 32 ∧ p.2.length = 32 := by
    refine fun u => forall_mem_combined (P := fun b : List UInt8 => b.length = 32)
      (fun a b => length_domainHash _ _) fun a ha => ?_
    obtain ⟨n, -, rfl⟩ := List.mem_map.mp ha
    exact length_domainHash _ _
  -- equal roots have equal leaves
  have hleaves : rootLeaves H s = rootLeaves H t := by
    rw [stateRootOf_eq hH hs, stateRootOf_eq hH ht, Except.ok.injEq] at h
    have hroots : levels rootNode 3 (rootLeaves H s) = levels rootNode 3 (rootLeaves H t) := by
      rw [merkleRoot_eight (hlen s), merkleRoot_eight (hlen t), h]
    refine levels_inj ((hlen s).trans (hlen t).symm) (fun p hp q hq hpq => ?_) hroots
    have hpayload := hfree (.STATE_ROOT_V1, p.1 ++ p.2)
      (List.mem_append_right _ (List.mem_map.mpr ⟨p, hp, rfl⟩)) (.STATE_ROOT_V1, q.1 ++ q.2)
      (List.mem_append_right _ (List.mem_map.mpr ⟨q, hq, rfl⟩)) rfl hpq
    have hp1 := (hsize s p hp).1
    have hq1 := (hsize t q hq).1
    obtain ⟨h1, h2⟩ := List.append_inj hpayload (hp1.trans hq1.symm)
    exact Prod.ext h1 h2
  intro n hn
  have hleaf : domainHash .STATE_ROOT_V1 (leafPayload n (namespaceBytes H s n)) =
      domainHash .STATE_ROOT_V1 (leafPayload n (namespaceBytes H t n)) :=
    List.map_inj_left.mp hleaves n hn
  -- equal leaves have equal payloads, and these equal bytes
  have hmem : ∀ u : State,
      (DomainTag.STATE_ROOT_V1, leafPayload n (namespaceBytes H u n)) ∈ rootPayloads H u ∧
        (DomainTag.STATE_V1, namespaceBytes H u n) ∈ rootPayloads H u := fun u =>
    ⟨List.mem_append_left _ (List.mem_append_right _ (List.mem_map.mpr ⟨n, hn, rfl⟩)),
      List.mem_append_left _ (List.mem_append_left _ (List.mem_map.mpr ⟨n, hn, rfl⟩))⟩
  have hpayload := hfree _ (hmem s).1 _ (hmem t).1 rfl hleaf
  have hinner := (List.append_inj hpayload rfl).2
  have hbytes := hfree _ (hmem s).2 _ (hmem t).2 rfl hinner
  have hread : ∀ u : State, HasRoot H u →
      canonicalizeValue H (u.read n) = .ok (namespaceBytes H u n) := by
    intro u hu
    obtain ⟨b, hb⟩ := (hasRoot_iff hH).mp hu n hn
    rw [namespaceBytes, hb]
    rfl
  rw [hread s hs, hread t ht]
  exact congrArg Except.ok hbytes

/-! ## Runs from genesis -/

/-- The event commits only deltas that stay within the eight namespaces and delete own members, and its
fields are encodable. -/
def CommitsWithin (H : Host) (s : State) (ev : Event) : Prop :=
  StaysWithin s ev ∧ CommitsOwn s ev ∧ FieldsFit (encodable H) ev

theorem genesis_eightNamespaces : EightNamespaces genesis := by rfl

theorem genesis_encodable (hH : H.Ascii) : genesis.fits (encodable H) = true := by
  have hascii : ∀ s : Str, isAscii s = true → (wellFormed s && isCanonicalString H s) = true :=
    fun s hs => Bool.and_eq_true_iff.mpr ⟨wellFormed_of_isAscii hs, hH.isCanonicalString hs⟩
  exact keyed_mono (p := isAscii) (q := isAscii) (b := false) hascii hascii id genesis (by decide)

/-- A state with the eight namespaces and encodable values has a root. -/
theorem hasRoot_of_encodable (hH : H.Ascii) {s : State} (hkeys : EightNamespaces s)
    (hs : s.fits (encodable H) = true) : HasRoot H s := by
  rw [hasRoot_iff hH]
  intro n hn
  rw [read_eq_get_members (namespace_not_inherited n hn)]
  cases hg : get n s.members with
  | none =>
    rw [get_eq_none_iff] at hg
    rw [EightNamespaces] at hkeys
    rw [← hkeys] at hn
    obtain ⟨e, he, rfl⟩ := List.mem_map.mp hn
    exact absurd rfl (hg e he)
  | some v => exact ⟨_, canonicalizeValue_eq (fits_of_get hs hg)⟩

/-- States whose namespaces have the same canonical bytes have the same canonical bytes. -/
theorem canonicalizeValue_of_namespaces (hN : H.Nfc) {s t : State} (hs : EightNamespaces s)
    (ht : EightNamespaces t) (hs' : s.fits (encodable H) = true) (ht' : t.fits (encodable H) = true)
    (h : ∀ n ∈ NAMESPACES, canonicalizeValue H (s.read n) = canonicalizeValue H (t.read n)) :
    canonicalizeValue H (some s) = canonicalizeValue H (some t) := by
  obtain ⟨m, rfl⟩ : ∃ m, s = .obj m := by
    cases s with
    | obj m => exact ⟨m, rfl⟩
    | _ => cases hs
  obtain ⟨m', rfl⟩ : ∃ m', t = .obj m' := by
    cases t with
    | obj m' => exact ⟨m', rfl⟩
    | _ => cases ht
  -- the copy of such a state has its members in the same order
  have hcopy : ∀ {m : List (Str × Json)}, EightNamespaces (.obj m) →
      assigned (.obj m) = .obj (m.map fun e => (e.1, assigned e.2)) := by
    intro m hm
    have hkeys : (m.map fun e => (e.1, assigned e.2)).map Prod.fst = NAMESPACES := by
      rw [List.map_map]
      exact hm
    have hproto : (m.map fun e => (e.1, assigned e.2)).filter (fun e => e.1 ≠ js "__proto__") =
        m.map fun e => (e.1, assigned e.2) := by
      refine List.filter_eq_self.mpr fun e he => ?_
      have hmem : e.1 ∈ NAMESPACES := hkeys ▸ List.mem_map_of_mem he
      have hne : ∀ n ∈ NAMESPACES, n ≠ js "__proto__" := by decide
      exact decide_eq_true (hne _ hmem)
    have hnormal : Normal keyBefore (m.map fun e => (e.1, assigned e.2)) :=
      (by decide : Normal keyBefore genesis.members).of_keys (hkeys.trans genesis_eightNamespaces.symm)
    rw [assigned_obj, foldl_assign_eq, hproto, foldl_put_normal _ [] hnormal, List.nil_append]
  rw [canonicalizeValue_eq hs', canonicalizeValue_eq ht', hcopy hs, hcopy ht, normalForm, normalForm,
    normalMembers_eq, normalMembers_eq, List.map_map, List.map_map]
  have hnodup : (m.map Prod.fst).Nodup := by
    rw [show m.map Prod.fst = NAMESPACES from hs]
    decide
  have hkeys : m.map Prod.fst = m'.map Prod.fst := hs.trans ht.symm
  rw [map_congr_of_keys hnodup hkeys fun k v w hv hw => ?_]
  have hk : k ∈ NAMESPACES := hs ▸ List.mem_map_of_mem (mem_of_get hv)
  have hbytes := h k hk
  rw [read_of_get_members hv, read_of_get_members hw] at hbytes
  have hnf := normalForm_of_canonicalizeValue hN (fits_of_get hs' hv) (fits_of_get ht' hw) hbytes
  simp only [Function.comp, hnf]

/-- In the runs from genesis that stay within the namespaces, every state has exactly the eight
namespaces and a root, and the root commits to the whole state. -/
theorem state_root_commits (hA : H.Ascii) (hN : H.Nfc) {evs : List Event} {s : State}
    (hs : Run (CommitsWithin H) genesis evs s) :
    EightNamespaces s ∧ HasRoot H s ∧
      ∀ evs' t, Run (CommitsWithin H) genesis evs' t → CollisionFree H s t →
        stateRootOf H s = stateRootOf H t →
        canonicalizeValue H (some s) = canonicalizeValue H (some t) := by
  have hinv : ∀ {evs : List Event} {s : State}, Run (CommitsWithin H) genesis evs s →
      EightNamespaces s ∧ s.fits (encodable H) = true := fun hs =>
    hs.invariant (P := fun s => EightNamespaces s ∧ s.fits (encodable H) = true)
      (fun s ev t hC hacc hs => ⟨hs.1.accepts hC.1 hacc,
        fits_of_accepts (encodable_closed hA) hs.2 hC.2.2 (.inr hC.2.1) hacc⟩)
      ⟨genesis_eightNamespaces, genesis_encodable hA⟩
  obtain ⟨hkeys, hfits⟩ := hinv hs
  have hroot := hasRoot_of_encodable hA hkeys hfits
  refine ⟨hkeys, hroot, fun evs' t ht hfree h => ?_⟩
  obtain ⟨hkeys', hfits'⟩ := hinv ht
  exact canonicalizeValue_of_namespaces hN hkeys hkeys' hfits hfits'
    (bytes_of_stateRootOf hA hroot (hasRoot_of_encodable hA hkeys' hfits') hfree h)

/-! ## Two runs -/

theorem composing_ascii : composing.Ascii where
  fixes s hs := if_neg (by rintro rfl; cases hs)
  assigned _ _ := rfl

/-- A check of an event: its deltas stay within the namespaces and delete nothing. -/
def setsWithin (s : State) (ev : Event) : Bool :=
  ((committed s ev).all fun d =>
    match deltaTarget d with
    | some (ns :: _, op) => decide (ns ∈ NAMESPACES) && decide (op ≠ .delete)
    | _ => true) && ev.members.all fun e => e.2.fits (encodable composing)

theorem commitsWithin_of_setsWithin {s : State} {ev : Event} (h : setsWithin s ev = true) :
    CommitsWithin composing s ev := by
  rw [setsWithin, Bool.and_eq_true, List.all_eq_true, List.all_eq_true] at h
  have htarget : ∀ d ∈ committed s ev, ∀ ns path op, deltaTarget d = some (ns :: path, op) →
      ns ∈ NAMESPACES ∧ op ≠ .delete := by
    intro d hd ns path op hop
    have hd := h.1 d hd
    rw [hop] at hd
    simpa using hd
  have hown : ∀ (ds : List Json) (s : State), (∀ d ∈ ds, ∀ ns path op,
      deltaTarget d = some (ns :: path, op) → ns ∈ NAMESPACES ∧ op ≠ .delete) → OwnDeletes s ds := by
    intro ds
    induction ds with
    | nil => exact fun _ _ => trivial
    | cons d ds ih =>
      intro s hds
      obtain ⟨hd, hds⟩ := List.forall_mem_cons.mp hds
      refine ⟨fun full hfull => ?_, fun t _ => ih t hds⟩
      obtain ⟨ns, path, rfl⟩ := deltaTarget_cons hfull
      exact absurd rfl (hd ns path _ hfull).2
  exact ⟨fun d hd ns path op hop => ⟨(htarget d hd ns path op hop).1, fun hdel =>
    absurd hdel (htarget d hd ns path op hop).2⟩, hown _ _ htarget, h.2⟩

/-- A run that commits a delta of the treasury. -/
theorem state_root_commits_nav : ∃ s,
    Run (CommitsWithin composing) genesis
      (commitEvents [settingDelta (js "treasury") [js "nav"] 7]) s ∧
    EightNamespaces s ∧ HasRoot composing s ∧
      ∀ evs' t, Run (CommitsWithin composing) genesis evs' t → CollisionFree composing s t →
        stateRootOf composing s = stateRootOf composing t →
        canonicalizeValue composing (some s) = canonicalizeValue composing (some t) := by
  have hsome : (checkRun (fun s ev => setsWithin s ev = true) genesis
      (commitEvents [settingDelta (js "treasury") [js "nav"] 7])).isSome = true := by decide +kernel
  obtain ⟨s, hs⟩ := Option.isSome_iff_exists.mp hsome
  have hrun := (checkRun_run hs).mono fun _ _ => commitsWithin_of_setsWithin
  exact ⟨s, hrun, state_root_commits composing_ascii composing_nfc hrun⟩

/-- A delta of a ninth namespace is accepted, and the root does not see what it writes. -/
theorem state_root_misses_ninth : ∃ s t,
    AcceptsAll genesis (commitEvents [settingDelta (js "audit") [] 1]) s ∧
    AcceptsAll genesis (commitEvents [settingDelta (js "audit") [] 2]) t ∧
    ¬EightNamespaces s ∧ stateRootOf composing s = stateRootOf composing t ∧
    canonicalizeValue composing (some s) ≠ canonicalizeValue composing (some t) := by
  have hsome : ((checkRun (fun _ _ => True) genesis
      (commitEvents [settingDelta (js "audit") [] 1])).any fun s =>
      (checkRun (fun _ _ => True) genesis (commitEvents [settingDelta (js "audit") [] 2])).any fun t =>
        decide (s.members.map Prod.fst ≠ NAMESPACES) &&
        decide (∀ n ∈ NAMESPACES, canonicalizeValue composing (s.read n) =
          canonicalizeValue composing (t.read n)) &&
        decide (canonicalizeValue composing (some s) ≠ canonicalizeValue composing (some t))) =
      true := by decide +kernel
  rw [Option.any_eq_true_iff_get] at hsome
  obtain ⟨hs, hsome⟩ := hsome
  rw [Option.any_eq_true_iff_get] at hsome
  obtain ⟨ht, hsome⟩ := hsome
  simp only [Bool.and_eq_true, decide_eq_true_eq] at hsome
  refine ⟨_, _, checkRun_run (Option.some_get hs).symm, checkRun_run (Option.some_get ht).symm,
    hsome.1.1, ?_, hsome.2⟩
  rw [stateRootOf, stateRootOf, mapM_congr fun n hn => by rw [hsome.1.2 n hn]]

end ParadigmTerra
