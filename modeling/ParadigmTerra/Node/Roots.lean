import ParadigmTerra.Canonical.Bytes
import ParadigmTerra.Node.ApplyTick
import ParadigmTerra.Reducer.Shapes

/-!
# Which states have a root

`stateRootOf` throws when one of the eight namespaces is missing or has no canonical bytes, and on no
other state (`hasRoot_iff`). A write of a value with canonical bytes keeps the root of a state
(`HasRoot.setIn`), in particular a tick advance does. On a state without a root a tick advance may also
make one, by the Bounded Mode flag that it writes; `hasRoot_tickAdvanced` says when.
-/

namespace ParadigmTerra

open Text OrderedMap Fallible

variable {H : Host}

/-- The state has a root. -/
def HasRoot (H : Host) (s : State) : Prop := ∃ r, stateRootOf H s = .ok r

theorem stateNamespaceLeafHash_eq (hH : H.Ascii) {ns : StateNamespace}
    (hname : isAscii ns.name = true) (hlen : (utf8Encode ns.name).length ≤ 0xffff) :
    stateNamespaceLeafHash H ns = .ok (domainHash .STATE_ROOT_V1
      (bytesBe 2 (utf8Encode ns.name).length ++ utf8Encode ns.name ++
        domainHash .STATE_V1 ns.canonicalBytes)) := by
  simp only [stateNamespaceLeafHash, hH.utf8NfcBytes hname, ok_bind, require, hlen, if_true]
  rfl

/-- Namespaces with distinct, short ASCII names have a root. -/
theorem stateRoot_returns (hH : H.Ascii) {nss : List StateNamespace} (hne : nss ≠ [])
    (hnodup : (nss.map StateNamespace.name).Nodup) (hnames : ∀ ns ∈ nss, isAscii ns.name = true ∧
      (utf8Encode ns.name).length ≤ 0xffff) : ∃ r, stateRoot H nss = .ok r := by
  have hkeyed : nss.mapM (fun ns => do
      let b ← utf8NfcBytes H ns.name
      pure (b, ns) : StateNamespace → Except Throw _) =
      .ok (nss.map fun ns => (utf8Encode ns.name, ns)) := by
    rw [mapM_ok, List.forall₂_map_right_iff, List.forall₂_same]
    intro ns hns
    rw [hH.utf8NfcBytes (hnames ns hns).1]
    rfl
  simp only [stateRoot, require, hne, ne_eq, not_false_eq_true, if_true, hnodup, ok_bind, hkeyed]
  generalize hsorted : (nss.map fun ns => (utf8Encode ns.name, ns)).insertionSort
    (fun a b => bytesLe a.1 b.1 = true) = sorted
  have hperm : sorted.Perm (nss.map fun ns => (utf8Encode ns.name, ns)) :=
    hsorted ▸ List.perm_insertionSort _ _
  have hreturns : ∀ e ∈ sorted, ∃ h, stateNamespaceLeafHash H e.2 = .ok h := by
    intro e he
    obtain ⟨ns, hns, rfl⟩ := List.mem_map.mp (hperm.mem_iff.mp he)
    exact ⟨_, stateNamespaceLeafHash_eq hH (hnames ns hns).1 (hnames ns hns).2⟩
  obtain ⟨leaves, hleaves⟩ := mapM_returns_iff.mpr hreturns
  have hforall := mapM_ok.mp hleaves
  have hlen : leaves.length = nss.length := by
    rw [← hforall.length_eq, hperm.length_eq, List.length_map]
  -- every leaf hash has the length of a hash
  have hall : ∀ h ∈ leaves, h.length = 32 := by
    refine forall_mem_of_mapM (fun e h he => ?_) hleaves
    simp only [stateNamespaceLeafHash, bind_eq_ok, pure_eq_ok] at he
    obtain ⟨-, -, -, -, rfl⟩ := he
    exact length_domainHash _ _
  have hleaves_ne : leaves ≠ [] := by
    intro h
    rw [h, List.length_nil, eq_comm, List.length_eq_zero_iff] at hlen
    exact hne hlen
  rw [hleaves, ok_bind]
  simp only [binaryMerkle, require, hleaves_ne, ne_eq, not_false_eq_true, if_true, ok_bind]
  rw [if_pos (List.all_eq_true.mpr fun h hh => by simp [hall h hh])]
  exact ⟨_, rfl⟩

/-- A state has a root when each of the eight namespaces has canonical bytes. -/
theorem hasRoot_iff (hH : H.Ascii) {s : State} :
    HasRoot H s ↔ ∀ n ∈ NAMESPACES, HasBytes H (s.read n) := by
  rw [HasRoot, stateRootOf, bind_returns_iff]
  have hone : ∀ n, (∃ ns : StateNamespace, (do
      let b ← canonicalizeValue H (s.read n)
      pure ⟨js "state." ++ n, b⟩ : Except Throw StateNamespace) = .ok ns) ↔ HasBytes H (s.read n) := by
    intro n
    rw [bind_returns_iff]
    exact ⟨fun ⟨b, hb, _⟩ => ⟨b, hb⟩, fun ⟨b, hb⟩ => ⟨b, hb, _, rfl⟩⟩
  constructor
  · rintro ⟨nss, hnss, -⟩ n hn
    exact (hone n).mp (mapM_returns_iff.mp ⟨nss, hnss⟩ n hn)
  · intro h
    obtain ⟨nss, hnss⟩ := mapM_returns_iff.mpr fun n hn => (hone n).mpr (h n hn)
    refine ⟨nss, hnss, ?_⟩
    have hnames : nss.map StateNamespace.name = NAMESPACES.map (js "state." ++ ·) := by
      rw [← List.forall₂_eq_eq_eq, List.forall₂_map_left_iff, List.forall₂_map_right_iff]
      refine (mapM_ok.mp hnss).flip.imp fun ns n hn => ?_
      simp only [bind_eq_ok, pure_eq_ok] at hn
      obtain ⟨b, -, rfl⟩ := hn
      rfl
    refine stateRoot_returns hH ?_ (hnames ▸ by decide) fun ns hns => ?_
    · rintro rfl
      cases hnames
    · have hmem : ns.name ∈ NAMESPACES.map (js "state." ++ ·) := hnames ▸ List.mem_map_of_mem hns
      revert hmem
      generalize ns.name = name
      revert name
      decide

/-! ## Writes -/

/-- The namespaces after a member of one is written. -/
theorem read_setIn_pair {s : State} (hs : s.isPlainObject = true) {ns k n : Str} (x : Json)
    (hns : ns ∉ inheritedNames) (hn : n ∉ inheritedNames) :
    (setIn (some s) [ns, k] x).read n =
      if ns = n then some (.obj (putMember k x (baseOf (s.read ns)).members)) else s.read n := by
  have hbase : baseOf (some s) = s := if_pos hs
  rw [read_eq_get_members hn, setIn, hbase, Json.members, get_put, read_eq_get_members hn,
    setIn]
  rfl

theorem isPlainObject_of_read {s v : Json} {k : Str} (hk : k ∉ inheritedNames)
    (h : s.read k = some v) : s.isPlainObject = true :=
  isPlainObject_of_get (read_eq_get_members hk ▸ h)

theorem HasBytes.members {o : Option Json} (h : HasBytes H o) :
    HasBytes H (some (.obj (baseOf o).members)) := by
  have hnil : HasBytes H (some (.obj [])) := by
    refine hasBytes_obj.mpr ⟨?_, ?_⟩
    · intro p hp
      cases hp
    · intro k v hne hv
      cases hv
  cases o with
  | none => exact hnil
  | some v =>
    rw [members_baseOf]
    cases v with
    | obj m => exact h
    | _ => exact hnil

theorem namespace_not_inherited : ∀ n ∈ NAMESPACES, n ∉ inheritedNames := by decide

theorem HasRoot.isPlainObject (hH : H.Ascii) {s : State} (h : HasRoot H s) :
    s.isPlainObject = true := by
  have hcal := (hasRoot_iff hH).mp h (js "cal") (by decide)
  cases hv : s.read (js "cal") with
  | none =>
    rw [hv] at hcal
    obtain ⟨b, hb⟩ := hcal
    cases hb
  | some v => exact isPlainObject_of_read (by decide) hv

/-- A write of a value with canonical bytes, one level below a namespace, keeps the root. -/
theorem HasRoot.setIn (hH : H.Ascii) {s : State} (h : HasRoot H s) {ns k : Str} {x : Json}
    (hns : ns ∉ inheritedNames) (hk : isCanonicalString H k = true) (hx : HasBytes H (some x)) :
    HasRoot H (setIn (some s) [ns, k] x) := by
  rw [hasRoot_iff hH]
  intro n hn
  have hread := (hasRoot_iff hH).mp h n hn
  rw [read_setIn_pair (h.isPlainObject hH) x hns (namespace_not_inherited n hn)]
  split
  · next heq => exact (heq ▸ hread.members).put (fun _ => hk) hx
  · exact hread

/-! ## Tick advances -/

theorem hasBytes_int (n : ℤ) : HasBytes H (some (.int n)) := ⟨_, rfl⟩

theorem hasBytes_bool (b : Bool) : HasBytes H (some (.bool b)) := ⟨_, rfl⟩

/-- What a tick advance does to a state that accepts it. -/
theorem advanced_accepted {s t : State} {tick : ℤ} (h : Accepts s (advancedEvent tick) t) :
    ∃ cur : ℤ, getIn s [js "tick", js "current"] = some (.int cur) ∧ ∃ b : Bool,
      t = setIn (some (setIn (some s) [js "tick", js "current"] (.int tick)))
        [js "failure_mode", js "is_bounded_mode"] (.bool b) := by
  have happly : tickAdvanced s (advancedEvent tick) = .ok t := accepts_iff.mp h
  simp only [tickAdvanced, bind_eq_ok] at happly
  obtain ⟨next, hnext, happly⟩ := happly
  have htick : next = tick := by
    have := (reqUint_eq_ok hnext).1
    cases this
    rfl
  split at happly
  · next cur hcur =>
    simp only [bind_eq_ok, pure_eq_ok] at happly
    obtain ⟨-, -, rfl⟩ := happly
    exact ⟨cur, hcur, _, by rw [htick]; rfl⟩
  · simp only [bind_eq_ok] at happly
    obtain ⟨-, -, happly⟩ := happly
    cases happly

/-- A tick advance keeps the root. -/
theorem HasRoot.advanced (hH : H.Ascii) {s t : State} {tick : ℤ} (h : HasRoot H s)
    (hacc : Accepts s (advancedEvent tick) t) : HasRoot H t := by
  obtain ⟨-, -, b, rfl⟩ := advanced_accepted hacc
  have htick : HasRoot H (ParadigmTerra.setIn (some s) [js "tick", js "current"] (.int tick)) :=
    h.setIn hH (by decide) (hH.isCanonicalString (by decide)) (hasBytes_int tick)
  exact htick.setIn hH (by decide) (hH.isCanonicalString (by decide)) (hasBytes_bool b)

/-- The state with the Bounded Mode flag written. -/
def flagged (s : State) : State :=
  setIn (some s) [js "failure_mode", js "is_bounded_mode"] (.bool false)

/-- After a tick advance there is a root if there was one but for the flag that it writes. -/
theorem hasRoot_advanced_iff (hH : H.Ascii) {s t : State} {tick : ℤ}
    (hacc : Accepts s (advancedEvent tick) t) : HasRoot H t ↔ HasRoot H (flagged s) := by
  obtain ⟨cur, hcur, b, rfl⟩ := advanced_accepted hacc
  -- the tick stands in a namespace of its own
  have hs : s.isPlainObject = true := by
    by_contra hs
    rw [getIn, if_neg hs] at hcur
    cases hcur
  obtain ⟨v, hv, hvcur⟩ : ∃ v, s.read (js "tick") = some v ∧
      getIn v [js "current"] = some (.int cur) := by
    rw [getIn, if_pos hs, Option.bind_eq_some_iff] at hcur
    exact hcur
  have hplain : v.isPlainObject = true := by
    by_contra hp
    rw [getIn, if_neg hp] at hvcur
    cases hvcur
  rw [getIn_singleton hplain, read_eq_get_members (by decide)] at hvcur
  obtain ⟨m, rfl⟩ : ∃ m, v = .obj m := by
    cases v with
    | obj m => exact ⟨m, rfl⟩
    | _ => cases hvcur
  have hread : ∀ n ∈ NAMESPACES, HasBytes H ((setIn (some (setIn (some s) [js "tick", js "current"]
      (.int tick))) [js "failure_mode", js "is_bounded_mode"] (.bool b)).read n) ↔
      HasBytes H ((flagged s).read n) := by
    intro n hn
    have hn := namespace_not_inherited n hn
    have hne : js "tick" ≠ js "failure_mode" := by decide
    rw [flagged, read_setIn_pair rfl _ (by decide) hn, read_setIn_pair hs _ (by decide) hn,
      read_setIn_pair hs _ (by decide) hn, read_setIn_pair hs _ (by decide) (by decide), if_neg hne]
    by_cases hfm : js "failure_mode" = n
    · rw [if_pos hfm, if_pos hfm]
      exact hasBytes_put_iff (hasBytes_bool b) (hasBytes_bool false)
    · rw [if_neg hfm, if_neg hfm]
      by_cases ht : js "tick" = n
      · subst ht
        have hself : putMember (js "current") (.int cur) m = m := put_self hvcur
        rw [if_pos rfl, hv]
        conv_rhs => rw [← hself]
        exact hasBytes_put_iff (hasBytes_int tick) (hasBytes_int cur)
      · rw [if_neg ht]
  rw [hasRoot_iff hH, hasRoot_iff hH]
  exact forall₂_congr hread

/-! ## Scans -/

/-- The state root after each event from the `i`th on, and the event that was rejected, if one was. -/
def scanFrom (H : Host) : ℕ → State → List Event →
    Except Throw (List Str × Option (ApplyErrorCode × ℕ))
  | _, _, [] => pure ([], none)
  | i, state, ev :: evs => do
    match ← apply state ev with
    | .rejected code => pure ([], some (code, i))
    | .ok next =>
      let root ← stateRootOf H next
      let (roots, error) ← scanFrom H (i + 1) next evs
      pure (hex root :: roots, error)

/-- The state root after each event, up to the first that is rejected. -/
def scanStateRoots (H : Host) (events : List Event) (start : State) :
    Except Throw (List Str × Option (ApplyErrorCode × ℕ)) := scanFrom H 0 start events

/-- The state accepts the events, and after each of them it has the root beside it. -/
inductive Scans (H : Host) : State → List (Event × Str) → State → Prop
  | nil (s : State) : Scans H s [] s
  | cons {s t u : State} {ev : Event} {r : List UInt8} {l : List (Event × Str)}
    (hacc : Accepts s ev t) (hroot : stateRootOf H t = .ok r) (hrest : Scans H t l u) :
    Scans H s ((ev, hex r) :: l) u

namespace Scans

variable {s t u : State} {l m : List (Event × Str)}

theorem append (h : Scans H s l t) (h' : Scans H t m u) : Scans H s (l ++ m) u := by
  induction h with
  | nil => exact h'
  | cons hacc hroot _ ih => exact .cons hacc hroot (ih h')

theorem eq_of_nil (h : Scans H s [] t) : s = t := by
  cases h
  rfl

theorem acceptsAll (h : Scans H s l t) : AcceptsAll s (l.map Prod.fst) t := by
  induction h with
  | nil => exact .nil _
  | cons hacc _ _ ih => exact .cons trivial hacc ih

/-- The scan of the events finds the roots and rejects none. -/
theorem scanFrom_eq (h : Scans H s l t) (i : ℕ) :
    scanFrom H i s (l.map Prod.fst) = .ok (l.map Prod.snd, none) := by
  induction h generalizing i with
  | nil => rfl
  | @cons s t u ev r l hacc hroot _ ih =>
    have hacc : apply s ev = .ok (.ok t) := hacc
    simp only [List.map_cons, scanFrom, hacc, ok_bind, hroot, ih (i + 1)]
    rfl

/-- The last root is that of the state in which the events end. -/
theorem getLast?_root (h : Scans H s l t) (hne : l ≠ []) :
    ∃ r, stateRootOf H t = .ok r ∧ (l.map Prod.snd).getLast? = some (hex r) := by
  induction h with
  | nil => exact absurd rfl hne
  | @cons s t u ev r l hacc hroot hrest ih =>
    cases l with
    | nil =>
      cases hrest
      exact ⟨r, hroot, rfl⟩
    | cons e l =>
      obtain ⟨r', hr', hlast⟩ := ih (by simp)
      exact ⟨r', hr', by rw [List.map_cons, List.map_cons, List.getLast?_cons_cons, ← hlast]; rfl⟩

end Scans

end ParadigmTerra
