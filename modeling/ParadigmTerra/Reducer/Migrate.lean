import ParadigmTerra.Reducer.OwnerRecord
import ParadigmTerra.Reducer.Paths

/-!
# The migration of owner records

`migrateRegistryV1ToV2` turns the owner's key of each agent into a list of owners with a threshold.
Its loop writes three fields of one record at a time; `upgrade` is what becomes of the record, and
`migrate_spec` says that the loop upgrades every record and writes nowhere else.

A record that has been upgraded is not upgraded again, so that the migration is idempotent
(`migrate_migrate`); `migrate_frame` is what it leaves alone.
-/

namespace ParadigmTerra

open Text OrderedMap

/-- The path of the records. -/
abbrev agentsPath : List Str := [js "registry", js "agents"]

/-- The path of an agent's key in a record of the first version. -/
abbrev ownerKeyPath (agent : Str) : List Str := [js "registry", js "agents", agent, js "owner_pubkey"]

/-- The owner's key of a record that is to be migrated: an object with the key, and without an array of
owners. -/
def v1Owner (rec : Json) : Option Json :=
  if !rec.isPlainObject then none
  else
    match rec.read (js "owners") with
    | some (.arr _) => none
    | _ => rec.read (js "owner_pubkey")

/-- The owners that a key stands for. -/
def ownersOf (pk : Json) : List Json :=
  match pk with
  | .str s => if s = [] then [] else [.str s]
  | _ => []

/-- The threshold for the owners. -/
def thresholdOf (owners : List Json) : ℤ := if owners.length = 1 then 1 else 0

/-- Migrates one record, as it stands among the records that the migration began with. -/
def migrateRecord (agents : Json) (s : State) (id : Str) : State :=
  match (agents.read id).bind v1Owner with
  | none => s
  | some pk =>
    let s := setIn (some s) (ownersPath id) (.arr (ownersOf pk))
    let s := setIn (some s) (thresholdPath id) (.int (thresholdOf (ownersOf pk)))
    deleteIn (some s) (ownerKeyPath id)

/-- `Object.keys(v).sort()`. -/
def sortedKeys (v : Json) : List Str :=
  (v.members.map Prod.fst).insertionSort fun k l => strLt l k = false

/-- The upgrade of the registry. -/
def migrateRegistryV1ToV2 (state : State) : State :=
  match getIn state agentsPath with
  | some agents =>
    if agents.isPlainObject then (sortedKeys agents).foldl (migrateRecord agents) state else state
  | none => state

/-! ## One record -/

/-- A record after the migration. -/
def upgrade (rec : Json) : Json :=
  match v1Owner rec with
  | none => rec
  | some pk =>
    .obj (erase (js "owner_pubkey") (putMember (js "threshold") (.int (thresholdOf (ownersOf pk)))
      (putMember (js "owners") (.arr (ownersOf pk)) rec.members)))

theorem obj_of_v1Owner {rec pk : Json} (h : v1Owner rec = some pk) : ∃ m, rec = .obj m := by
  unfold v1Owner at h
  split at h
  · cases h
  · cases rec with
    | obj m => exact ⟨m, rfl⟩
    | builtin n => split at h <;> simp [Json.read, inherited, inheritedNames] at h
    | _ => simp_all [Json.isPlainObject]

/-- An upgraded record has an array of owners, or had no key to begin with. -/
theorem v1Owner_upgrade (rec : Json) : v1Owner (upgrade rec) = none := by
  unfold upgrade
  split
  · next h => exact h
  · next pk h =>
    have howners : ∀ m : List (Str × Json), (Json.obj (erase (js "owner_pubkey")
        (putMember (js "threshold") (.int (thresholdOf (ownersOf pk)))
          (putMember (js "owners") (.arr (ownersOf pk)) m)))).read (js "owners") =
        some (.arr (ownersOf pk)) := by
      intro m
      refine Json.read_of_get ?_
      rw [get_erase_of_ne (by decide), get_put_of_ne (by decide), get_put_self]
    unfold v1Owner
    rw [howners]
    rfl

theorem upgrade_upgrade (rec : Json) : upgrade (upgrade rec) = upgrade rec := by
  rw [upgrade, v1Owner_upgrade]

/-- The three writes on a record, or on what they made of it. -/
theorem writes_record {rec cur pk : Json} (h : v1Owner rec = some pk)
    (hcur : cur = rec ∨ cur = upgrade rec) :
    deleteIn (some (setIn (some (setIn (some cur) [js "owners"] (.arr (ownersOf pk))))
      [js "threshold"] (.int (thresholdOf (ownersOf pk))))) [js "owner_pubkey"] = upgrade rec := by
  obtain ⟨m, rfl⟩ := obj_of_v1Owner h
  have hupgrade : upgrade (.obj m) = .obj (erase (js "owner_pubkey")
      (putMember (js "threshold") (.int (thresholdOf (ownersOf pk)))
        (putMember (js "owners") (.arr (ownersOf pk)) m))) := by
    rw [upgrade, h]
    rfl
  have hwrites : ∀ m, deleteIn (some (setIn (some (setIn (some (.obj m)) [js "owners"]
      (.arr (ownersOf pk)))) [js "threshold"] (.int (thresholdOf (ownersOf pk)))))
        [js "owner_pubkey"] = .obj (erase (js "owner_pubkey")
      (putMember (js "threshold") (.int (thresholdOf (ownersOf pk)))
        (putMember (js "owners") (.arr (ownersOf pk)) m))) := fun _ => rfl
  rcases hcur with rfl | rfl
  · rw [hupgrade, hwrites]
  · -- the fields stand there already, and the key does not
    rw [hupgrade, hwrites]
    congr 1
    have howners : ∀ m : List (Str × Json), get (js "owners") (erase (js "owner_pubkey")
        (putMember (js "threshold") (.int (thresholdOf (ownersOf pk)))
          (putMember (js "owners") (.arr (ownersOf pk)) m))) = some (.arr (ownersOf pk)) := by
      intro m
      rw [get_erase_of_ne (by decide), get_put_of_ne (by decide), get_put_self]
    have hthreshold : ∀ m : List (Str × Json), get (js "threshold") (erase (js "owner_pubkey")
        (putMember (js "threshold") (.int (thresholdOf (ownersOf pk))) m)) =
          some (.int (thresholdOf (ownersOf pk))) := by
      intro m
      rw [get_erase_of_ne (by decide), get_put_self]
    rw [putMember, putMember, put_self (howners m), put_self (hthreshold _),
      erase_of_get_eq_none get_erase_self]

/-! ## The loop -/

/-- The state on the way from `s`: each record stands as it was or upgraded, and as the latter if it is
done. Reads beside the records find what they found. -/
structure Migrating (s : State) (done : List Str) (t : State) : Prop where
  record : ∀ id, ownIn t (recordPath id) = ownIn s (recordPath id) ∧ id ∉ done ∨
    ownIn t (recordPath id) = (ownIn s (recordPath id)).map upgrade
  beside : ∀ q, (∀ id, (ownIn s (recordPath id)).isSome → Apart (recordPath id) q) →
    getIn t q = getIn s q ∧ ownIn t q = ownIn s q

theorem Migrating.refl (s : State) : Migrating s [] s where
  record := fun _ => .inl ⟨rfl, List.not_mem_nil⟩
  beside := fun _ _ => ⟨rfl, rfl⟩

/-- One pass of the loop upgrades the record, in a single write. -/
theorem migrateRecord_eq {agents rec cur : Json} {t : State} {id : Str}
    (hrec : agents.read id = some rec) (ht : ownIn t (recordPath id) = some cur)
    (hcur : cur = rec ∨ cur = upgrade rec) :
    migrateRecord agents t id = setIn (some t) (recordPath id) (upgrade rec) := by
  unfold migrateRecord
  rw [hrec, Option.bind_some]
  cases h : v1Owner rec with
  | none =>
    have hup : upgrade rec = rec := by rw [upgrade, h]
    rw [hup, or_self] at hcur
    rw [hup, setIn_self (hcur ▸ ht)]
  | some pk =>
    have howners := setIn_append ht [js "owners"] (.arr (ownersOf pk))
    have hthreshold := fun x => setIn_append (ownIn_setIn (some t) (recordPath id) x)
      [js "threshold"] (.int (thresholdOf (ownersOf pk)))
    have hkey := fun x => deleteIn_append (ownIn_setIn (some t) (recordPath id) x)
      (js "owner_pubkey") []
    simp only [List.cons_append, List.nil_append] at howners hthreshold hkey
    simp only [howners, hthreshold, setIn_setIn, hkey, writes_record h hcur]

theorem Migrating.step {s t : State} {agents rec : Json} {done : List Str} {id : Str}
    (h : Migrating s done t) (hread : agents.read id = some rec)
    (hrec : ownIn s (recordPath id) = some rec) :
    Migrating s (id :: done) (migrateRecord agents t id) := by
  obtain ⟨cur, ht, hcur⟩ : ∃ cur, ownIn t (recordPath id) = some cur ∧
      (cur = rec ∨ cur = upgrade rec) := by
    rcases h.record id with ⟨hid, -⟩ | hid
    · exact ⟨rec, hid.trans hrec, .inl rfl⟩
    · exact ⟨upgrade rec, by rw [hid, hrec]; rfl, .inr rfl⟩
  rw [migrateRecord_eq hread ht hcur]
  constructor
  · intro j
    by_cases hj : id = j
    · subst hj
      exact .inr (by rw [ownIn_setIn, hrec]; rfl)
    · have hapart : Apart (recordPath id) (recordPath j) := by simp [hj]
      rw [ownIn_setIn_of_apart hapart, List.mem_cons, not_or]
      rcases h.record j with ⟨heq, hdone⟩ | heq
      · exact .inl ⟨heq, fun hjd => hj hjd.symm, hdone⟩
      · exact .inr heq
  · intro q hq
    have hapart := hq id (by rw [hrec]; rfl)
    obtain ⟨hget, hown⟩ := h.beside q hq
    rw [ownIn_setIn_of_apart hapart, getIn_setIn_of_apart hapart (by rw [ht]; rfl)]
    exact ⟨hget, hown⟩

theorem Migrating.foldl {s t : State} {agents : Json} {done ids : List Str}
    (h : Migrating s done t)
    (hids : ∀ id ∈ ids, ∃ rec, agents.read id = some rec ∧ ownIn s (recordPath id) = some rec) :
    Migrating s (ids.reverse ++ done) (ids.foldl (migrateRecord agents) t) := by
  induction ids generalizing t done with
  | nil => exact h
  | cons id ids ih =>
    obtain ⟨⟨rec, hread, hrec⟩, hids⟩ := List.forall_mem_cons.mp hids
    have hnext := ih (h.step hread hrec) hids
    rwa [List.reverse_cons, List.append_assoc]

/-! ## The migration -/

/-- Every record is upgraded, and nothing is written beside the records. -/
structure Migrated (s t : State) : Prop where
  record : ∀ id, ownIn t (recordPath id) = (ownIn s (recordPath id)).map upgrade
  beside : ∀ q, (∀ id, (ownIn s (recordPath id)).isSome → Apart (recordPath id) q) →
    getIn t q = getIn s q ∧ ownIn t q = ownIn s q

theorem ownIn_recordPath (s : State) (id : Str) :
    ownIn s (recordPath id) = (getIn s agentsPath).bind fun agents => get id agents.members := by
  have hagents : getIn s agentsPath = ownIn s agentsPath :=
    getIn_snoc s [js "registry"] (by simp [inheritedNames])
  rw [hagents]
  have happend := ownIn_append s agentsPath [id]
  refine happend.trans (congrArg _ (funext fun agents => ?_))
  simp [ownIn]

theorem migrate_spec (s : State) : Migrated s (migrateRegistryV1ToV2 s) := by
  -- without records there is nothing to upgrade
  have hnone : (∀ id, ownIn s (recordPath id) = none) → Migrated s s := fun h =>
    ⟨fun id => by rw [h id]; rfl, fun _ _ => ⟨rfl, rfl⟩⟩
  unfold migrateRegistryV1ToV2
  cases hagents : getIn s agentsPath with
  | none => exact hnone fun id => by rw [ownIn_recordPath, hagents]; rfl
  | some agents =>
    have hrecord : ∀ id, ownIn s (recordPath id) = get id agents.members := fun id => by
      rw [ownIn_recordPath, hagents]
      rfl
    by_cases hplain : agents.isPlainObject = true
    · simp only [hplain, if_true]
      have hloop := @Migrating.foldl _ _ agents _ (sortedKeys agents) (Migrating.refl s)
        fun id hid => by
          have hmem := (List.mem_insertionSort _).mp hid
          obtain ⟨e, he, rfl⟩ := List.mem_map.mp hmem
          obtain ⟨rec, hrec⟩ := exists_get_of_mem he
          exact ⟨rec, read_of_get_members hrec, by rw [hrecord, hrec]⟩
      refine ⟨fun id => ?_, hloop.beside⟩
      rcases hloop.record id with ⟨heq, hdone⟩ | heq
      · -- what is not done is no key of the records
        cases hget : get id agents.members with
        | none => rw [heq, hrecord, hget]; rfl
        | some rec =>
          refine absurd ?_ hdone
          rw [List.append_nil, List.mem_reverse]
          exact (List.mem_insertionSort _).mpr (List.mem_map.mpr ⟨_, mem_of_get hget, rfl⟩)
      · exact heq
    · simp only [hplain]
      refine hnone fun id => ?_
      rw [hrecord]
      cases agents with
      | obj m => exact absurd rfl hplain
      | _ => rfl

/-- Nothing is migrated where no record has a key to migrate. -/
theorem migrate_eq_self {s : State}
    (h : ∀ id rec, ownIn s (recordPath id) = some rec → v1Owner rec = none) :
    migrateRegistryV1ToV2 s = s := by
  unfold migrateRegistryV1ToV2
  split
  · next agents hagents =>
    split
    · have hpass : ∀ id, id ∈ sortedKeys agents → migrateRecord agents s id = s := by
        intro id hid
        obtain ⟨e, he, rfl⟩ := List.mem_map.mp ((List.mem_insertionSort _).mp hid)
        obtain ⟨rec, hrec⟩ := exists_get_of_mem he
        have hv1 : v1Owner rec = none := h e.1 rec (by rw [ownIn_recordPath, hagents]; exact hrec)
        rw [migrateRecord, read_of_get_members hrec, Option.bind_some, hv1]
      generalize sortedKeys agents = ids at hpass
      induction ids with
      | nil => rfl
      | cons id ids ih =>
        obtain ⟨hid, hids⟩ := List.forall_mem_cons.mp hpass
        rw [List.foldl_cons, hid]
        exact ih hids
    · rfl
  · rfl

/-- The migration is idempotent. -/
theorem migrate_migrate (s : State) :
    migrateRegistryV1ToV2 (migrateRegistryV1ToV2 s) = migrateRegistryV1ToV2 s := by
  refine migrate_eq_self fun id rec hrec => ?_
  rw [(migrate_spec s).record, Option.map_eq_some_iff] at hrec
  obtain ⟨old, -, rfl⟩ := hrec
  exact v1Owner_upgrade old

/-! ## What a migration changes -/

/-- Paths that part at the end of the first. -/
theorem apart_append_cons (p : List Str) {f k : Str} {r : List Str} :
    Apart (p ++ [f]) (p ++ k :: r) ↔ f ≠ k := by
  induction p with
  | nil => simp
  | cons j p ih => simpa using ih

theorem exists_append_of_apart {p q : List Str} {f : Str} (h : Apart (p ++ [f]) q)
    (hp : ¬Apart p q) : ∃ k r, q = p ++ k :: r := by
  induction p generalizing q with
  | nil =>
    cases q with
    | nil => exact h.elim
    | cons k r => exact ⟨k, r, rfl⟩
  | cons j p ih =>
    cases q with
    | nil => exact h.elim
    | cons l q =>
      rw [List.cons_append, apart_cons] at h
      rw [apart_cons, not_or, not_not] at hp
      obtain ⟨rfl, hp⟩ := hp
      obtain ⟨k, r, rfl⟩ := ih (h.resolve_left (by simp)) hp
      exact ⟨k, r, rfl⟩

/-- An upgrade leaves the other members of a record. -/
theorem get_upgrade (rec : Json) {k : Str} (howners : js "owners" ≠ k)
    (hthreshold : js "threshold" ≠ k) (hkey : js "owner_pubkey" ≠ k) :
    get k (upgrade rec).members = get k rec.members := by
  unfold upgrade
  split
  · rfl
  · rw [Json.members, get_erase_of_ne hkey, get_put_of_ne hthreshold, get_put_of_ne howners]

theorem getIn_upgrade (rec : Json) {k : Str} (howners : js "owners" ≠ k)
    (hthreshold : js "threshold" ≠ k) (hkey : js "owner_pubkey" ≠ k) (r : List Str) :
    getIn (upgrade rec) (k :: r) = getIn rec (k :: r) := by
  have hget := get_upgrade rec howners hthreshold hkey
  cases h : v1Owner rec with
  | none => rw [upgrade, h]
  | some pk =>
    obtain ⟨m, rfl⟩ := obj_of_v1Owner h
    obtain ⟨m', hm'⟩ : ∃ m', upgrade (.obj m) = .obj m' := by
      rw [upgrade, h]
      exact ⟨_, rfl⟩
    rw [hm'] at hget ⊢
    have hread : (Json.obj m').read k = (Json.obj m).read k := by
      rw [Json.read, Json.read]
      exact congrArg (·.or (inherited k)) hget
    rw [getIn, getIn, hread]
    rfl

/-- Reads find the same apart from three fields of the records. -/
theorem Migrated.frame {s t : State} (h : Migrated s t) {q : List Str}
    (hq : ∀ id, Apart (ownersPath id) q ∧ Apart (thresholdPath id) q ∧ Apart (ownerKeyPath id) q) :
    getIn t q = getIn s q ∧ ownIn t q = ownIn s q := by
  by_cases hall : ∀ id, (ownIn s (recordPath id)).isSome → Apart (recordPath id) q
  · exact h.beside q hall
  · -- the path goes on from a record by another member
    push Not at hall
    obtain ⟨id, hid, hapart⟩ := hall
    obtain ⟨rec, hrec⟩ := Option.isSome_iff_exists.mp hid
    obtain ⟨howners, hthreshold, hkey⟩ := hq id
    obtain ⟨k, r, rfl⟩ := exists_append_of_apart (p := recordPath id) howners hapart
    have howners := (apart_append_cons (recordPath id)).mp howners
    have hthreshold := (apart_append_cons (recordPath id)).mp hthreshold
    have hkey := (apart_append_cons (recordPath id)).mp hkey
    have ht : ownIn t (recordPath id) = some (upgrade rec) := by rw [h.record, hrec]; rfl
    rw [getIn_append ht, getIn_append hrec, ownIn_append, ht, ownIn_append, hrec,
      getIn_upgrade rec howners hthreshold hkey]
    refine ⟨rfl, ?_⟩
    simp only [Option.bind_some, ownIn, get_upgrade rec howners hthreshold hkey]

/-- A field of a record that is not migrated. -/
theorem Migrated.field {s t : State} (h : Migrated s t) (id : Str) {k : Str}
    (howners : js "owners" ≠ k) (hthreshold : js "threshold" ≠ k) (hkey : js "owner_pubkey" ≠ k) :
    getIn t [js "registry", js "agents", id, k] = getIn s [js "registry", js "agents", id, k] := by
  refine (h.frame fun j => ?_).1
  simp [howners, hthreshold, hkey]

theorem Migrated.elsewhere {s t : State} (h : Migrated s t) {k : Str} (hk : js "registry" ≠ k)
    (q : List Str) : getIn t (k :: q) = getIn s (k :: q) := by
  refine (h.frame fun j => ?_).1
  simp [hk]

/-- The owner's key of an agent in the first version became its owners and a threshold, or there is
none or owners beside it, and the record is what it was. -/
theorem Migrated.owner {s t : State} (h : Migrated s t) (id : Str) :
    (∃ pk, getIn s (ownerKeyPath id) = some pk ∧
      (∀ os, getIn s (ownersPath id) ≠ some (.arr os)) ∧
      getIn t (ownersPath id) = some (.arr (ownersOf pk)) ∧
      getIn t (thresholdPath id) = some (.int (thresholdOf (ownersOf pk)))) ∨
    (getIn s (ownerKeyPath id) = none ∨ ∃ os, getIn s (ownersPath id) = some (.arr os)) ∧
      ∀ k, getIn t [js "registry", js "agents", id, k] =
        getIn s [js "registry", js "agents", id, k] := by
  cases hrec : ownIn s (recordPath id) with
  | none =>
    have hkey : getIn s (ownerKeyPath id) = none := by
      refine (getIn_snoc s (recordPath id) (by simp [inheritedNames])).trans ?_
      rw [ownIn_append, hrec]
      rfl
    refine .inr ⟨.inl hkey, fun k => (h.beside _ fun j hj => ?_).1⟩
    have hne : j ≠ id := by
      rintro rfl
      rw [hrec] at hj
      cases hj
    simp [hne]
  | some rec =>
    have ht : ownIn t (recordPath id) = some (upgrade rec) := by rw [h.record, hrec]; rfl
    have hread : ∀ k, getIn s [js "registry", js "agents", id, k] = getIn rec [k] :=
      fun k => getIn_append hrec [k]
    have hread' : ∀ k, getIn t [js "registry", js "agents", id, k] = getIn (upgrade rec) [k] :=
      fun k => getIn_append ht [k]
    cases hv1 : v1Owner rec with
    | none =>
      refine .inr ⟨?_, fun k => by rw [hread, hread', upgrade, hv1]⟩
      unfold v1Owner at hv1
      split at hv1
      · next hplain =>
        refine .inl ?_
        rw [hread, getIn, if_neg (by simpa using hplain)]
      · next hplain =>
        have hplain : rec.isPlainObject = true := by simpa using hplain
        split at hv1
        · next os hos => exact .inr ⟨os, by rw [hread, getIn_singleton hplain, hos]⟩
        · exact .inl (by rw [hread, getIn_singleton hplain, hv1])
    | some pk =>
      obtain ⟨m, rfl⟩ := obj_of_v1Owner hv1
      refine .inl ⟨pk, ?_, fun os hos => ?_, ?_, ?_⟩
      · rw [hread, getIn_singleton rfl]
        unfold v1Owner at hv1
        split at hv1
        · cases hv1
        · split at hv1
          · cases hv1
          · exact hv1
      · rw [hread, getIn_singleton rfl] at hos
        unfold v1Owner at hv1
        rw [hos] at hv1
        cases hv1
      · rw [hread', upgrade, hv1, getIn_singleton rfl]
        exact Json.read_of_get (by
          rw [get_erase_of_ne (by decide), get_put_of_ne (by decide), get_put_self])
      · rw [hread', upgrade, hv1, getIn_singleton rfl]
        exact Json.read_of_get (by rw [get_erase_of_ne (by decide), get_put_self])

end ParadigmTerra
