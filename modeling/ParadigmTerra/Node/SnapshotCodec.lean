import ParadigmTerra.Node.WriteAheadLog

/-!
# Snapshots

A snapshot is a text with a checksum and a body, and the body is the JSON text of a live state in the
tagged codec. `decodeSnapshot_encode` says that the reader gives back what the writer wrote exactly if the
codec loses nothing of the state, and `decodeSnapshot_discards` which texts are discarded: all that do not
pass the checksum, except for those that are read as `null`.
-/

namespace ParadigmTerra

open Text OrderedMap Fallible JsonText

def SNAPSHOT_VERSION : ℕ := 2

/-- The body of a snapshot: a live state, the number of ticks that it covers, the size of their lines in
the log, and its two roots. -/
structure SnapshotBody where
  snapshot_version : ℕ
  covered_tick : ℤ
  wal_offset : ℤ
  state_root : Str
  event_log_root : Str
  incr : IncrementalState

def makeSnapshotBody (H : Host) (incr : IncrementalState) (coveredTick walOffset : ℤ) :
    Except Throw SnapshotBody := do
  let stateRoot ← incrementalStateRoot H incr
  let eventLogRoot ← incrementalGlobalRoot H incr
  pure ⟨SNAPSHOT_VERSION, coveredTick, walOffset, stateRoot, eventLogRoot, incr⟩

/-! ## Writing -/

def rawBig (n : ℤ) : Raw := .obj [(BIGINT_TAG, .str (decimal n))]

def rawBytes (b : List UInt8) : Raw := .obj [(BYTES_TAG, .str (toHex b))]

/-- The members of a live state. A state that is a function is omitted. -/
def IncrementalState.rawMembers (incr : IncrementalState) : List (Str × Raw) :=
  (match replacer incr.state with
    | some state => [(js "state", state)]
    | none => []) ++
  [(js "currentTick", rawBig incr.currentTick), (js "eventCount", .num (decimalNat incr.eventCount)),
    (js "lastEventHash", rawBytes incr.lastEventHash)]

def SnapshotBody.raw (body : SnapshotBody) : Raw :=
  .obj [(js "snapshot_version", .num (decimalNat body.snapshot_version)),
    (js "covered_tick", rawBig body.covered_tick), (js "wal_offset", rawBig body.wal_offset),
    (js "state_root", .str body.state_root), (js "event_log_root", .str body.event_log_root),
    (js "incr", .obj body.incr.rawMembers)]

/-- The checksum of a body, over the bytes of its text. -/
def checksumOf (bodyJson : Str) : Str := hex (sha256 (utf8Encode bodyJson))

/-- The text of a snapshot around the text of its body. -/
def envelopeText (bodyJson : Str) : Raw :=
  .obj [(js "checksum", .str (checksumOf bodyJson)), (js "body", .str bodyJson)]

def encodeSnapshot (body : SnapshotBody) : Str := stringify (envelopeText (stringify body.raw))

/-! ## Reading -/

/-- A member of a value that has been read. -/
def Js.member (v : Js) (k : String) : Option Js :=
  match v with
  | .obj m => get (js k) m
  | _ => none

def Js.asNat? : Js → Option ℕ
  | .num l => if isDecimal l then some (digitsValue l) else none
  | _ => none

def Js.asBig? : Js → Option ℤ
  | .big n => some n
  | _ => none

def Js.asBytes? : Js → Option (List UInt8)
  | .bytes b => some b
  | _ => none

def Js.asStr? : Js → Option Str
  | .str s => some s
  | _ => none

def IncrementalState.ofJs? (v : Js) : Option IncrementalState := do
  let state ← (v.member "state").bind Js.toJson?
  let currentTick ← (v.member "currentTick").bind Js.asBig?
  let eventCount ← (v.member "eventCount").bind Js.asNat?
  let lastEventHash ← (v.member "lastEventHash").bind Js.asBytes?
  pure ⟨state, currentTick, eventCount, lastEventHash⟩

def SnapshotBody.ofJs? (v : Js) : Option SnapshotBody := do
  let version ← (v.member "snapshot_version").bind Js.asNat?
  let coveredTick ← (v.member "covered_tick").bind Js.asBig?
  let walOffset ← (v.member "wal_offset").bind Js.asBig?
  let stateRoot ← (v.member "state_root").bind Js.asStr?
  let eventLogRoot ← (v.member "event_log_root").bind Js.asStr?
  let incr ← (v.member "incr").bind IncrementalState.ofJs?
  pure ⟨version, coveredTick, walOffset, stateRoot, eventLogRoot, incr⟩

/-- A body that has passed the checksum and been read. No writer makes one of the right version without
all of its fields; here such a body throws at once. -/
def bodyOf (v : Js) : Except Throw SnapshotBody :=
  match v with
  | .null => throw .typeError
  | v =>
    if (v.member "snapshot_version").bind Js.asNat? = some SNAPSHOT_VERSION then
      match SnapshotBody.ofJs? v with
      | some body => pure body
      | none => throw .typeError
    else throw .snapshotCorruption

def readBody (bodyJson : Str) : Except Throw SnapshotBody :=
  match dec snapshotTags bodyJson with
  | .error _ => throw .snapshotCorruption
  | .ok v => bodyOf v

/-- The texts of the body and of the checksum in a snapshot. -/
def envelopeParts : Raw → Option (Str × Str)
  | .obj m =>
    match get (js "body") m, get (js "checksum") m with
    | some (.str body), some (.str checksum) => some (body, checksum)
    | _, _ => none
  | _ => none

/-- The body in a snapshot whose text has been read. -/
def openSnapshot (outer : Raw) : Except Throw SnapshotBody :=
  match outer with
  | .null => throw .typeError
  | outer =>
    match envelopeParts outer with
    | none => throw .snapshotCorruption
    | some (body, checksum) =>
      if checksumOf body = checksum then readBody body else throw .snapshotCorruption

def decodeSnapshot (text : Str) : Except Throw SnapshotBody :=
  match parse text with
  | none => throw .snapshotCorruption
  | some outer => openSnapshot outer

/-- A text whose checksum is that of its body. -/
def passesChecksum (text : Str) : Bool :=
  ((parse text).bind envelopeParts).any fun p => checksumOf p.1 = p.2

/-- A text that is read as `null`. -/
def isNullText (text : Str) : Bool :=
  match parse text with
  | some .null => true
  | _ => false

/-- A text that does not pass the checksum is discarded, unless it is read as `null`. -/
theorem decodeSnapshot_discards {text : Str} (h : passesChecksum text = false)
    (hnull : isNullText text = false) : decodeSnapshot text = .error .snapshotCorruption := by
  unfold decodeSnapshot
  split
  · rfl
  · next outer hparse =>
    unfold openSnapshot
    split
    · simp [isNullText, hparse] at hnull
    · split
      · rfl
      · next body checksum hparts =>
        have hsum : checksumOf body ≠ checksum := by
          simpa [passesChecksum, hparse, hparts] using h
        exact if_neg hsum

/-- A text that is read as `null` throws another error, since `null` has no members. -/
theorem decodeSnapshot_null {text : Str} (h : isNullText text = true) :
    decodeSnapshot text = .error .typeError := by
  unfold isNullText at h
  split at h
  · next hparse =>
    rw [decodeSnapshot, hparse]
    rfl
  · cases h

/-! ## The round trip -/

mutual

/-- What is used as a value of the state is that value. -/
theorem eq_toJs_of_toJson? (v : Js) {w : Json} (h : v.toJson? = some w) : v = w.toJs := by
  cases v with
  | arr xs =>
    rw [Js.toJson?, Option.map_eq_some_iff] at h
    obtain ⟨ys, hys, rfl⟩ := h
    rw [Json.toJs, ← eq_toJs_of_elementsToJson? xs hys]
  | obj m =>
    rw [Js.toJson?, Option.map_eq_some_iff] at h
    obtain ⟨m', hm', rfl⟩ := h
    rw [Json.toJs, ← eq_toJs_of_membersToJson? m hm']
  | num l => cases h
  | bytes b => cases h
  | null => cases h; rfl
  | bool b => cases h; rfl
  | big n => cases h; rfl
  | str s => cases h; rfl
  | builtin k => cases h; rfl

theorem eq_toJs_of_elementsToJson? (xs : List Js) {ys : List Json}
    (h : elementsToJson? xs = some ys) : xs = elementsToJs ys := by
  cases xs with
  | nil => cases h; rfl
  | cons x xs =>
    rw [elementsToJson?] at h
    split at h
    · next y ys' hy hys =>
      cases h
      rw [elementsToJs, ← eq_toJs_of_toJson? x hy, ← eq_toJs_of_elementsToJson? xs hys]
    · cases h

theorem eq_toJs_of_membersToJson? (m : List (Str × Js)) {m' : List (Str × Json)}
    (h : membersToJson? m = some m') : m = membersToJs m' := by
  cases m with
  | nil => cases h; rfl
  | cons e m =>
    obtain ⟨k, x⟩ := e
    rw [membersToJson?] at h
    split at h
    · next y m'' hy hm =>
      cases h
      rw [membersToJs, ← eq_toJs_of_toJson? x hy, ← eq_toJs_of_membersToJson? m hm]
    · cases h

end

/-- An object of two members or more is left alone. -/
theorem reviver_cons_cons (tags : Tags) (e f : Str × Js) (m : List (Str × Js)) :
    reviver tags (e :: f :: m) = .ok (.obj (e :: f :: m)) := by
  unfold reviver
  split
  · next heq => cases heq
  · rfl

@[simp] theorem revive_rawBig (n : ℤ) : revive snapshotTags (rawBig n) = .ok (.big n) := by
  have hbig : reviver snapshotTags [(BIGINT_TAG, .str (decimal n))] = .ok (.big n) := by
    simp only [reviver, snapshotTags_sound.bigint, reviveBigint, bigIntOfStr_decimal]
    rfl
  exact hbig

@[simp] theorem revive_rawBytes (b : List UInt8) :
    revive snapshotTags (rawBytes b) = .ok (.bytes b) := by
  have htag : get BYTES_TAG snapshotTags = some reviveBytes := by
    simp [snapshotTags, OrderedMap.get, BIGINT_TAG, BYTES_TAG]
  have hbytes : reviver snapshotTags [(BYTES_TAG, .str (toHex b))] = .ok (.bytes b) := by
    simp only [reviver, htag, reviveBytes, fromHex_toHex]
    rfl
  exact hbytes

theorem asNat?_decimalNat (n : ℕ) : Js.asNat? (.num (decimalNat n)) = some n := by
  rw [Js.asNat?, if_pos (isDecimal_decimalNat n), digitsValue_decimalNat]

/-- The members of a live state as they are read, given what is read for its state. -/
def IncrementalState.jsMembers (incr : IncrementalState) (state : List (Str × Js)) :
    List (Str × Js) :=
  state ++ [(js "currentTick", .big incr.currentTick),
    (js "eventCount", .num (decimalNat incr.eventCount)), (js "lastEventHash", .bytes incr.lastEventHash)]

/-- The body as it is read, given what is read for its state. -/
def SnapshotBody.js (body : SnapshotBody) (state : List (Str × Js)) : Js :=
  .obj [(Text.js "snapshot_version", .num (decimalNat body.snapshot_version)),
    (Text.js "covered_tick", .big body.covered_tick), (Text.js "wal_offset", .big body.wal_offset),
    (Text.js "state_root", .str body.state_root), (Text.js "event_log_root", .str body.event_log_root),
    (Text.js "incr", .obj (body.incr.jsMembers state))]

/-- The body is revived around its state. -/
theorem revive_body (body : SnapshotBody) :
    (∀ r, replacer body.incr.state = some r → revive snapshotTags body.raw =
      (revive snapshotTags r).map fun w => body.js [(js "state", w)]) ∧
    (replacer body.incr.state = none → revive snapshotTags body.raw = .ok (body.js [])) := by
  constructor
  · intro r hr
    rw [SnapshotBody.raw, IncrementalState.rawMembers, hr]
    cases hw : revive snapshotTags r with
    | error e =>
      simp only [revive, reviveMembers, revive_rawBig, List.cons_append, List.nil_append, hw]
      rfl
    | ok w =>
      simp only [revive, reviveMembers, revive_rawBig, revive_rawBytes, List.cons_append,
        List.nil_append, hw, pure, Except.pure, ok_bind, reviver_cons_cons]
      rfl
  · intro hr
    rw [SnapshotBody.raw, IncrementalState.rawMembers, hr]
    simp only [revive, reviveMembers, revive_rawBig, revive_rawBytes, List.nil_append, pure,
      Except.pure, ok_bind, reviver_cons_cons]
    rfl

theorem ofJs?_js (body : SnapshotBody) (w : Js) :
    SnapshotBody.ofJs? (body.js [(js "state", w)]) =
      w.toJson?.map fun s => { body with incr := { body.incr with state := s } } := by
  obtain ⟨version, covered, offset, root, logRoot, state, tick, count, hash⟩ := body
  have hversion := asNat?_decimalNat version
  have hcount := asNat?_decimalNat count
  cases hw : w.toJson? with
  | none =>
    simp [SnapshotBody.ofJs?, SnapshotBody.js, Js.member, OrderedMap.get, hversion,
      IncrementalState.ofJs?, IncrementalState.jsMembers, Js.asBig?, Js.asStr?, hw]
  | some s =>
    simp [SnapshotBody.ofJs?, SnapshotBody.js, Js.member, OrderedMap.get, hversion, hcount,
      IncrementalState.ofJs?, IncrementalState.jsMembers, Js.asBig?, Js.asStr?, Js.asBytes?, hw]

theorem ofJs?_js_nil (body : SnapshotBody) : SnapshotBody.ofJs? (body.js []) = none := by
  have hversion := asNat?_decimalNat body.snapshot_version
  simp [SnapshotBody.ofJs?, SnapshotBody.js, Js.member, OrderedMap.get, hversion,
    IncrementalState.ofJs?, IncrementalState.jsMembers, Js.asBig?, Js.asStr?]

/-- Distinct names that are no array indices are in order. -/
theorem normal_of_names {α : Type} {m : List (Str × α)} (names : List String)
    (hkeys : m.map Prod.fst = names.map Text.js)
    (hnames : (names.map Text.js).Pairwise fun k l => k ≠ l ∧ keyBefore l k = false) :
    Normal keyBefore m := by
  rw [← hkeys] at hnames
  exact List.pairwise_map.mp hnames

theorem proper_rawBig (n : ℤ) : (rawBig n).Proper := ⟨List.pairwise_singleton _ _, trivial, trivial⟩

theorem proper_rawBytes (b : List UInt8) : (rawBytes b).Proper :=
  ⟨List.pairwise_singleton _ _, trivial, trivial⟩

theorem proper_body {body : SnapshotBody} (h : body.incr.state.fits ordered = true) :
    body.raw.Proper := by
  refine ⟨normal_of_names ["snapshot_version", "covered_tick", "wal_offset", "state_root",
    "event_log_root", "incr"] rfl (by decide), isDecimal_decimalNat _, proper_rawBig _,
    proper_rawBig _, trivial, trivial, ?_, trivial⟩
  have hstate := proper_replacer body.incr.state h
  cases hr : replacer body.incr.state with
  | none =>
    rw [IncrementalState.rawMembers, hr]
    exact ⟨normal_of_names ["currentTick", "eventCount", "lastEventHash"] rfl (by decide),
      proper_rawBig _, isDecimal_decimalNat _, proper_rawBytes _, trivial⟩
  | some r =>
    rw [IncrementalState.rawMembers, hr]
    exact ⟨normal_of_names ["state", "currentTick", "eventCount", "lastEventHash"] rfl (by decide),
      hstate r hr, proper_rawBig _, isDecimal_decimalNat _, proper_rawBytes _, trivial⟩

theorem proper_envelope (bodyJson : Str) : (envelopeText bodyJson).Proper :=
  ⟨normal_of_names ["checksum", "body"] rfl (by decide), trivial, trivial, trivial⟩

theorem wellFormed_encodeSnapshot (body : SnapshotBody) : wellFormed (encodeSnapshot body) = true :=
  (printable_stringify _ (proper_envelope _)).1

/-- A snapshot passes its own checksum, so that its body is read. -/
theorem decodeSnapshot_encode_eq (body : SnapshotBody) :
    decodeSnapshot (encodeSnapshot body) = readBody (stringify body.raw) := by
  have hparts : envelopeParts (envelopeText (stringify body.raw)) =
      some (stringify body.raw, checksumOf (stringify body.raw)) := by
    simp [envelopeText, envelopeParts, OrderedMap.get]
  rw [decodeSnapshot, encodeSnapshot, parse_stringify (proper_envelope _)]
  change openSnapshot (envelopeText (stringify body.raw)) = _
  unfold openSnapshot
  split
  · next h => cases h
  · rw [hparts]
    exact if_pos rfl

/-- A body of this version is taken, if it has all its fields. -/
theorem bodyOf_js {body : SnapshotBody} (hversion : body.snapshot_version = SNAPSHOT_VERSION)
    (state : List (Str × Js)) : bodyOf (body.js state) =
      match SnapshotBody.ofJs? (body.js state) with
      | some b => .ok b
      | none => .error .typeError := by
  have hv : ((body.js state).member "snapshot_version").bind Js.asNat? = some SNAPSHOT_VERSION := by
    rw [← hversion]
    exact asNat?_decimalNat _
  unfold bodyOf
  split
  · next h => cases h
  · rw [if_pos hv]
    rfl

/-- A body with another state. -/
def SnapshotBody.withState (body : SnapshotBody) (state : State) : SnapshotBody :=
  { body with incr := { body.incr with state := state } }

/-- What is read of a snapshot of this version: its body, with what its state has become. -/
theorem decodeSnapshot_encode_eq_ok {body b : SnapshotBody}
    (hversion : body.snapshot_version = SNAPSHOT_VERSION)
    (hord : body.incr.state.fits ordered = true) :
    decodeSnapshot (encodeSnapshot body) = .ok b ↔
      ∃ r, ∃ state : State, replacer body.incr.state = some r ∧
        revive snapshotTags r = .ok state.toJs ∧ b = body.withState state := by
  obtain ⟨hsome, hnone⟩ := revive_body body
  rw [decodeSnapshot_encode_eq, readBody, dec_stringify (proper_body hord)]
  constructor
  · intro h
    cases hr : replacer body.incr.state with
    | none =>
      rw [hnone hr] at h
      change bodyOf (body.js []) = _ at h
      rw [bodyOf_js hversion, ofJs?_js_nil] at h
      cases h
    | some r =>
      cases hw : revive snapshotTags r with
      | error e =>
        rw [hsome r hr, hw] at h
        cases h
      | ok w =>
        rw [hsome r hr, hw] at h
        change bodyOf (body.js [(js "state", w)]) = _ at h
        rw [bodyOf_js hversion, ofJs?_js] at h
        cases hs : w.toJson? with
        | none =>
          rw [hs] at h
          cases h
        | some state =>
          rw [hs] at h
          refine ⟨r, state, rfl, ?_, (Except.ok.inj h).symm⟩
          rw [hw, eq_toJs_of_toJson? w hs]
  · rintro ⟨r, state, hr, hrev, rfl⟩
    rw [hsome r hr, hrev]
    change bodyOf (body.js [(js "state", state.toJs)]) = _
    rw [bodyOf_js hversion, ofJs?_js, toJson?_toJs]
    rfl

/-- A snapshot of this version is read back exactly if the codec loses nothing of its state. -/
theorem decodeSnapshot_encode {body : SnapshotBody} (hversion : body.snapshot_version = SNAPSHOT_VERSION)
    (hord : body.incr.state.fits ordered = true) :
    decodeSnapshot (encodeSnapshot body) = .ok body ↔
      body.incr.state.fits (lossless [BIGINT_TAG, BYTES_TAG]) = true := by
  have hiff := revive_replacer snapshotTags_sound body.incr.state
  rw [show snapshotTags.map Prod.fst = [BIGINT_TAG, BYTES_TAG] from rfl] at hiff
  rw [decodeSnapshot_encode_eq_ok hversion hord, ← hiff]
  constructor
  · rintro ⟨r, state, hr, hrev, hbody⟩
    -- the body that is read has the state that was written
    have hstate : body.incr.state = state := congrArg (fun b => b.incr.state) hbody
    exact ⟨r, hr, hstate ▸ hrev⟩
  · rintro ⟨r, hr, hrev⟩
    exact ⟨r, body.incr.state, hr, hrev, rfl⟩

end ParadigmTerra
