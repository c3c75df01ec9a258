import ParadigmTerra.Node.Backup

/-!
# Compaction

A compaction moves the part of the log that the newest snapshot covers into an archive, and keeps the
snapshot, with its offset rebased to the start of what is left of the log. From then on the snapshot bears
the state: without it the log begins in the middle. The archive is to take its place when it is lost.

`StockHolds` is the invariant over any number of compactions: the log holds the blocks from some block on,
and where that is not all of them there is a snapshot. `StockHolds.compactNode` says what a compaction makes
of a sound directory, and `StockHolds.perform` is the step lemma.
-/

namespace ParadigmTerra

open Text OrderedMap Fallible JsonText Runs

variable {H : Host}

def COMPACTION_SCHEMA_VERSION : ℕ := 1

structure CompactionManifest where
  compaction_schema_version : ℕ
  cut_offset : ℕ
  covered_tick : ℤ
  archive_bytes : ℕ
  live_wal_bytes : ℕ
  original_wal_bytes : ℕ
  expected : Expected

/-- What a compaction writes beside the files of the node. -/
structure Compaction where
  archive : List UInt8
  manifest : CompactionManifest

/-! ## Compacting -/

/-- The better one of the snapshots so far and the next: it can be read, is not ahead of the log, and
covers more ticks. -/
def betterSnapshot (walSize : ℕ) (best : Option (SnapEntry × SnapshotBody)) (entry : SnapEntry) :
    Option (SnapEntry × SnapshotBody) :=
  match decodeSnapshot (utf8Decode entry.bytes) with
  | .error _ => best
  | .ok body =>
    if walSize < body.wal_offset then best
    else if best.all fun b => b.2.covered_tick < body.covered_tick then some (entry, body)
    else best

def latestValidSnapshot (src : NodeDir) (walSize : ℕ) : Option (SnapEntry × SnapshotBody) :=
  (listSnapshots src.files).foldl (betterSnapshot walSize) none

/-- Compacts a directory into a fresh one behind a snapshot. -/
def compactBehind (H : Host) (src : NodeDir) (entry : SnapEntry) (body : SnapshotBody) :
    Except BackupThrow (NodeDir × Compaction) := do
  let cut := body.wal_offset.toNat
  require (offsetOnBoundary src.wal cut) (.backup (.notOnLineBoundary cut))
  let archive := src.wal.take cut
  let tail := src.wal.drop cut
  let rebased ← onNode (makeSnapshotBody H body.incr body.covered_tick 0)
  let dest : NodeDir := ⟨src.genesis, tail, [(entry.name, utf8Encode (encodeSnapshot rebased))], none⟩
  let node ← onNode (openNode H dest false)
  let o ← onNode (node.observe H)
  pure (dest, ⟨archive, ⟨COMPACTION_SCHEMA_VERSION, cut, body.covered_tick, archive.length,
    tail.length, src.wal.length, o.expected⟩⟩)

def compactNode (H : Host) (src : NodeDir) : Except BackupThrow (NodeDir × Compaction) :=
  match latestValidSnapshot src src.wal.length with
  | some (entry, body) => compactBehind H src entry body
  | none => throw (.backup .noValidSnapshot)

/-! ## Restoring -/

/-- The manifest and the archive of a compacted directory. -/
def readCompaction (compaction : Option Compaction) : Except BackupThrow Compaction := do
  match compaction with
  | none => throw (.backup .noManifest)
  | some c => do
    require (c.manifest.compaction_schema_version = COMPACTION_SCHEMA_VERSION)
      (.backup (.unsupportedVersion c.manifest.compaction_schema_version))
    pure c

/-- Replays the archive and the log from genesis. -/
def replayFromFull (H : Host) (dir : NodeDir) (compaction : Option Compaction) :
    Except BackupThrow OvtNode := do
  let c ← readCompaction compaction
  require (c.archive.length = c.manifest.archive_bytes ∧ dir.wal.length = c.manifest.live_wal_bytes)
    (.backup (.archiveSizes c.archive.length dir.wal.length c.manifest.archive_bytes
      c.manifest.live_wal_bytes))
  onNode (openNode H ⟨dir.genesis, c.archive ++ dir.wal, [], none⟩ false)

/-- A node that is opened, if it shows what is expected. -/
def openExpected (H : Host) (dir : NodeDir) (expected : Expected) : Except Throw (Option OvtNode) := do
  let node ← openNode H dir false
  let o ← node.observe H
  pure (if expected.matches o then some node else none)

/-- Opens a copy of the directory. A snapshot that is ahead of the log is no error here. -/
def restoreFast (H : Host) (dir : NodeDir) (expected : Expected) :
    Except BackupThrow (Option OvtNode) :=
  match openExpected H ⟨dir.genesis, dir.wal, copySnapshots dir.files, none⟩ expected with
  | .error .snapshotCorruption => pure none
  | r => onNode r

/-- Restores a compacted directory from its snapshot and its log, or from the archive and the log. -/
def restoreCompacted (H : Host) (dir : NodeDir) (compaction : Option Compaction) :
    Except BackupThrow OvtNode := do
  let c ← readCompaction compaction
  match ← restoreFast H dir c.manifest.expected with
  | some node => pure node
  | none => do
    let node ← replayFromFull H dir compaction
    let o ← onNode (node.observe H)
    require (c.manifest.expected.matches o)
      (.backup (.stateMismatch o.stateRoot c.manifest.expected.state_root))
    pure node

/-! ## Retention -/

section

variable {files : List (Str × List UInt8)}

/-- No published snapshot has the name of a temporary file. -/
theorem isTmp_of_snapshotTick? {name : Str} {k : ℕ} (h : snapshotTick? name = some k) :
    isTmp name = false := by
  simp only [snapshotTick?] at h
  split at h
  · next hname =>
    rw [isTmp, Bool.eq_false_iff, ne_eq, List.isSuffixOf_iff_suffix]
    rintro ⟨front, hfront⟩
    have hp : (js ".json.tmp").getLast? = some 0x70 := by decide
    have hn : (js ".json").getLast? = some 0x6E := by decide
    have hlast := congrArg List.getLast? hfront
    rw [hname.2, List.getLast?_append, List.getLast?_append, hp, hn] at hlast
    exact absurd (Option.some.inj hlast) (by decide)
  · cases h

/-- The names of the snapshots are among those of the files. -/
theorem nodup_names (h : (files.map Prod.fst).Nodup) :
    ((listSnapshots files).map SnapEntry.name).Nodup := by
  have hsub : ((files.filterMap SnapEntry.of?).map SnapEntry.name).Sublist (files.map Prod.fst) := by
    clear h
    induction files with
    | nil => exact List.Sublist.slnil
    | cons file files ih =>
      rw [List.filterMap_cons, List.map_cons]
      cases hof : SnapEntry.of? file with
      | none => exact ih.cons file.1
      | some e =>
        rw [SnapEntry.of?, Option.map_eq_some_iff] at hof
        obtain ⟨k, -, rfl⟩ := hof
        exact ih.cons_cons file.1
  have hperm := (List.perm_insertionSort (fun a b : SnapEntry => b.coveredTick ≤ a.coveredTick)
    (files.filterMap SnapEntry.of?)).map SnapEntry.name
  exact hperm.nodup_iff.mpr (h.sublist hsub)

/-- The newest snapshot is kept, if any is. -/
theorem newest_mem_pruneSnapshots (hnames : (files.map Prod.fst).Nodup) {keep : ℕ} (hkeep : keep ≠ 0)
    {e : SnapEntry} {es : List SnapEntry} (h : listSnapshots files = e :: es) :
    ∃ file ∈ pruneSnapshots files keep, SnapEntry.of? file = some e := by
  have hmem : e ∈ listSnapshots files := by rw [h]; exact List.mem_cons_self
  obtain ⟨file, hfile, hof⟩ := mem_listSnapshots.mp hmem
  obtain ⟨k, hk, hentry⟩ := Option.map_eq_some_iff.mp hof
  have hname : e.name = file.1 := by rw [← hentry]
  refine ⟨file, List.mem_filter.mpr ⟨hfile, ?_⟩, hof⟩
  rw [Bool.and_eq_true, decide_eq_true_eq, isTmp_of_snapshotTick? hk]
  refine ⟨fun hold => ?_, rfl⟩
  -- an older snapshot would have the same name
  obtain ⟨n, rfl⟩ := Nat.exists_eq_succ_of_ne_zero hkeep
  rw [h, List.drop_succ_cons, ← hname] at hold
  have hnodup := nodup_names hnames
  rw [h, List.map_cons, List.nodup_cons] at hnodup
  obtain ⟨e', he', heq⟩ := List.mem_map.mp hold
  exact hnodup.1 (List.mem_map.mpr ⟨e', List.mem_of_mem_drop he', heq⟩)

theorem pruneSnapshots_ne_nil (hnames : (files.map Prod.fst).Nodup) {keep : ℕ} (hkeep : keep ≠ 0)
    (h : listSnapshots files ≠ []) : listSnapshots (pruneSnapshots files keep) ≠ [] := by
  obtain ⟨e, es, hlist⟩ := List.exists_cons_of_ne_nil h
  obtain ⟨file, hfile, hof⟩ := newest_mem_pruneSnapshots hnames hkeep hlist
  exact List.ne_nil_of_mem (mem_listSnapshots.mpr ⟨file, hfile, hof⟩)

theorem listSnapshots_ne_nil {file : Str × List UInt8} (hfile : file ∈ files) {k : ℕ}
    (hk : snapshotTick? file.1 = some k) : listSnapshots files ≠ [] := by
  have hof : SnapEntry.of? file = some ⟨k, file.1, file.2⟩ := by rw [SnapEntry.of?, hk]; rfl
  exact List.ne_nil_of_mem (mem_listSnapshots.mpr ⟨file, hfile, hof⟩)

theorem writeSnapshotFile_ne_nil (files : List (Str × List UInt8)) {body : SnapshotBody} {n : ℕ}
    (htick : body.covered_tick = n) : listSnapshots (writeSnapshotFile files body) ≠ [] := by
  have hget : get (snapshotName body.covered_tick) (writeSnapshotFile files body) =
      some (utf8Encode (encodeSnapshot body)) := get_put_self
  refine listSnapshots_ne_nil (mem_of_get hget) (k := n) ?_
  rw [htick, snapshotTick?_snapshotName]

theorem nodup_writeSnapshotFile (h : (files.map Prod.fst).Nodup) (body : SnapshotBody) :
    ((writeSnapshotFile files body).map Prod.fst).Nodup := by
  have hnormal : Normal (fun _ _ => false) files :=
    (List.pairwise_map.mp h).imp fun hne => ⟨hne, rfl⟩
  exact ((hnormal.erase _).put nofun (fun _ _ _ => rfl) _ _).nodup

end

/-! ## Runs with compactions -/

/-- The newest directory, the node on it, what its compaction has left if it comes from one, and the ticks
that were acknowledged. -/
structure Stock where
  dir : NodeDir
  node : OvtNode
  compaction : Option Compaction
  acknowledged : List TickBlock

inductive StockOp
  | submit (submissions : List Submission)
  | snapshot (keep : ℕ)
  | compact

/-- A node that has just been created. -/
def Stock.start (s : System) : Stock := ⟨s.1, s.2, none, []⟩

/-- The stock after an operation. A compacted directory takes the place of the one it was made from. -/
def Stock.perform (H : Host) (s : Stock) : StockOp → Stock
  | .submit submissions =>
    match submit H s.dir s.node submissions with
    | (dir, node, .ok _) =>
      { s with dir := dir, node := node, acknowledged := s.acknowledged ++ [s.node.block submissions] }
    | (dir, node, .error _) => { s with dir := dir, node := node }
  | .snapshot keep =>
    match snapshot H s.dir s.node keep with
    | .ok dir => { s with dir := dir }
    | .error _ => s
  | .compact =>
    match compactNode H s.dir with
    | .ok (dir, c) =>
      match openNode H dir false with
      | .ok node => { s with dir := dir, node := node, compaction := some c }
      | .error _ => s
    | .error _ => s

/-- A submit returns and its block comes back from the log, a snapshot is taken of a state that comes back
from it, and in a compacted directory at least one snapshot is kept. -/
def StockSound (H : Host) (s : Stock) : StockOp → Prop
  | .submit submissions => (s.node.block submissions).Durable ∧
      (submit H s.dir s.node submissions).2.2.isOk = true
  | .snapshot keep => s.node.liveIncr.state.fits (lossless [BIGINT_TAG, BYTES_TAG]) = true ∧
      (s.compaction.isSome = true → keep ≠ 0)
  | .compact => True

/-- A published snapshot can be read, and the state in it can be written again. -/
def Rewritable (file : Str × List UInt8) : Prop :=
  ∀ k, snapshotTick? file.1 = some k → ∃ body, decodeSnapshot (utf8Decode file.2) = .ok body ∧
    body.incr.state.fits (lossless [BIGINT_TAG, BYTES_TAG]) = true

/-- What a compaction has left: the archive has blocks up to the start of the log, and the manifest expects
the live state after the blocks that were in the log then. -/
structure CompactionHolds (H : Host) (g : State) (blocks : List TickBlock) (base : ℕ) (c : Compaction) :
    Prop where
  version : c.manifest.compaction_schema_version = COMPACTION_SCHEMA_VERSION
  archive : ∃ first ≤ base, c.archive = walBytes ((blocks.take base).drop first)
  archive_bytes : c.manifest.archive_bytes = c.archive.length
  expected : ∃ (node : OvtNode) (o : NodeObservation), base ≤ node.committedTicks ∧
    node.committedTicks ≤ blocks.length ∧
    c.manifest.live_wal_bytes = (walBytes ((blocks.take node.committedTicks).drop base)).length ∧
    LiveAfter H g (blocks.take node.committedTicks) node.liveIncr ∧
    node.observe H = .ok o ∧ c.manifest.expected = o.expected

/-- The log holds the blocks from `base` on, and where that is not all of them there is a snapshot. -/
structure StockHolds (H : Host) (g : State) (base : ℕ) (s : Stock) : Prop where
  dir : DirHolds H g s.acknowledged base s.dir
  live : LiveAfter H g s.acknowledged s.node.liveIncr
  ticks : s.node.committedTicks = s.acknowledged.length
  names : (s.dir.files.map Prod.fst).Nodup
  rewritable : ∀ file ∈ s.dir.files, Rewritable file
  snapshot : s.compaction.isSome = true → listSnapshots s.dir.files ≠ []
  base_eq : s.compaction = none → base = 0
  compaction : ∀ c ∈ s.compaction, CompactionHolds H g s.acknowledged base c

section

variable {g : State} {base : ℕ} {s : Stock}

theorem hasSnapshot_of_ne_nil {dir : NodeDir} (hfiles : ∀ file ∈ dir.files, Rewritable file)
    (h : listSnapshots dir.files ≠ []) : HasSnapshot dir := by
  obtain ⟨e, he⟩ := List.exists_mem_of_ne_nil _ h
  obtain ⟨file, hfile, hof⟩ := mem_listSnapshots.mp he
  obtain ⟨k, hk, rfl⟩ := Option.map_eq_some_iff.mp hof
  obtain ⟨body, hbody, -⟩ := hfiles file hfile k hk
  refine ⟨_, he, ?_⟩
  rw [hbody]
  nofun

/-- The log is whole, or there is a snapshot. -/
theorem StockHolds.covered (h : StockHolds H g base s) : base = 0 ∨ HasSnapshot s.dir := by
  cases hcompaction : s.compaction with
  | none => exact .inl (h.base_eq hcompaction)
  | some c =>
    refine .inr (hasSnapshot_of_ne_nil h.rewritable (h.snapshot ?_))
    rw [hcompaction]
    rfl

theorem StockHolds.live_eq (h : StockHolds H g base s) :
    s.node.live = (s.node.liveIncr, s.acknowledged.length) := by rw [OvtNode.live, h.ticks]

theorem CompactionHolds.append {blocks : List TickBlock} {c : Compaction}
    (h : CompactionHolds H g blocks base c) (hbase : base ≤ blocks.length) (post : List TickBlock) :
    CompactionHolds H g (blocks ++ post) base c := by
  obtain ⟨first, hfirst, harchive⟩ := h.archive
  obtain ⟨node, o, hle, hticks, hbytes, hlive, hobserve, hexpected⟩ := h.expected
  have htake : (blocks ++ post).take node.committedTicks = blocks.take node.committedTicks :=
    List.take_append_of_le_length hticks
  refine ⟨h.version, ⟨first, hfirst, ?_⟩, h.archive_bytes, node, o, hle, ?_, ?_, ?_, hobserve,
    hexpected⟩
  · rw [List.take_append_of_le_length hbase, harchive]
  · rw [List.length_append]
    omega
  · rw [htake, hbytes]
  · rw [htake]
    exact hlive

/-- A submit that returns. -/
theorem StockHolds.submit (h : StockHolds H g base s) {submissions : List Submission}
    (hdurable : (s.node.block submissions).Durable)
    (hok : (ParadigmTerra.submit H s.dir s.node submissions).2.2.isOk = true) :
    StockHolds H g base (s.perform H (.submit submissions)) := by
  obtain ⟨step, head, node, hstep, hsubmit, hnode⟩ := submit_of_isOk hok
  rw [OvtNode.live, Prod.mk.injEq] at hnode
  have hticks : node.committedTicks = (s.acknowledged ++ [s.node.block submissions]).length := by
    rw [hnode.2, h.ticks, List.length_append, List.length_singleton]
  simp only [Stock.perform, hsubmit]
  exact {
    dir := h.dir.append hdurable _
    live := by
      rw [hnode.1]
      exact h.live.snoc hstep
    ticks := hticks
    names := h.names
    rewritable := h.rewritable
    snapshot := h.snapshot
    base_eq := h.base_eq
    compaction := fun c hc => (h.compaction c hc).append h.dir.base_le _ }

/-- A snapshot is published, and the newest ones are kept. -/
theorem StockHolds.publish (hord : g.fits ordered = true) (h : StockHolds H g base s) {keep : ℕ}
    (hstate : s.node.liveIncr.state.fits (lossless [BIGINT_TAG, BYTES_TAG]) = true)
    (hkeep : s.compaction.isSome = true → keep ≠ 0) :
    StockHolds H g base (s.perform H (.snapshot keep)) := by
  simp only [Stock.perform]
  split
  · next dir hdir =>
    obtain ⟨folded, hfold, hincr⟩ := h.live
    have hlive_ord : s.node.liveIncr.state.fits ordered = true := by
      rw [← hincr]
      exact foldBlocks_ordered hord h.dir.durable hfold
    have hsound := h.dir.snapshot h.live h.ticks hlive_ord hstate hdir
    simp only [ParadigmTerra.snapshot, bind_eq_ok, pure_eq_ok] at hdir
    obtain ⟨body, hbody, rfl⟩ := hdir
    rw [h.ticks] at hbody
    obtain ⟨hdecode, htick, -⟩ := fileSound_snapshot h.dir h.live hlive_ord hstate hbody
    have hbody_state : body.incr.state.fits (lossless [BIGINT_TAG, BYTES_TAG]) = true := by
      simp only [makeSnapshotBody, bind_eq_ok, pure_eq_ok] at hbody
      obtain ⟨stateRoot, -, eventLogRoot, -, rfl⟩ := hbody
      exact hstate
    have hnames := nodup_writeSnapshotFile h.names body
    exact {
      dir := hsound
      live := ⟨folded, hfold, hincr⟩
      ticks := h.ticks
      names := hnames.sublist (List.filter_sublist.map Prod.fst)
      rewritable := by
        intro file hfile
        rcases mem_putFile (List.mem_filter.mp hfile).1 with rfl | hold
        · exact fun _ _ => ⟨body, hdecode, hbody_state⟩
        · exact h.rewritable file (mem_erase.mp hold).1
      snapshot := fun hcompaction =>
        pruneSnapshots_ne_nil hnames (hkeep hcompaction) (writeSnapshotFile_ne_nil s.dir.files htick)
      base_eq := h.base_eq
      compaction := h.compaction }
  · exact h

/-- The snapshot behind which a directory is compacted is published, and can be read. -/
theorem latestValidSnapshot_spec {src : NodeDir} {n : ℕ} {e : SnapEntry} {body : SnapshotBody}
    (h : latestValidSnapshot src n = some (e, body)) :
    e ∈ listSnapshots src.files ∧ decodeSnapshot (utf8Decode e.bytes) = .ok body := by
  have hfold : ∀ (l : List SnapEntry) (best : Option (SnapEntry × SnapshotBody)),
      (∀ b ∈ best, b.1 ∈ listSnapshots src.files ∧ decodeSnapshot (utf8Decode b.1.bytes) = .ok b.2) →
      (∀ e ∈ l, e ∈ listSnapshots src.files) → ∀ b ∈ l.foldl (betterSnapshot n) best,
      b.1 ∈ listSnapshots src.files ∧ decodeSnapshot (utf8Decode b.1.bytes) = .ok b.2 := by
    intro l
    induction l with
    | nil => exact fun best hbest _ => hbest
    | cons e l ih =>
      intro best hbest hl
      obtain ⟨he, hl⟩ := List.forall_mem_cons.mp hl
      refine ih _ ?_ hl
      unfold betterSnapshot
      cases hdecode : decodeSnapshot (utf8Decode e.bytes) with
      | error t => exact hbest
      | ok body =>
        simp only
        split_ifs
        · exact hbest
        · rintro b ⟨rfl⟩
          exact ⟨he, hdecode⟩
        · exact hbest
  exact hfold _ none nofun (fun _ he => he) (e, body) h

/-- A published snapshot that can be read covers the ticks in its name. -/
theorem StockHolds.covers (h : StockHolds H g base s) {e : SnapEntry} {body : SnapshotBody}
    (he : e ∈ listSnapshots s.dir.files) (hdecode : decodeSnapshot (utf8Decode e.bytes) = .ok body) :
    snapshotTick? e.name = some e.coveredTick ∧ Covers H g s.acknowledged base e.coveredTick body ∧
      body.incr.state.fits (lossless [BIGINT_TAG, BYTES_TAG]) = true := by
  obtain ⟨file, hfile, hof⟩ := mem_listSnapshots.mp he
  obtain ⟨k, hk, rfl⟩ := Option.map_eq_some_iff.mp hof
  obtain ⟨body', hbody', hstate⟩ := h.rewritable file hfile k hk
  obtain rfl : body' = body := Except.ok.inj (hbody'.symm.trans hdecode)
  refine ⟨hk, ?_, hstate⟩
  rcases h.dir.files file hfile k hk with hbad | ⟨body'', hbody'', hcov⟩
  · rw [hbad] at hbody'
    cases hbody'
  · exact Except.ok.inj (hbody''.symm.trans hbody') ▸ hcov

/-- A snapshot that is rebased to the start of the log behind it. -/
theorem Covers.rebase {blocks : List TickBlock} {k : ℕ} {body rebased : SnapshotBody}
    (hcov : Covers H g blocks base k body) (hord : body.incr.state.fits ordered = true)
    (hstate : body.incr.state.fits (lossless [BIGINT_TAG, BYTES_TAG]) = true)
    (h : makeSnapshotBody H body.incr body.covered_tick 0 = .ok rebased) :
    decodeSnapshot (utf8Decode (utf8Encode (encodeSnapshot rebased))) = .ok rebased ∧
      Covers H g blocks k k rebased ∧ rebased.incr = body.incr := by
  obtain ⟨hversion, hincr, htick, hoffset⟩ : rebased.snapshot_version = SNAPSHOT_VERSION ∧
      rebased.incr = body.incr ∧ rebased.covered_tick = body.covered_tick ∧ rebased.wal_offset = 0 := by
    simp only [makeSnapshotBody, bind_eq_ok, pure_eq_ok] at h
    obtain ⟨stateRoot, -, eventLogRoot, -, rfl⟩ := h
    exact ⟨rfl, rfl, rfl, rfl⟩
  rw [← hincr] at hord hstate
  refine ⟨?_, ⟨htick.trans hcov.tick, le_rfl, hcov.le, ?_, ?_⟩, hincr⟩
  · rw [utf8Decode_encode (wellFormed_encodeSnapshot _)]
    exact (decodeSnapshot_encode hversion hord).mpr hstate
  · have hnil : (blocks.take k).drop k = [] := by
      refine List.drop_eq_nil_of_le ?_
      rw [List.length_take]
      omega
    rw [hnil, hoffset]
    rfl
  · rw [hincr]
    exact hcov.live

/-- What a snapshot leaves of the log, and what it takes away. -/
theorem Covers.cut {blocks : List TickBlock} {k : ℕ} {body : SnapshotBody} {wal : List UInt8}
    (hcov : Covers H g blocks base k body) (hlog : LogHolds blocks base wal) :
    wal.take body.wal_offset.toNat = walBytes ((blocks.take k).drop base) ∧
      wal.drop body.wal_offset.toNat = walBytes (blocks.drop k) := by
  rw [hcov.offset, Int.toNat_natCast, hcov.wal_eq hlog, List.take_left, List.drop_left]
  exact ⟨rfl, rfl⟩

/-- The directory that a compaction writes. -/
theorem StockHolds.compacted_dir {k : ℕ} {dir : NodeDir} {name : Str} {rebased : SnapshotBody}
    (h : StockHolds H g base s) (hgenesis : dir.genesis = s.dir.genesis)
    (hwal : dir.wal = walBytes (s.acknowledged.drop k))
    (hfiles : dir.files = [(name, utf8Encode (encodeSnapshot rebased))])
    (hk : snapshotTick? name = some k) (hcov : Covers H g s.acknowledged k k rebased)
    (hreread : decodeSnapshot (utf8Decode (utf8Encode (encodeSnapshot rebased))) = .ok rebased)
    (hstate : rebased.incr.state.fits (lossless [BIGINT_TAG, BYTES_TAG]) = true) :
    DirHolds H g s.acknowledged k dir ∧ (∀ file ∈ dir.files, Rewritable file) ∧
      listSnapshots dir.files ≠ [] := by
  refine ⟨⟨⟨h.dir.durable, hcov.le, hwal⟩, ?_, ?_⟩, ?_, ?_⟩
  · rw [readGenesis, hgenesis]
    exact h.dir.genesis
  · rw [hfiles]
    refine List.forall_mem_singleton.mpr fun k' hk' => ?_
    rw [hk, Option.some.injEq] at hk'
    exact .inr ⟨rebased, hreread, hk' ▸ hcov⟩
  · rw [hfiles]
    exact List.forall_mem_singleton.mpr fun _ _ => ⟨rebased, hreread, hstate⟩
  · rw [hfiles]
    exact listSnapshots_ne_nil (List.mem_singleton.mpr rfl) hk

/-- A compacted directory is sound, with a log that starts where the snapshot ends. The archive and the log
together are the log that was compacted. -/
theorem StockHolds.compactNode (hord : g.fits ordered = true) (h : StockHolds H g base s) {dir : NodeDir}
    {c : Compaction} (hcompact : compactNode H s.dir = .ok (dir, c)) :
    ∃ e ∈ listSnapshots s.dir.files, ∃ node, openNode H dir false = .ok node ∧
      StockHolds H g e.coveredTick ⟨dir, node, some c, s.acknowledged⟩ ∧
      c.archive ++ dir.wal = s.dir.wal := by
  unfold ParadigmTerra.compactNode at hcompact
  split at hcompact
  · next e body hlatest =>
    obtain ⟨he, hdecode⟩ := latestValidSnapshot_spec hlatest
    obtain ⟨hname, hcov, hstate⟩ := h.covers he hdecode
    obtain ⟨harchive, htail⟩ := hcov.cut h.dir.toLogHolds
    have hord_body : body.incr.state.fits ordered = true := by
      obtain ⟨folded, hfold, hincr⟩ := hcov.live
      rw [← hincr]
      exact foldBlocks_ordered hord (fun b hb => h.dir.durable b (List.mem_of_mem_take hb)) hfold
    simp only [compactBehind, bind_eq_ok, require_eq_ok, onNode_eq_ok, pure_eq_ok] at hcompact
    obtain ⟨-, -, rebased, hrebased, node, hopen, o, hobserve, heq⟩ := hcompact
    obtain ⟨hreread, hcov', hincr⟩ := hcov.rebase hord_body hstate hrebased
    obtain ⟨rfl, rfl⟩ := Prod.mk.inj heq
    obtain ⟨hdir, hrewritable, hlist⟩ := @StockHolds.compacted_dir H g _ s _
      ⟨s.dir.genesis, s.dir.wal.drop body.wal_offset.toNat,
        [(e.name, utf8Encode (encodeSnapshot rebased))], none⟩ _ _ h
      rfl htail rfl hname hcov' hreread (hincr ▸ hstate)
    obtain ⟨node', hopen', hlive⟩ :=
      openNode_live hdir h.live (.inr (hasSnapshot_of_ne_nil hrewritable hlist))
    obtain rfl : node' = node := Except.ok.inj (hopen'.symm.trans hopen)
    rw [OvtNode.live, Prod.mk.injEq] at hlive
    have hlive' : LiveAfter H g s.acknowledged node'.liveIncr := by
      rw [hlive.1]
      exact h.live
    have hall : s.acknowledged.take node'.committedTicks = s.acknowledged := by
      rw [hlive.2, List.take_length]
    refine ⟨e, he, node', hopen, ?_, List.take_append_drop _ _⟩
    refine ⟨hdir, hlive', hlive.2, List.nodup_singleton _, hrewritable, fun _ => hlist, fun hnone => (by cases hnone), ?_⟩
    intro c hc
    rw [← Option.mem_some.mp hc]
    refine ⟨rfl, ⟨base, hcov.base_le, harchive⟩, rfl, node', o, ?_, hlive.2.le, ?_, ?_, hobserve, rfl⟩
    · rw [hlive.2]
      exact hcov.le
    · rw [hall, ← htail]
    · rw [hall]
      exact hlive'
  · cases hcompact

/-- A snapshot to compact behind is found, if there is one. -/
theorem StockHolds.latestValidSnapshot (h : StockHolds H g base s)
    (hlist : listSnapshots s.dir.files ≠ []) :
    ∃ e body, latestValidSnapshot s.dir s.dir.wal.length = some (e, body) := by
  have hstep : ∀ e ∈ listSnapshots s.dir.files, ∀ best,
      (betterSnapshot s.dir.wal.length best e).isSome = true := by
    intro e he best
    obtain ⟨file, hfile, hof⟩ := mem_listSnapshots.mp he
    obtain ⟨k, hk, rfl⟩ := Option.map_eq_some_iff.mp hof
    obtain ⟨body, hdecode, -⟩ := h.rewritable file hfile k hk
    obtain ⟨-, hcov, -⟩ := h.covers he hdecode
    have hle : ¬(s.dir.wal.length : ℤ) < body.wal_offset := by
      rw [hcov.offset, hcov.wal_eq h.dir.toLogHolds, List.length_append]
      omega
    simp only [betterSnapshot, hdecode, if_neg hle]
    cases best with
    | none => rfl
    | some b => split <;> rfl
  have hfold : ∀ (l : List SnapEntry) (best : Option (SnapEntry × SnapshotBody)),
      (∀ e ∈ l, e ∈ listSnapshots s.dir.files) → best.isSome = true →
      (l.foldl (betterSnapshot s.dir.wal.length) best).isSome = true := by
    intro l
    induction l with
    | nil => exact fun _ _ hbest => hbest
    | cons e l ih =>
      intro best hl _
      obtain ⟨he, hl⟩ := List.forall_mem_cons.mp hl
      exact ih _ hl (hstep e he best)
  obtain ⟨e, es, hcons⟩ := List.exists_cons_of_ne_nil hlist
  have hmem : ∀ x ∈ e :: es, x ∈ listSnapshots s.dir.files := fun x hx => hcons ▸ hx
  have hsome := hfold es _ (fun x hx => hmem x (List.mem_cons_of_mem _ hx))
    (hstep e (hmem e List.mem_cons_self) none)
  obtain ⟨⟨e', body⟩, heq⟩ := Option.isSome_iff_exists.mp hsome
  refine ⟨e', body, ?_⟩
  rw [ParadigmTerra.latestValidSnapshot, hcons]
  exact heq

/-- A directory whose snapshots cover all ticks can be compacted. -/
theorem StockHolds.compactNode_ok (hord : g.fits ordered = true) (h : StockHolds H g base s)
    (hlist : listSnapshots s.dir.files ≠ [])
    (hall : ∀ e ∈ listSnapshots s.dir.files, e.coveredTick = s.acknowledged.length)
    (hobserve : (s.node.observe H).isOk = true) :
    ∃ dir c, ParadigmTerra.compactNode H s.dir = .ok (dir, c) := by
  obtain ⟨e, body, hlatest⟩ := h.latestValidSnapshot hlist
  obtain ⟨he, hdecode⟩ := latestValidSnapshot_spec hlatest
  obtain ⟨hname, hcov, hstate⟩ := h.covers he hdecode
  have hincr : body.incr = s.node.liveIncr := by
    have hlive := hcov.live
    rw [hall e he, List.take_length] at hlive
    exact hlive.unique h.live
  obtain ⟨o, ho⟩ := isOk_iff.mp hobserve
  obtain ⟨rebased, hrebased⟩ :
      ∃ rebased, makeSnapshotBody H body.incr body.covered_tick 0 = .ok rebased := by
    simp only [OvtNode.observe, bind_eq_ok] at ho
    obtain ⟨stateRoot, hroot, globalRoot, hglobal, -⟩ := ho
    rw [makeSnapshotBody, hincr, hroot, ok_bind, hglobal]
    exact ⟨_, rfl⟩
  have hord_body : body.incr.state.fits ordered = true := by
    obtain ⟨folded, hfold, hfolded⟩ := h.live
    rw [hincr, ← hfolded]
    exact foldBlocks_ordered hord h.dir.durable hfold
  obtain ⟨-, htail⟩ := hcov.cut h.dir.toLogHolds
  obtain ⟨hreread, hcov', hincr'⟩ := hcov.rebase hord_body hstate hrebased
  obtain ⟨hdir, hrewritable, hne⟩ := @StockHolds.compacted_dir H g _ s _
    ⟨s.dir.genesis, s.dir.wal.drop body.wal_offset.toNat,
      [(e.name, utf8Encode (encodeSnapshot rebased))], none⟩ _ _ h
    rfl htail rfl hname hcov' hreread (hincr' ▸ hstate)
  obtain ⟨node, hopen, hlive⟩ :=
    openNode_live hdir h.live (.inr (hasSnapshot_of_ne_nil hrewritable hne))
  obtain ⟨o', ho', -⟩ := expected_matches ho (hlive.trans h.live_eq.symm)
  have hboundary : offsetOnBoundary s.dir.wal body.wal_offset.toNat = true := by
    have h := hcov.boundary h.dir.toLogHolds []
    rwa [List.append_nil] at h
  obtain ⟨r, hr⟩ : ∃ r, compactBehind H s.dir e body = .ok r :=
    ⟨_, bind_eq_ok.mpr ⟨(), require_eq_ok.mpr hboundary,
      bind_eq_ok.mpr ⟨rebased, onNode_eq_ok.mpr hrebased,
        bind_eq_ok.mpr ⟨node, onNode_eq_ok.mpr hopen,
          bind_eq_ok.mpr ⟨o', onNode_eq_ok.mpr ho', rfl⟩⟩⟩⟩⟩
  refine ⟨r.1, r.2, ?_⟩
  rw [ParadigmTerra.compactNode, hlatest]
  exact hr

/-- Then a second compaction behind the same snapshot leaves nothing of the first archive. -/
theorem StockHolds.compact_twice (hord : g.fits ordered = true) (h : StockHolds H g base s)
    (hlist : listSnapshots s.dir.files ≠ [])
    (hall : ∀ e ∈ listSnapshots s.dir.files, e.coveredTick = s.acknowledged.length)
    (hobserve : (s.node.observe H).isOk = true) :
    ∃ c ∈ ((s.perform H .compact).perform H .compact).compaction,
      c.archive ++ ((s.perform H .compact).perform H .compact).dir.wal = [] ∧
      StockHolds H g s.acknowledged.length ((s.perform H .compact).perform H .compact) ∧
      ((s.perform H .compact).perform H .compact).acknowledged = s.acknowledged := by
  obtain ⟨dir, c, hcompact⟩ := h.compactNode_ok hord hlist hall hobserve
  obtain ⟨e, he, node, hopen, h', -⟩ := h.compactNode hord hcompact
  rw [hall e he] at h'
  have hfirst : s.perform H .compact = ⟨dir, node, some c, s.acknowledged⟩ := by
    simp only [Stock.perform, hcompact, hopen]
  -- the log of the first compaction is empty
  have hwal : dir.wal = [] := by
    have hlog := h'.dir.wal_eq
    rw [List.drop_length] at hlog
    exact hlog
  have hall' : ∀ e ∈ listSnapshots dir.files, e.coveredTick = s.acknowledged.length := by
    intro e he
    obtain ⟨file, hfile, hof⟩ := mem_listSnapshots.mp he
    obtain ⟨k, hk, rfl⟩ := Option.map_eq_some_iff.mp hof
    obtain ⟨body, hdecode, -⟩ := h'.rewritable file hfile k hk
    obtain ⟨-, hcov, -⟩ := h'.covers he hdecode
    exact le_antisymm hcov.le hcov.base_le
  have hobserve' : (node.observe H).isOk = true := by
    obtain ⟨o, ho⟩ := isOk_iff.mp hobserve
    obtain ⟨o', ho', -⟩ := expected_matches ho (h'.live_eq.trans (by
      rw [h.live_eq, h'.live.unique h.live]))
    exact isOk_iff.mpr ⟨o', ho'⟩
  obtain ⟨dir', c', hcompact'⟩ := h'.compactNode_ok hord (h'.snapshot rfl) hall' hobserve'
  obtain ⟨e', he', node', hopen', h'', hsplit⟩ := h'.compactNode hord hcompact'
  rw [hall' e' he'] at h''
  rw [hfirst]
  have hsecond : Stock.perform H ⟨dir, node, some c, s.acknowledged⟩ .compact =
      ⟨dir', node', some c', s.acknowledged⟩ := by
    simp only [Stock.perform, hcompact', hopen']
  rw [hsecond]
  exact ⟨c', rfl, hsplit.trans hwal, h'', rfl⟩

/-- Each sound operation keeps the stock sound. -/
theorem StockHolds.perform (hord : g.fits ordered = true) (h : StockHolds H g base s) {op : StockOp}
    (hop : StockSound H s op) : ∃ base', StockHolds H g base' (s.perform H op) := by
  cases op with
  | submit submissions => exact ⟨base, h.submit hop.1 hop.2⟩
  | snapshot keep => exact ⟨base, h.publish hord hop.1 hop.2⟩
  | compact =>
    simp only [Stock.perform]
    split
    · next dir c hcompact =>
      obtain ⟨e, -, node, hopen, hholds, -⟩ := h.compactNode hord hcompact
      rw [hopen]
      exact ⟨e.coveredTick, hholds⟩
    · exact ⟨base, h⟩

end

/-- A node that has just been created, in a directory whose files have different names. -/
theorem Created.stock {g : State} {s : System} (h : Created H g s)
    (hnames : (s.1.files.map Prod.fst).Nodup) : StockHolds H g 0 (.start s) := by
  obtain ⟨hdir, hlive, hticks⟩ := h.holds
  exact {
    dir := hdir
    live := hlive
    ticks := hticks
    names := hnames
    rewritable := by
      intro file hfile k hk
      rw [h.no_snapshots file hfile] at hk
      cases hk
    snapshot := nofun
    base_eq := fun _ => rfl
    compaction := nofun }

end ParadigmTerra
