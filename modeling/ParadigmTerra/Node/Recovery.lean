import ParadigmTerra.Lib.Runs
import ParadigmTerra.Node.Persistent
import ParadigmTerra.Node.StateShape
import ParadigmTerra.Node.Transcript

/-!
# Recovery

The log is the truth about a node, and its snapshots only make recovery faster. `DirHolds` is the invariant
of a directory: its log is the lines of the blocks from some block on, and each published snapshot either
is discarded or is the live state after a number of the blocks, at the offset where their lines end.

`openNode_live` says that such a directory opens to the live state after all blocks, whatever snapshots it
has, and `snapshots_only_accelerate` that the invariant holds along runs: of every run whose submits
return, and whose blocks and states the codecs read back.
-/

namespace ParadigmTerra

open Text OrderedMap Fallible JsonText Runs

variable {H : Host}

/-! ## Lines and offsets -/

section

variable {pre post blocks : List TickBlock}

theorem walBytes_append (pre post : List TickBlock) :
    walBytes (pre ++ post) = walBytes pre ++ walBytes post := List.flatMap_append

/-- A line ends in a line break. -/
theorem walBytes_singleton {b : TickBlock} (h : b.Durable) :
    walBytes [b] = utf8Encode b.line ++ [0x0A] := by
  have hnewline : utf8Encode [0x0A] = [0x0A] := by decide
  rw [walBytes, List.flatMap_singleton, utf8Encode_append (printable_line h.ordered).1, hnewline]

/-- The end of lines is the start of a line. -/
theorem offsetOnBoundary_walBytes (h : ∀ b ∈ pre, b.Durable) (r : List UInt8) :
    offsetOnBoundary (walBytes pre ++ r) (walBytes pre).length = true := by
  rcases List.eq_nil_or_concat pre with rfl | ⟨init, b, rfl⟩
  · rfl
  · rw [List.concat_eq_append] at h ⊢
    rw [walBytes_append, walBytes_singleton (h b (by simp)), ← List.append_assoc]
    -- the last byte in front of the offset is the line break
    simp [offsetOnBoundary]

theorem drop_eq_append {base k : ℕ} (hbase : base ≤ k) (hk : k ≤ blocks.length) :
    blocks.drop base = (blocks.take k).drop base ++ blocks.drop k := by
  have hlength : base ≤ (blocks.take k).length := by
    rw [List.length_take]
    omega
  rw [← List.drop_append_of_le_length hlength, List.take_append_drop]

end

/-! ## Sound directories -/

/-- The live state after blocks. -/
def LiveAfter (H : Host) (g : State) (blocks : List TickBlock) (incr : IncrementalState) : Prop :=
  ∃ folded, foldBlocks H (initIncremental g) blocks = .ok folded ∧ folded.incr = incr

/-- The body covers the first `k` of the blocks, in a log from the block `base` on. -/
structure Covers (H : Host) (g : State) (blocks : List TickBlock) (base k : ℕ) (body : SnapshotBody) :
    Prop where
  tick : body.covered_tick = k
  base_le : base ≤ k
  le : k ≤ blocks.length
  offset : body.wal_offset = ((walBytes ((blocks.take k).drop base)).length : ℕ)
  live : LiveAfter H g (blocks.take k) body.incr

/-- The text of a snapshot is discarded, or it covers the blocks up to the tick in its name. -/
def TextSound (H : Host) (g : State) (blocks : List TickBlock) (base k : ℕ) (text : Str) : Prop :=
  decodeSnapshot text = .error .snapshotCorruption ∨
    ∃ body, decodeSnapshot text = .ok body ∧ Covers H g blocks base k body

def FileSound (H : Host) (g : State) (blocks : List TickBlock) (base : ℕ)
    (file : Str × List UInt8) : Prop :=
  ∀ k, snapshotTick? file.1 = some k → TextSound H g blocks base k (utf8Decode file.2)

/-- The log holds the blocks from `base` on. -/
structure LogHolds (blocks : List TickBlock) (base : ℕ) (wal : List UInt8) : Prop where
  durable : ∀ b ∈ blocks, b.Durable
  base_le : base ≤ blocks.length
  wal_eq : wal = walBytes (blocks.drop base)

/-- The directory has the log and sound snapshots. -/
structure DirHolds (H : Host) (g : State) (blocks : List TickBlock) (base : ℕ) (dir : NodeDir) : Prop
    extends LogHolds blocks base dir.wal where
  genesis : readGenesis dir = .ok g
  files : ∀ file ∈ dir.files, FileSound H g blocks base file

/-- What a node has live. -/
def OvtNode.live (node : OvtNode) : IncrementalState × ℕ := (node.liveIncr, node.committedTicks)

/-- What the blocks that are read from bytes make of a live state after `n` ticks. -/
def readOn (H : Host) (incr : IncrementalState) (n : ℕ) (bytes : List UInt8) :
    Except Throw (IncrementalState × ℕ) := do
  let blocks ← readBlocks (utf8Decode bytes)
  let folded ← foldBlocks H incr blocks
  pure (folded.incr, n + blocks.length)

section

variable {g : State} {blocks : List TickBlock} {base k n : ℕ} {dir dir' : NodeDir} {body : SnapshotBody}
  {incr : IncrementalState} {folded : Folded}

theorem openTail_map (dir : NodeDir) (g : State) (body : SnapshotBody) :
    (openTail H dir g body).map OvtNode.live =
      readOn H body.incr body.covered_tick.toNat (dir.wal.drop body.wal_offset.toNat) := by
  rw [openTail, readOn]
  cases readBlocks (utf8Decode (dir.wal.drop body.wal_offset.toNat)) with
  | error t => rfl
  | ok tail =>
    simp only [ok_bind]
    cases foldBlocks H body.incr tail <;> rfl

theorem openFull_map (dir : NodeDir) (g : State) :
    (openFull H dir g).map OvtNode.live = readOn H (initIncremental g) 0 dir.wal := by
  rw [openFull, readOn]
  cases readBlocks (utf8Decode dir.wal) with
  | error t => rfl
  | ok blocks =>
    simp only [ok_bind, Nat.zero_add]
    cases foldBlocks H (initIncremental g) blocks <;> rfl

@[simp] theorem readOn_nil : readOn H incr n [] = .ok (incr, n) := by
  rw [readOn, utf8Decode, readBlocks, parseWalLines_nil]
  rfl

/-- The lines of blocks are read, and then what is behind them. -/
theorem readOn_append (h : ∀ b ∈ blocks, b.Durable) (hfold : foldBlocks H incr blocks = .ok folded)
    (n : ℕ) (r : List UInt8) :
    readOn H incr n (walBytes blocks ++ r) = readOn H folded.incr (n + blocks.length) r := by
  rw [readOn, readOn, readBlocks_append h]
  cases readBlocks (utf8Decode r) with
  | error t => rfl
  | ok more =>
    simp only [ok_bind, pure_bind, foldBlocks_append, hfold, List.length_append, Nat.add_assoc]
    cases foldBlocks H folded.incr more <;> rfl

theorem LiveAfter.unique {incr' : IncrementalState} (h : LiveAfter H g blocks incr)
    (h' : LiveAfter H g blocks incr') : incr = incr' := by
  obtain ⟨folded, hfold, rfl⟩ := h
  obtain ⟨folded', hfold', rfl⟩ := h'
  rw [hfold] at hfold'
  rw [Except.ok.inj hfold']

/-- The live state after blocks and one more. -/
theorem LiveAfter.snoc {b : TickBlock} {step : TickStep} (h : LiveAfter H g blocks incr)
    (hstep : applyTick H incr b = .ok step) : LiveAfter H g (blocks ++ [b]) step.next := by
  obtain ⟨folded, hfold, rfl⟩ := h
  unfold LiveAfter
  rw [foldBlocks_append, hfold, ok_bind, foldBlocks_cons, hstep, ok_bind]
  exact ⟨_, rfl, rfl⟩

/-- The blocks behind a part are folded from the live state after it. -/
theorem LiveAfter.tail {incr' : IncrementalState} (h : LiveAfter H g (blocks.take k) incr')
    (hall : LiveAfter H g blocks incr) :
    ∃ folded, foldBlocks H incr' (blocks.drop k) = .ok folded ∧ folded.incr = incr := by
  obtain ⟨first, hfirst, rfl⟩ := h
  obtain ⟨folded, hfold, rfl⟩ := hall
  rw [← List.take_append_drop k blocks, foldBlocks_append, hfirst, ok_bind] at hfold
  simp only [bind_eq_ok, pure_eq_ok] at hfold
  obtain ⟨second, hsecond, rfl⟩ := hfold
  exact ⟨second, hsecond, rfl⟩

/-- A snapshot goes on to cover the same blocks when others follow. -/
theorem Covers.append (h : Covers H g blocks base k body) (post : List TickBlock) :
    Covers H g (blocks ++ post) base k body := by
  have htake : (blocks ++ post).take k = blocks.take k := List.take_append_of_le_length h.le
  refine ⟨h.tick, h.base_le, ?_, ?_, ?_⟩
  · have hle := h.le
    rw [List.length_append]
    omega
  · rw [htake, h.offset]
  · rw [htake]
    exact h.live

theorem FileSound.append {file : Str × List UInt8} (h : FileSound H g blocks base file)
    (post : List TickBlock) : FileSound H g (blocks ++ post) base file := by
  intro k hk
  rcases h k hk with hbad | ⟨body, hbody, hcov⟩
  · exact .inl hbad
  · exact .inr ⟨body, hbody, hcov.append post⟩

/-- The offset of a covering snapshot splits the log. -/
theorem Covers.wal_eq (h : Covers H g blocks base k body) {wal : List UInt8}
    (hlog : LogHolds blocks base wal) :
    wal = walBytes ((blocks.take k).drop base) ++ walBytes (blocks.drop k) := by
  rw [hlog.wal_eq, drop_eq_append h.base_le h.le, walBytes_append]

/-- The offset of a covering snapshot is the start of a line, whatever bytes follow the log. -/
theorem Covers.boundary (h : Covers H g blocks base k body) {wal : List UInt8}
    (hlog : LogHolds blocks base wal) (r : List UInt8) :
    offsetOnBoundary (wal ++ r) body.wal_offset.toNat = true := by
  rw [h.offset, Int.toNat_natCast, h.wal_eq hlog, List.append_assoc]
  refine offsetOnBoundary_walBytes (fun b hb => hlog.durable b ?_) _
  exact List.mem_of_mem_take (List.mem_of_mem_drop hb)

/-- The bytes behind a covering snapshot go on from the live state after all blocks. -/
theorem openTail_readOn (hlog : LogHolds blocks base dir.wal) (hcov : Covers H g blocks base k body)
    (hlive : LiveAfter H g blocks incr) {r : List UInt8} (hwal : dir'.wal = dir.wal ++ r) :
    (openTail H dir' g body).map OvtNode.live = readOn H incr blocks.length r := by
  have hoffset : body.wal_offset.toNat = (walBytes ((blocks.take k).drop base)).length := by
    rw [hcov.offset, Int.toNat_natCast]
  have htail : dir'.wal.drop body.wal_offset.toNat = walBytes (blocks.drop k) ++ r := by
    rw [hoffset, hwal, hcov.wal_eq hlog, List.append_assoc, List.drop_left]
  obtain ⟨folded, hfold, hincr⟩ := hcov.live.tail hlive
  have hdurable : ∀ b ∈ blocks.drop k, b.Durable :=
    fun b hb => hlog.durable b (List.mem_of_mem_drop hb)
  have hticks : body.covered_tick.toNat + (blocks.drop k).length = blocks.length := by
    have hle := hcov.le
    rw [hcov.tick, Int.toNat_natCast, List.length_drop]
    omega
  rw [openTail_map, htail, readOn_append hdurable hfold, hticks, hincr]

theorem openFull_readOn (hlog : LogHolds blocks 0 dir.wal) (hlive : LiveAfter H g blocks incr)
    {r : List UInt8} (hwal : dir'.wal = dir.wal ++ r) :
    (openFull H dir' g).map OvtNode.live = readOn H incr blocks.length r := by
  obtain ⟨folded, hfold, hincr⟩ := hlive
  rw [openFull_map, hwal, hlog.wal_eq, List.drop_zero, readOn_append hlog.durable hfold, hincr,
    Nat.zero_add]

/-- The newest snapshot that is not discarded covers its blocks. -/
theorem firstValid_sound (hdir : DirHolds H g blocks base dir) {n : ℕ} (hn : dir.wal.length ≤ n)
    {entries : List SnapEntry}
    (h : ∀ e ∈ entries, TextSound H g blocks base e.coveredTick (utf8Decode e.bytes)) :
    (firstValid n entries = .ok none ∧
      ∀ e ∈ entries, decodeSnapshot (utf8Decode e.bytes) = .error .snapshotCorruption) ∨
    ∃ k body, firstValid n entries = .ok (some body) ∧ Covers H g blocks base k body := by
  induction entries with
  | nil => exact .inl ⟨rfl, nofun⟩
  | cons e es ih =>
    obtain ⟨he, hes⟩ := List.forall_mem_cons.mp h
    rcases he with hbad | ⟨body, hbody, hcov⟩
    · rw [firstValid, hbad]
      rcases ih hes with ⟨hnone, hall⟩ | hsome
      · exact .inl ⟨hnone, List.forall_mem_cons.mpr ⟨hbad, hall⟩⟩
      · exact .inr hsome
    · refine .inr ⟨e.coveredTick, body, ?_, hcov⟩
      have hle : ¬(n : ℤ) < body.wal_offset := by
        rw [hcov.wal_eq hdir.toLogHolds, List.length_append] at hn
        rw [hcov.offset]
        omega
      rw [firstValid, hbody]
      exact if_neg hle

theorem mem_listSnapshots {files : List (Str × List UInt8)} {e : SnapEntry} :
    e ∈ listSnapshots files ↔ ∃ file ∈ files, SnapEntry.of? file = some e := by
  rw [listSnapshots, List.mem_insertionSort, List.mem_filterMap]

theorem listSnapshots_sound (hdir : DirHolds H g blocks base dir) :
    ∀ e ∈ listSnapshots dir.files, TextSound H g blocks base e.coveredTick (utf8Decode e.bytes) := by
  intro e he
  obtain ⟨file, hfile, heq⟩ := mem_listSnapshots.mp he
  rw [SnapEntry.of?, Option.map_eq_some_iff] at heq
  obtain ⟨k, hk, rfl⟩ := heq
  exact hdir.files file hfile k hk

/-- A directory opens from all lines of its log, if each of its snapshots is discarded. -/
theorem openNode_discarded (hgenesis : readGenesis dir = .ok g)
    (h : ∀ e ∈ listSnapshots dir.files,
      decodeSnapshot (utf8Decode e.bytes) = .error .snapshotCorruption) (ignoreSnapshots : Bool) :
    openNode H dir ignoreSnapshots = openFull H dir g := by
  have hfirst : ∀ entries : List SnapEntry,
      (∀ e ∈ entries, decodeSnapshot (utf8Decode e.bytes) = .error .snapshotCorruption) →
      firstValid dir.wal.length entries = .ok none := by
    intro entries
    induction entries with
    | nil => exact fun _ => rfl
    | cons e es ih =>
      intro hall
      rw [firstValid, hall e List.mem_cons_self]
      exact ih fun e he => hall e (List.mem_cons_of_mem _ he)
  rw [openNode, hgenesis, ok_bind]
  cases ignoreSnapshots with
  | true => rfl
  | false =>
    rw [if_neg (by decide), loadLatestValidSnapshot, hfirst _ h]
    rfl

/-- A snapshot that is not discarded. -/
def HasSnapshot (dir : NodeDir) : Prop :=
  ∃ e ∈ listSnapshots dir.files, decodeSnapshot (utf8Decode e.bytes) ≠ .error .snapshotCorruption

/-- Bytes behind the log of a sound directory with the whole log, or with a snapshot, go on from the
live state after all blocks. -/
theorem openNode_readOn (hdir : DirHolds H g blocks base dir) (hlive : LiveAfter H g blocks incr)
    (hbase : base = 0 ∨ HasSnapshot dir) {r : List UInt8} (hgenesis : dir'.genesis = dir.genesis)
    (hfiles : dir'.files = dir.files) (hwal : dir'.wal = dir.wal ++ r) :
    (openNode H dir' false).map OvtNode.live = readOn H incr blocks.length r := by
  have hread : readGenesis dir' = .ok g := by
    rw [readGenesis, hgenesis]
    exact hdir.genesis
  have hsize : dir.wal.length ≤ dir'.wal.length := by
    rw [hwal, List.length_append]
    omega
  rw [openNode, hread, ok_bind, if_neg (by decide), loadLatestValidSnapshot, hfiles]
  rcases firstValid_sound hdir hsize (listSnapshots_sound hdir) with ⟨hnone, hall⟩ | ⟨k, body, hsome, hcov⟩
  · rcases hbase with rfl | ⟨e, he, hvalid⟩
    · rw [hnone, ok_bind]
      exact openFull_readOn hdir.toLogHolds hlive hwal
    · exact absurd (hall e he) hvalid
  · have hboundary : offsetOnBoundary dir'.wal body.wal_offset.toNat = true := by
      rw [hwal]
      exact hcov.boundary hdir.toLogHolds r
    rw [hsome, ok_bind]
    simp only [hboundary, if_true]
    exact openTail_readOn hdir.toLogHolds hcov hlive hwal

/-- A sound directory with the whole log, or with a snapshot, opens to the live state after all blocks. -/
theorem openNode_live (hdir : DirHolds H g blocks base dir) (hlive : LiveAfter H g blocks incr)
    (hbase : base = 0 ∨ HasSnapshot dir) :
    ∃ node, openNode H dir false = .ok node ∧ node.live = (incr, blocks.length) :=
  map_eq_ok.mp ((openNode_readOn hdir hlive hbase rfl rfl (List.append_nil _).symm).trans readOn_nil)

/-- Without its snapshots, a directory with the whole log opens to the same. -/
theorem openNode_ignoring (hdir : DirHolds H g blocks 0 dir) (hlive : LiveAfter H g blocks incr) :
    ∃ node, openNode H dir true = .ok node ∧ node.live = (incr, blocks.length) := by
  rw [openNode, hdir.genesis, ok_bind]
  exact map_eq_ok.mp
    ((openFull_readOn hdir.toLogHolds hlive (List.append_nil _).symm).trans readOn_nil)

end

/-! ## Names of snapshots -/

theorem decimal_natCast (n : ℕ) : decimal (n : ℤ) = decimalNat n := by
  rw [decimal, if_neg (by omega), Int.natAbs_natCast]

theorem takeWhile_decimalNat (n : ℕ) (s : Str) (hs : s.head?.all (fun u => !isDigit u) = true) :
    (decimalNat n ++ s).takeWhile isDigit = decimalNat n := by
  have hdigits : ∀ u ∈ decimalNat n, isDigit u = true := by
    have h := isDecimal_decimalNat n
    simp only [isDecimal, Bool.and_eq_true] at h
    exact List.all_eq_true.mp h.1.2
  rw [List.takeWhile_append_of_pos hdigits]
  cases s with
  | nil => simp
  | cons u s =>
    have hu : isDigit u = false := by simpa using hs
    simp [hu]

/-- The name of a snapshot has its tick. -/
theorem snapshotTick?_snapshotName (n : ℕ) : snapshotTick? (snapshotName n) = some n := by
  have hdrop : (snapshotName n).drop 9 = decimalNat n ++ js ".json" := by
    rw [snapshotName, decimal_natCast, List.append_assoc]
    exact @List.drop_left _ (js "snapshot-") _
  have hdigits : ((snapshotName n).drop 9).takeWhile isDigit = decimalNat n := by
    rw [hdrop]
    exact takeWhile_decimalNat n _ (by decide)
  have hne : decimalNat n ≠ [] := by
    have h := isDecimal_decimalNat n
    simp only [isDecimal, Bool.and_eq_true, decide_eq_true_eq] at h
    exact h.1.1
  rw [snapshotTick?, hdigits, digitsValue_decimalNat]
  refine if_pos ⟨hne, ?_⟩
  rw [snapshotName, decimal_natCast]

/-! ## The steps of a node -/

section

variable {g : State} {blocks : List TickBlock} {base : ℕ} {dir : NodeDir} {incr : IncrementalState}

/-- A line more. -/
theorem DirHolds.append (hdir : DirHolds H g blocks base dir) {b : TickBlock} (hb : b.Durable)
    (head : Option Head) :
    DirHolds H g (blocks ++ [b]) base { dir with wal := dir.wal ++ walBytes [b], head := head } where
  genesis := hdir.genesis
  durable := List.forall_mem_append.mpr ⟨hdir.durable, List.forall_mem_singleton.mpr hb⟩
  base_le := by
    have hle := hdir.base_le
    rw [List.length_append]
    omega
  wal_eq := by
    change dir.wal ++ walBytes [b] = _
    rw [hdir.wal_eq, List.drop_append_of_le_length hdir.base_le, walBytes_append]
  files := fun file hfile => (hdir.files file hfile).append [b]

theorem DirHolds.of_files (hdir : DirHolds H g blocks base dir) {files : List (Str × List UInt8)}
    (h : ∀ file ∈ files, FileSound H g blocks base file) :
    DirHolds H g blocks base { dir with files := files } :=
  { hdir with files := h }

theorem mem_putFile {name : Str} {bytes : List UInt8} {files : List (Str × List UInt8)}
    {file : Str × List UInt8} (h : file ∈ putFile name bytes files) :
    file = (name, bytes) ∨ file ∈ files := mem_put h

/-- A snapshot of the live state covers all blocks. -/
theorem fileSound_snapshot (hdir : DirHolds H g blocks base dir) (hlive : LiveAfter H g blocks incr)
    (hord : incr.state.fits ordered = true)
    (hstate : incr.state.fits (lossless [BIGINT_TAG, BYTES_TAG]) = true) {body : SnapshotBody}
    (hbody : makeSnapshotBody H incr blocks.length dir.wal.length = .ok body) :
    decodeSnapshot (utf8Decode (utf8Encode (encodeSnapshot body))) = .ok body ∧
      body.covered_tick = blocks.length ∧ Covers H g blocks base blocks.length body := by
  simp only [makeSnapshotBody, bind_eq_ok, pure_eq_ok] at hbody
  obtain ⟨root, -, logRoot, -, rfl⟩ := hbody
  refine ⟨?_, rfl, rfl, hdir.base_le, le_rfl, ?_, ?_⟩
  · rw [utf8Decode_encode (wellFormed_encodeSnapshot _), decodeSnapshot_encode rfl hord]
    exact hstate
  · rw [List.take_length, ← hdir.wal_eq]
  · rw [List.take_length]
    exact hlive

/-- A published snapshot keeps the directory sound. -/
theorem DirHolds.snapshot {node : OvtNode} {keep : ℕ} {dir' : NodeDir}
    (hdir : DirHolds H g blocks base dir) (hlive : LiveAfter H g blocks node.liveIncr)
    (hticks : node.committedTicks = blocks.length) (hord : node.liveIncr.state.fits ordered = true)
    (hstate : node.liveIncr.state.fits (lossless [BIGINT_TAG, BYTES_TAG]) = true)
    (h : ParadigmTerra.snapshot H dir node keep = .ok dir') : DirHolds H g blocks base dir' := by
  simp only [ParadigmTerra.snapshot, hticks, bind_eq_ok, pure_eq_ok] at h
  obtain ⟨body, hbody, rfl⟩ := h
  obtain ⟨hdecode, htick, hcov⟩ := fileSound_snapshot hdir hlive hord hstate hbody
  refine hdir.of_files fun file hfile => ?_
  rcases mem_putFile (List.mem_filter.mp hfile).1 with rfl | hold
  · intro k hk
    simp only [htick, snapshotTick?_snapshotName, Option.some.injEq] at hk
    exact .inr ⟨body, hdecode, hk ▸ hcov⟩
  · exact hdir.files file (mem_erase.mp hold).1

/-- A directory that has been created holds no block. -/
theorem dirHolds_create {files : List (Str × List UInt8)} {node : OvtNode}
    (hord : g.fits ordered = true) (hg : g.fits (lossless [BIGINT_TAG]) = true)
    (hfiles : ∀ file ∈ files, snapshotTick? file.1 = none)
    (h : create H files g = .ok (dir, node)) :
    DirHolds H g [] 0 dir ∧ node.live = (initIncremental g, 0) := by
  obtain ⟨raw, hraw, hdec⟩ := (dec_enc walTags_sound hord).mpr hg
  simp only [create, enc, hraw, bind_eq_ok, pure_eq_ok] at h
  obtain ⟨text, rfl, head, -, heq⟩ := h
  cases heq
  refine ⟨⟨⟨fun b hb => (by cases hb), le_rfl, rfl⟩, ?_, ?_⟩, rfl⟩
  · have hwf : wellFormed (stringify raw) = true :=
      (printable_stringify raw (proper_replacer g hord raw hraw)).1
    simp only [readGenesis, utf8Decode_encode hwf, hdec, ok_bind, toJson?_toJs]
    rfl
  · intro file hfile k hk
    rw [hfiles file hfile] at hk
    cases hk

end

/-! ## Runs of a node -/

/-- The block that a node submits. -/
def OvtNode.block (node : OvtNode) (submissions : List Submission) : TickBlock :=
  ⟨node.committedTicks, submissions⟩

/-- What a submit that returns leaves. -/
theorem submit_of_isOk {dir : NodeDir} {node : OvtNode} {submissions : List Submission}
    (h : (submit H dir node submissions).2.2.isOk = true) :
    ∃ step head node', applyTick H node.liveIncr (node.block submissions) = .ok step ∧
      submit H dir node submissions =
        ({ dir with wal := dir.wal ++ walBytes [node.block submissions], head := some head }, node',
          .ok step.tickResult) ∧
      node'.live = (step.next, node.committedTicks + 1) := by
  unfold submit at h ⊢
  unfold OvtNode.block
  cases hstep : applyTick H node.liveIncr ⟨node.committedTicks, submissions⟩ with
  | error t =>
    simp only [hstep] at h
    cases h
  | ok step =>
    simp only [hstep] at h ⊢
    split at h
    · cases h
    · next head hhead => exact ⟨step, head, _, rfl, rfl, rfl⟩

/-- What happens to a directory and its node: calls, restarts, and files that are replaced. -/
inductive NodeOp
  | submit (submissions : List Submission)
  | snapshot (keep : ℕ)
  | reopen (ignoreSnapshots : Bool)
  | replace (name : Str) (bytes : List UInt8)

/-- A directory and the node on it. -/
abbrev System := NodeDir × OvtNode

/-- The system after an operation. A call that throws may have changed it. -/
def System.perform (H : Host) (s : System) : NodeOp → System
  | .submit submissions =>
    let r := submit H s.1 s.2 submissions
    (r.1, r.2.1)
  | .snapshot keep =>
    match snapshot H s.1 s.2 keep with
    | .ok dir => (dir, s.2)
    | .error _ => s
  | .reopen ignoreSnapshots =>
    match openNode H s.1 ignoreSnapshots with
    | .ok node => (s.1, node)
    | .error _ => s
  | .replace name bytes => ({ s.1 with files := putFile name bytes s.1.files }, s.2)

/-- The block that a node submits. -/
def System.block (s : System) (submissions : List Submission) : TickBlock :=
  ⟨s.2.committedTicks, submissions⟩

/-- A submit returns and its block comes back from the log, a snapshot is taken of a state that comes back
from it, and a file that is put in the place of a snapshot does not pass the checksum, nor is it `null`. -/
def OpSound (H : Host) (s : System) : NodeOp → Prop
  | .submit submissions => (s.block submissions).Durable ∧
      ∃ step, applyTick H s.2.liveIncr (s.block submissions) = .ok step
  | .snapshot _ => s.2.liveIncr.state.fits (lossless [BIGINT_TAG, BYTES_TAG]) = true
  | .reopen _ => True
  | .replace name bytes => snapshotTick? name = none ∨
      passesChecksum (utf8Decode bytes) = false ∧ isNullText (utf8Decode bytes) = false

/-- The system holds blocks and has their live state. -/
structure SystemHolds (H : Host) (g : State) (blocks : List TickBlock) (s : System) : Prop where
  dir : DirHolds H g blocks 0 s.1
  live : LiveAfter H g blocks s.2.liveIncr
  ticks : s.2.committedTicks = blocks.length

section

variable {g : State} {blocks : List TickBlock} {s : System}

theorem SystemHolds.live_eq (h : SystemHolds H g blocks s) :
    s.2.live = (s.2.liveIncr, blocks.length) := by rw [OvtNode.live, h.ticks]

theorem SystemHolds.of_live (h : SystemHolds H g blocks s) {node : OvtNode}
    (hnode : node.live = (s.2.liveIncr, blocks.length)) : SystemHolds H g blocks (s.1, node) := by
  rw [OvtNode.live, Prod.mk.injEq] at hnode
  exact ⟨h.dir, hnode.1 ▸ h.live, hnode.2⟩

/-- A submit whose block applies. -/
theorem SystemHolds.submit (h : SystemHolds H g blocks s) {submissions : List Submission}
    {step : TickStep} (hdurable : (s.block submissions).Durable)
    (hstep : applyTick H s.2.liveIncr (s.block submissions) = .ok step) :
    SystemHolds H g (blocks ++ [s.block submissions]) (s.perform H (.submit submissions)) := by
  have hlive := h.live.snoc hstep
  have hticks : s.2.committedTicks + 1 = (blocks ++ [s.block submissions]).length := by
    rw [h.ticks, List.length_append, List.length_singleton]
  rw [System.block] at hstep
  simp only [System.perform, ParadigmTerra.submit, hstep]
  -- the head is published or not, and nothing else depends on it
  split
  · exact ⟨h.dir.append hdurable _, hlive, hticks⟩
  · exact ⟨h.dir.append hdurable _, hlive, hticks⟩

/-- Each sound operation keeps the system sound, and what it holds. -/
theorem SystemHolds.perform (hord : g.fits ordered = true) (h : SystemHolds H g blocks s) {op : NodeOp}
    (hop : OpSound H s op) : ∃ post, SystemHolds H g (blocks ++ post) (s.perform H op) := by
  cases op with
  | submit submissions =>
    obtain ⟨hdurable, step, hstep⟩ := hop
    exact ⟨_, h.submit hdurable hstep⟩
  | snapshot keep =>
    refine ⟨[], ?_⟩
    rw [List.append_nil]
    simp only [System.perform]
    split
    · next dir hdir =>
      obtain ⟨folded, hfold, hincr⟩ := h.live
      have hstate : s.2.liveIncr.state.fits ordered = true := by
        rw [← hincr]
        exact foldBlocks_ordered hord h.dir.durable hfold
      exact ⟨h.dir.snapshot h.live h.ticks hstate hop hdir, h.live, h.ticks⟩
    · exact h
  | reopen ignoreSnapshots =>
    refine ⟨[], ?_⟩
    rw [List.append_nil]
    have hopen : ∃ node, openNode H s.1 ignoreSnapshots = .ok node ∧
        node.live = (s.2.liveIncr, blocks.length) := by
      cases ignoreSnapshots with
      | false => exact openNode_live h.dir h.live (.inl rfl)
      | true => exact openNode_ignoring h.dir h.live
    obtain ⟨node, hnode, hlive⟩ := hopen
    simp only [System.perform, hnode]
    exact h.of_live hlive
  | replace name bytes =>
    refine ⟨[], ?_⟩
    rw [List.append_nil]
    refine ⟨h.dir.of_files fun file hfile => ?_, h.live, h.ticks⟩
    rcases mem_putFile hfile with rfl | hold
    · intro k hk
      rcases hop with hname | ⟨hsum, hnull⟩
      · rw [hname] at hk
        cases hk
      · exact .inl (decodeSnapshot_discards hsum hnull)
    · exact h.dir.files file hold

/-- So does a run. -/
theorem SystemHolds.run (hord : g.fits ordered = true) (h : SystemHolds H g blocks s) {ops : List NodeOp}
    (hops : Meets (System.perform H) (OpSound H) s ops) :
    ∃ blocks', SystemHolds H g blocks' (ops.foldl (System.perform H) s) := by
  refine hops.invariant (I := fun s => ∃ blocks, SystemHolds H g blocks s) ?_ ⟨blocks, h⟩
  rintro s op ⟨blocks, h⟩ hop
  obtain ⟨post, h⟩ := h.perform hord hop
  exact ⟨blocks ++ post, h⟩

end

/-- A node that is created in a directory without snapshots. -/
structure Created (H : Host) (g : State) (s : System) : Prop where
  ordered : g.fits ordered = true
  lossless : g.fits (lossless [BIGINT_TAG]) = true
  create : ∃ files, (∀ file ∈ files, snapshotTick? file.1 = none) ∧ create H files g = .ok s

theorem Created.holds {g : State} {s : System} (h : Created H g s) : SystemHolds H g [] s := by
  obtain ⟨files, hfiles, hcreate⟩ := h.create
  obtain ⟨hdir, hlive⟩ := dirHolds_create h.ordered h.lossless hfiles hcreate
  rw [OvtNode.live, Prod.mk.injEq] at hlive
  exact ⟨hdir, hlive.1 ▸ ⟨_, rfl, rfl⟩, hlive.2⟩

/-- Its directory has no snapshot yet. -/
theorem Created.no_snapshots {g : State} {s : System} (h : Created H g s) :
    ∀ file ∈ s.1.files, snapshotTick? file.1 = none := by
  obtain ⟨files, hfiles, hcreate⟩ := h.create
  have hsame : s.1.files = files := by
    simp only [ParadigmTerra.create, bind_eq_ok, pure_eq_ok] at hcreate
    obtain ⟨text, -, head, -, rfl⟩ := hcreate
    rfl
  rw [hsame]
  exact hfiles

/-- After every run of sound operations a directory opens to the live state of its node, with its snapshots
or without them. -/
theorem snapshots_only_accelerate {g : State} {s : System} (hs : Created H g s) {ops : List NodeOp}
    (hops : Meets (System.perform H) (OpSound H) s ops) :
    ∃ node node', openNode H (ops.foldl (System.perform H) s).1 false = .ok node ∧
      openNode H (ops.foldl (System.perform H) s).1 true = .ok node' ∧ node.live = node'.live ∧
      node.live = (ops.foldl (System.perform H) s).2.live := by
  obtain ⟨blocks, h⟩ := hs.holds.run hs.ordered hops
  obtain ⟨node, hnode, hlive⟩ := openNode_live h.dir h.live (.inl rfl)
  obtain ⟨node', hnode', hlive'⟩ := openNode_ignoring h.dir h.live
  exact ⟨node, node', hnode, hnode', hlive.trans hlive'.symm, hlive.trans h.live_eq.symm⟩

/-! ## Checks of runs at hand -/

instance (block : TickBlock) : Decidable block.Durable :=
  decidable_of_iff (block.toJson.fits ordered = true ∧
    block.toJson.fits (lossless [BIGINT_TAG]) = true)
    ⟨fun h => ⟨h.1, h.2⟩, fun h => ⟨h.ordered, h.lossless⟩⟩

theorem isOk_iff {α ε : Type} {x : Except ε α} : x.isOk = true ↔ ∃ a, x = .ok a := by
  cases x <;> simp [Except.isOk, Except.toBool]

instance (s : System) (op : NodeOp) : Decidable (OpSound H s op) :=
  match op with
  | .submit submissions => decidable_of_iff ((s.block submissions).Durable ∧
      (applyTick H s.2.liveIncr (s.block submissions)).isOk = true) (and_congr Iff.rfl isOk_iff)
  | .snapshot _ => inferInstanceAs (Decidable (_ = true))
  | .reopen _ => .isTrue trivial
  | .replace name bytes => inferInstanceAs (Decidable (snapshotTick? name = none ∨
      passesChecksum (utf8Decode bytes) = false ∧ isNullText (utf8Decode bytes) = false))

/-- A node at the genesis state, in an empty directory. -/
def createGenesis : Except Throw System := create Escape.host [] genesis

theorem created_genesis {s : System} (h : createGenesis = .ok s) : Created Escape.host genesis s :=
  ⟨by decide +kernel, by decide +kernel, [], nofun, h⟩

/-- A tick and its snapshot, which is then emptied, a restart and a tick, beside a file that was left. -/
def tornOps : List NodeOp :=
  [.submit [], .snapshot 1, .replace (snapshotName 1) [], .replace (tmpName 7) [], .reopen false,
    .submit []]

theorem snapshots_only_accelerate_torn :
    ∃ s, createGenesis = .ok s ∧ ∃ node node',
      openNode Escape.host (tornOps.foldl (System.perform Escape.host) s).1 false = .ok node ∧
      openNode Escape.host (tornOps.foldl (System.perform Escape.host) s).1 true = .ok node' ∧
      node.live = node'.live ∧
      node.live = (tornOps.foldl (System.perform Escape.host) s).2.live := by
  obtain ⟨s, hs, hops⟩ := exists_of_any (x := createGenesis)
    (p := fun s => Meets (System.perform Escape.host) (OpSound Escape.host) s tornOps) (by decide +kernel)
  exact ⟨s, hs, snapshots_only_accelerate (created_genesis hs) (of_decide_eq_true hops)⟩

/-- What is put into the place of a snapshot does not pass the checksum, and no object of the state looks
like a tagged value. -/
def OpClaimed (s : System) : NodeOp → Prop
  | .replace name bytes => snapshotTick? name = none ∨ passesChecksum (utf8Decode bytes) = false
  | _ => s.2.liveIncr.state.fits (tagFree [BIGINT_TAG, BYTES_TAG]) = true

instance (s : System) (op : NodeOp) : Decidable (OpClaimed s op) := by
  unfold OpClaimed
  split <;> infer_instance

/-- A snapshot, and the text `null` in its place. -/
def nullOps : List NodeOp := [.snapshot 2, .replace (snapshotName 0) (utf8Encode (js "null"))]

/-- A file that holds `null` in the place of a snapshot keeps the node from opening. -/
theorem null_snapshot_halts :
    ¬∀ (H : Host) (g : State) (s : System) (ops : List NodeOp), Created H g s →
      Meets (System.perform H) OpClaimed s ops →
      (openNode H (ops.foldl (System.perform H) s).1 false).map OvtNode.live =
        (openNode H (ops.foldl (System.perform H) s).1 true).map OvtNode.live := by
  intro h
  obtain ⟨s, hs, hcheck⟩ := exists_of_any (x := createGenesis) (p := fun s =>
    decide (Meets (System.perform Escape.host) OpClaimed s nullOps) &&
      !(openNode Escape.host (nullOps.foldl (System.perform Escape.host) s).1 false).isOk &&
      (openNode Escape.host (nullOps.foldl (System.perform Escape.host) s).1 true).isOk)
    (by decide +kernel)
  simp only [Bool.and_eq_true, decide_eq_true_eq, Bool.not_eq_true'] at hcheck
  obtain ⟨⟨hops, hbad⟩, hgood⟩ := hcheck
  have heq := h Escape.host genesis s nullOps (created_genesis hs) hops
  obtain ⟨node, hnode⟩ := isOk_iff.mp hgood
  rw [hnode] at heq
  cases hopen : openNode Escape.host (nullOps.foldl (System.perform Escape.host) s).1 false with
  | error t =>
    rw [hopen] at heq
    cases heq
  | ok node' =>
    rw [hopen] at hbad
    cases hbad

end ParadigmTerra
