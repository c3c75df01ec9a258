import ParadigmTerra.Node.Compaction

/-!
# Rebuilding

The archive of a compacted directory and its log are there to rebuild the live state when the snapshot is
lost. `StockHolds.reconstructs_iff` says when they do: nothing was appended since the compaction, the log
alone can be folded, and the archive has the lines from the first tick on. It has those of one compaction
only, so that a second one loses them (`StockHolds.compact_twice`).

`compaction_preserves` is the statement for every run.
-/

namespace ParadigmTerra

open Text OrderedMap Fallible JsonText Runs

variable {H : Host}

/-- The directory with other texts in the place of some of its snapshots, which do not pass the checksum and
are not `null`. -/
structure Damages (dir dir' : NodeDir) : Prop where
  genesis : dir'.genesis = dir.genesis
  wal : dir'.wal = dir.wal
  files : ∀ file ∈ dir'.files, file ∈ dir.files ∨ passesChecksum (utf8Decode file.2) = false ∧
    isNullText (utf8Decode file.2) = false

/-- A replay of the archive and the log gives the live state, and so does a restore, also with damaged
snapshots. -/
structure Reconstructs (H : Host) (s : Stock) (c : Compaction) : Prop where
  replay : ∃ node, replayFromFull H s.dir (some c) = .ok node ∧ node.live = s.node.live
  restore : ∀ dir, Damages s.dir dir →
    ∃ node, restoreCompacted H dir (some c) = .ok node ∧ node.live = s.node.live

/-- Nothing was appended since the compaction, the archive and the log have the lines of all ticks, and the
log alone can be folded from genesis, as happens when the snapshot is damaged. -/
structure Rebuildable (H : Host) (s : Stock) (c : Compaction) : Prop where
  current : s.dir.wal.length = c.manifest.live_wal_bytes
  whole : c.archive ++ s.dir.wal = walBytes s.acknowledged
  folds : ∀ t, (do
    let node ← openNode H s.dir true
    node.observe H) = .error t → t = .snapshotCorruption

theorem Damages.refl (dir : NodeDir) : Damages dir dir := ⟨rfl, rfl, fun _ h => .inl h⟩

section

variable {g : State} {base : ℕ} {s : Stock} {c : Compaction} {dir : NodeDir} {blocks : List TickBlock}

/-- The number of ticks after the lines of blocks. -/
theorem ticks_of_readOn {incr incr' : IncrementalState} {n m : ℕ} (h : ∀ b ∈ blocks, b.Durable)
    (hread : readOn H incr n (walBytes blocks) = .ok (incr', m)) : m = n + blocks.length := by
  rw [readOn, readBlocks_walBytes h, ok_bind] at hread
  simp only [bind_eq_ok, pure_eq_ok] at hread
  obtain ⟨folded, -, heq⟩ := hread
  cases heq
  rfl

theorem walBytes_eq_nil (h : ∀ b ∈ blocks, b.Durable) (hnil : walBytes blocks = []) : blocks = [] := by
  cases blocks with
  | nil => rfl
  | cons b bs =>
    rw [show b :: bs = [b] ++ bs from rfl, walBytes_append, walBytes_singleton (h b (by simp))] at hnil
    simp at hnil

/-- The archive and the log are the lines of the blocks from the start of the archive on. -/
theorem CompactionHolds.lines (h : CompactionHolds H g blocks base c) {wal : List UInt8}
    (hlog : LogHolds blocks base wal) :
    ∃ first ≤ base, c.archive ++ wal = walBytes (blocks.drop first) := by
  obtain ⟨first, hfirst, harchive⟩ := h.archive
  refine ⟨first, hfirst, ?_⟩
  rw [harchive, hlog.wal_eq, drop_eq_append hfirst hlog.base_le, walBytes_append]

theorem readCompaction_some (h : CompactionHolds H g blocks base c) : readCompaction (some c) = .ok c := by
  simp [readCompaction, h.version]

theorem replayFromFull_eq_ok (h : CompactionHolds H g blocks base c) {node : OvtNode} :
    replayFromFull H dir (some c) = .ok node ↔ dir.wal.length = c.manifest.live_wal_bytes ∧
      openNode H ⟨dir.genesis, c.archive ++ dir.wal, [], none⟩ false = .ok node := by
  simp [replayFromFull, readCompaction_some h, h.archive_bytes]

/-- When nothing was appended since, the manifest expects the live state. -/
theorem CompactionHolds.current (h : CompactionHolds H g blocks base c) {wal : List UInt8}
    (hlog : LogHolds blocks base wal) {incr : IncrementalState} (hlive : LiveAfter H g blocks incr)
    (hcurrent : wal.length = c.manifest.live_wal_bytes) :
    ∃ (node : OvtNode) (o : NodeObservation), node.live = (incr, blocks.length) ∧
      node.observe H = .ok o ∧ c.manifest.expected = o.expected := by
  obtain ⟨node, o, hbase, hticks, hbytes, hthen, hobserve, hexpected⟩ := h.expected
  have hsplit : wal = walBytes ((blocks.take node.committedTicks).drop base) ++
      walBytes (blocks.drop node.committedTicks) := by
    rw [hlog.wal_eq, drop_eq_append hbase hticks, walBytes_append]
  have hnil : blocks.drop node.committedTicks = [] := by
    refine walBytes_eq_nil (fun b hb => hlog.durable b (List.mem_of_mem_drop hb)) ?_
    rw [hsplit, List.length_append, hbytes] at hcurrent
    exact List.length_eq_zero_iff.mp (by omega)
  have hall : node.committedTicks = blocks.length :=
    le_antisymm hticks (List.drop_eq_nil_iff.mp hnil)
  rw [hall, List.take_length] at hthen
  exact ⟨node, o, by rw [OvtNode.live, hthen.unique hlive, hall], hobserve, hexpected⟩

/-- The archive and the log are replayed to the live state exactly if nothing was appended since and no line
is missing. -/
theorem StockHolds.replay_iff (h : StockHolds H g base s) (hc : c ∈ s.compaction) :
    (∃ node, replayFromFull H s.dir (some c) = .ok node ∧ node.live = s.node.live) ↔
      s.dir.wal.length = c.manifest.live_wal_bytes ∧ c.archive ++ s.dir.wal = walBytes s.acknowledged := by
  have hholds := h.compaction c hc
  have hfull : ∀ node : OvtNode, replayFromFull H s.dir (some c) = .ok node →
      readOn H (initIncremental g) 0 (c.archive ++ s.dir.wal) = .ok node.live := by
    intro node hnode
    obtain ⟨-, hopen⟩ := (replayFromFull_eq_ok hholds).mp hnode
    have hmap := openFull_map (H := H) ⟨s.dir.genesis, c.archive ++ s.dir.wal, [], none⟩ g
    have hdiscarded : openNode H ⟨s.dir.genesis, c.archive ++ s.dir.wal, [], none⟩ false =
        openFull H ⟨s.dir.genesis, c.archive ++ s.dir.wal, [], none⟩ g :=
      @openNode_discarded H g ⟨s.dir.genesis, c.archive ++ s.dir.wal, [], none⟩ h.dir.genesis
        (List.forall_mem_nil _) false
    rw [← hdiscarded, hopen] at hmap
    exact hmap.symm
  constructor
  · rintro ⟨node, hnode, hlive⟩
    refine ⟨((replayFromFull_eq_ok hholds).mp hnode).1, ?_⟩
    obtain ⟨first, hfirst, hlines⟩ := hholds.lines h.dir.toLogHolds
    have hread := hfull node hnode
    rw [hlines, hlive, h.live_eq] at hread
    -- every line counts a tick
    have hticks := ticks_of_readOn (fun b hb => h.dir.durable b (List.mem_of_mem_drop hb)) hread
    rw [List.length_drop] at hticks
    have hle := h.dir.base_le
    rw [hlines, show first = 0 by omega, List.drop_zero]
  · rintro ⟨hcurrent, hwhole⟩
    have hdir : DirHolds H g s.acknowledged 0 ⟨s.dir.genesis, c.archive ++ s.dir.wal, [], none⟩ :=
      ⟨⟨h.dir.durable, Nat.zero_le _, hwhole⟩, h.dir.genesis, nofun⟩
    obtain ⟨node, hopen, hlive⟩ := openNode_live hdir h.live (.inl rfl)
    exact ⟨node, (replayFromFull_eq_ok hholds).mpr ⟨hcurrent, hopen⟩, hlive.trans h.live_eq.symm⟩

theorem restoreFast_eq_ok {x : Expected} {r : Option OvtNode} :
    restoreFast H dir x = .ok r ↔
      openExpected H ⟨dir.genesis, dir.wal, copySnapshots dir.files, none⟩ x =
        .error .snapshotCorruption ∧ r = none ∨
      openExpected H ⟨dir.genesis, dir.wal, copySnapshots dir.files, none⟩ x = .ok r := by
  unfold restoreFast
  split
  · next hcorrupt =>
    simp only [hcorrupt, true_and, reduceCtorEq, or_false, pure_eq_ok]
    exact eq_comm
  · next hcorrupt =>
    rw [onNode_eq_ok]
    exact ⟨.inr, fun h => h.resolve_left fun h => hcorrupt h.1⟩

/-- What a node shows when it is opened decides whether it is expected. -/
theorem openExpected_of_observe {x : Expected} {node : OvtNode} {o : NodeObservation}
    (hopen : openNode H dir false = .ok node) (hobserve : node.observe H = .ok o) :
    openExpected H dir x = .ok (if x.matches o then some node else none) := by
  rw [openExpected, hopen, ok_bind, hobserve]
  rfl

theorem openExpected_of_error {x : Expected} {t : Throw}
    (h : (do
      let node ← openNode H dir false
      node.observe H) = .error t) : openExpected H dir x = .error t := by
  unfold openExpected
  cases hopen : openNode H dir false with
  | error t' =>
    rw [hopen] at h
    cases h
    rfl
  | ok node =>
    rw [hopen, ok_bind] at h
    rw [ok_bind, h]
    rfl

/-- The directory from which a damaged one is restored is sound. -/
theorem StockHolds.damaged (h : StockHolds H g base s) (hdamage : Damages s.dir dir) :
    DirHolds H g s.acknowledged base ⟨dir.genesis, dir.wal, copySnapshots dir.files, none⟩ := by
  refine ⟨⟨h.dir.durable, h.dir.base_le, ?_⟩, ?_, ?_⟩
  · rw [hdamage.wal, h.dir.wal_eq]
  · rw [readGenesis, hdamage.genesis]
    exact h.dir.genesis
  · intro file hfile k hk
    rcases hdamage.files file (List.mem_filter.mp hfile).1 with hold | ⟨hsum, hnull⟩
    · exact h.dir.files file hold k hk
    · exact .inl (decodeSnapshot_discards hsum hnull)

theorem openNode_log (hgenesis : readGenesis dir = .ok g) :
    openNode H dir true = openFull H dir g := by
  rw [openNode, hgenesis, ok_bind]
  rfl

/-- Without snapshots the copy of a damaged directory is opened from the log alone. -/
theorem StockHolds.open_discarded (h : StockHolds H g base s) (hdamage : Damages s.dir dir)
    (hdiscarded : ∀ e ∈ listSnapshots (copySnapshots dir.files),
      decodeSnapshot (utf8Decode e.bytes) = .error .snapshotCorruption) :
    openNode H ⟨dir.genesis, dir.wal, copySnapshots dir.files, none⟩ false = openNode H s.dir true := by
  rw [openNode_discarded (h.damaged hdamage).genesis hdiscarded, openNode_log h.dir.genesis]
  simp only [openFull, hdamage.wal]

/-- What the copy of a damaged directory opens to: the live state, or what is folded from the log alone. -/
theorem StockHolds.open_damaged (h : StockHolds H g base s) (hdamage : Damages s.dir dir) :
    (∃ node, openNode H ⟨dir.genesis, dir.wal, copySnapshots dir.files, none⟩ false = .ok node ∧
      node.live = s.node.live) ∨
    openNode H ⟨dir.genesis, dir.wal, copySnapshots dir.files, none⟩ false =
      openNode H s.dir true := by
  by_cases hsnapshot : HasSnapshot ⟨dir.genesis, dir.wal, copySnapshots dir.files, none⟩
  · obtain ⟨node, hopen, hlive⟩ := openNode_live (h.damaged hdamage) h.live (.inr hsnapshot)
    exact .inl ⟨node, hopen, hlive.trans h.live_eq.symm⟩
  · refine .inr (h.open_discarded hdamage fun e he => ?_)
    by_contra hvalid
    exact hsnapshot ⟨e, he, hvalid⟩

/-- The log alone has fewer ticks, unless it is whole. -/
theorem StockHolds.open_log (h : StockHolds H g base s) {node : OvtNode}
    (hopen : openNode H s.dir true = .ok node)
    (hticks : node.committedTicks = s.acknowledged.length) : node.live = s.node.live := by
  have hmap := openFull_map (H := H) s.dir g
  rw [← openNode_log h.dir.genesis, hopen, h.dir.wal_eq] at hmap
  have hdurable : ∀ b ∈ s.acknowledged.drop base, b.Durable :=
    fun b hb => h.dir.durable b (List.mem_of_mem_drop hb)
  have hcount := ticks_of_readOn hdurable hmap.symm
  have hle := h.dir.base_le
  rw [hticks, List.length_drop] at hcount
  obtain rfl : base = 0 := by omega
  obtain ⟨node', hopen', hlive⟩ := openNode_ignoring h.dir h.live
  rw [h.live_eq, ← hlive, Except.ok.inj (hopen.symm.trans hopen')]

/-- The fast path gives the live state or nothing, when the manifest expects the live state and the log alone
can be folded. -/
theorem StockHolds.restoreFast_live (h : StockHolds H g base s) (hdamage : Damages s.dir dir)
    (hfolds : ∀ t, (do
      let node ← openNode H s.dir true
      node.observe H) = .error t → t = .snapshotCorruption)
    {node₀ : OvtNode} {o : NodeObservation} (hobserve : node₀.observe H = .ok o)
    (hlive : node₀.live = s.node.live) :
    restoreFast H dir o.expected = .ok none ∨
      ∃ node, restoreFast H dir o.expected = .ok (some node) ∧ node.live = s.node.live := by
  rcases h.open_damaged hdamage with ⟨node, hopen, hnode⟩ | hlog
  · obtain ⟨o', hobserve', hmatches⟩ := expected_matches hobserve (hnode.trans hlive.symm)
    have hfast := openExpected_of_observe (x := o.expected) hopen hobserve'
    rw [if_pos hmatches] at hfast
    exact .inr ⟨node, restoreFast_eq_ok.mpr (.inr hfast), hnode⟩
  · cases hseen : (do
      let node ← openNode H s.dir true
      node.observe H) with
    | error t =>
      obtain rfl := hfolds t hseen
      rw [← hlog] at hseen
      exact .inl (restoreFast_eq_ok.mpr (.inl ⟨openExpected_of_error hseen, rfl⟩))
    | ok o' =>
      obtain ⟨node, hopen, hobserve'⟩ := bind_eq_ok.mp hseen
      have hfast := openExpected_of_observe (x := o.expected) (hlog.trans hopen) hobserve'
      by_cases hmatches : o.expected.matches o' = true
      · -- the number of ticks is that of all blocks, so that the log is whole
        have hticks := committedTicks_of_matches hmatches
        rw [committedTicks_of_observe hobserve'] at hticks
        rw [if_pos hmatches] at hfast
        refine .inr ⟨node, restoreFast_eq_ok.mpr (.inr hfast), h.open_log hopen ?_⟩
        have hlive_ticks := congrArg Prod.snd (hlive.trans h.live_eq)
        exact hticks.trans ((committedTicks_of_observe hobserve).trans hlive_ticks)
      · rw [if_neg hmatches] at hfast
        exact .inl (restoreFast_eq_ok.mpr (.inr hfast))

/-- A compacted directory is restored, whatever happens to its snapshots, if it can be rebuilt. -/
theorem StockHolds.restore (h : StockHolds H g base s) (hc : c ∈ s.compaction)
    (hrebuild : Rebuildable H s c) (hdamage : Damages s.dir dir) :
    ∃ node, restoreCompacted H dir (some c) = .ok node ∧ node.live = s.node.live := by
  have hholds := h.compaction c hc
  obtain ⟨then_, o, hthen, hobserve, hexpected⟩ :=
    hholds.current h.dir.toLogHolds h.live hrebuild.current
  rw [← h.live_eq] at hthen
  -- the fast path gives the live state, or nothing
  have hfast : restoreFast H dir c.manifest.expected = .ok none ∨
      ∃ node, restoreFast H dir c.manifest.expected = .ok (some node) ∧ node.live = s.node.live := by
    rw [hexpected]
    exact h.restoreFast_live hdamage hrebuild.folds hobserve hthen
  have hreplay : ∃ node, replayFromFull H dir (some c) = .ok node ∧ node.live = s.node.live := by
    obtain ⟨node, hnode, hlive⟩ := (h.replay_iff hc).mpr ⟨hrebuild.current, hrebuild.whole⟩
    refine ⟨node, ?_, hlive⟩
    rw [replayFromFull_eq_ok hholds] at hnode ⊢
    rw [hdamage.wal, hdamage.genesis]
    exact hnode
  rw [restoreCompacted, readCompaction_some hholds, ok_bind]
  rcases hfast with hnone | ⟨node, hsome, hlive⟩
  · obtain ⟨node, hnode, hlive⟩ := hreplay
    obtain ⟨o', hobserve', hmatches⟩ := expected_matches hobserve (hlive.trans hthen.symm)
    refine ⟨node, ?_, hlive⟩
    rw [← hexpected] at hmatches
    rw [hnone, ok_bind]
    refine bind_eq_ok.mpr ⟨node, hnode, bind_eq_ok.mpr ⟨o', onNode_eq_ok.mpr hobserve', ?_⟩⟩
    exact bind_eq_ok.mpr ⟨(), require_eq_ok.mpr hmatches, rfl⟩
  · refine ⟨node, ?_, hlive⟩
    rw [hsome]
    rfl

/-- A compacted directory is rebuilt exactly if nothing was appended since, no line is missing, and the log
alone can be folded. -/
theorem StockHolds.reconstructs_iff (h : StockHolds H g base s) (hc : c ∈ s.compaction) :
    Reconstructs H s c ↔ Rebuildable H s c := by
  have hholds := h.compaction c hc
  constructor
  · rintro ⟨hreplay, hrestore⟩
    obtain ⟨hcurrent, hwhole⟩ := (h.replay_iff hc).mp hreplay
    refine ⟨hcurrent, hwhole, fun t ht => ?_⟩
    -- a directory whose snapshots are emptied is opened from the log alone
    have hempty : passesChecksum (utf8Decode []) = false ∧ isNullText (utf8Decode []) = false := by
      decide
    have hdamage : Damages s.dir { s.dir with files := s.dir.files.map fun file => (file.1, []) } := by
      refine ⟨rfl, rfl, fun file hfile => .inr ?_⟩
      obtain ⟨old, -, rfl⟩ := List.mem_map.mp hfile
      exact hempty
    have hlog := h.open_discarded hdamage fun e he => by
      obtain ⟨file, hfile, hof⟩ := mem_listSnapshots.mp he
      obtain ⟨k, -, rfl⟩ := Option.map_eq_some_iff.mp hof
      obtain ⟨old, -, rfl⟩ := List.mem_map.mp (List.mem_filter.mp hfile).1
      rfl
    obtain ⟨node, hnode, -⟩ := hrestore _ hdamage
    rw [restoreCompacted, readCompaction_some hholds, ok_bind] at hnode
    obtain ⟨r, hr, -⟩ := bind_eq_ok.mp hnode
    rw [← hlog] at ht
    have herror := openExpected_of_error (x := c.manifest.expected) ht
    rcases restoreFast_eq_ok.mp hr with ⟨hcorrupt, -⟩ | hok
    · exact Except.error.inj (herror.symm.trans hcorrupt)
    · rw [herror] at hok
      cases hok
  · intro hrebuild
    exact ⟨(h.replay_iff hc).mpr ⟨hrebuild.current, hrebuild.whole⟩,
      fun dir hdamage => h.restore hc hrebuild hdamage⟩

end

instance (s : Stock) (op : StockOp) : Decidable (StockSound H s op) := by
  unfold StockSound
  split <;> infer_instance

/-- A tick, a snapshot, and a compaction behind it. -/
def compactOps : List StockOp := [.submit [], .snapshot 2, .compact]

/-- A submit returns. -/
def StockOp.Claimed (H : Host) (s : Stock) : StockOp → Prop
  | .submit submissions => (ParadigmTerra.submit H s.dir s.node submissions).2.2.isOk = true
  | _ => True

instance StockOp.decidableClaimed (s : Stock) (op : StockOp) : Decidable (op.Claimed H s) := by
  unfold StockOp.Claimed
  split <;> infer_instance

end ParadigmTerra
