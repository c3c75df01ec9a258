import ParadigmTerra.Node.Recovery

/-!
# Crashes

A crash in the middle of an append leaves the first bytes of a line. `parseWalLines_torn` says that the
reader of the log drops them, unless they are the whole text of the block, which is then read. But the
next append goes on behind the torn bytes, on the same line, and that line is never read again.

`acknowledged_ticks_survive` is the durability of the log on runs whose appends all find a line ended, and
`acknowledged_tick_lost` is the short run on which a tick is acknowledged and then lost.
-/

namespace ParadigmTerra

open Text OrderedMap Fallible JsonText Runs

variable {H : Host}

/-! ## Torn lines -/

/-- Blanks are removed at the end only, if there are none at the start. -/
theorem exists_trim_append {s : Str} (h : ∀ u, s.head? = some u → isTrimmed u = false) :
    ∃ blanks, s = trim s ++ blanks := by
  refine ⟨(s.reverse.takeWhile isTrimmed).reverse, ?_⟩
  rw [trim, dropWhile_trimmed h, ← List.reverse_append, List.takeWhile_append_dropWhile,
    List.reverse_reverse]

theorem splitOn_single {c : UInt16} {s : Str} (h : ∀ u ∈ s, u ≠ c) : splitOn c s = [s] := by
  induction s with
  | nil => rfl
  | cons u s ih =>
    obtain ⟨hu, hs⟩ := List.forall_mem_cons.mp h
    rw [splitOn, if_neg hu, ih hs]

/-- What is on a line that cannot be read, is dropped. -/
theorem parseWalLines_unreadable {s : Str} (hline : ∀ u ∈ s, u ≠ 0x0A) (h : parse (trim s) = none) :
    parseWalLines s = [] := by
  have hdec : dec walTags (trim s) = .error .syntaxError := by rw [dec, h]; rfl
  rw [parseWalLines, splitOn_single hline]
  simp only [parseLines, hdec, ite_self]

section

variable {block : TickBlock}

/-- A part of the text of a block, with or without a replacement for the character at the cut, is no
text of a value. -/
theorem parse_trim_torn (h : block.Durable) {t u : Str} (hline : block.line = t ++ u) (hu : u ≠ []) :
    parse (trim t) = none ∧ parse (trim (t ++ [replacement])) = none := by
  have hhead : ∀ c, t.head? = some c → isTrimmed c = false := by
    obtain ⟨inner, hinner⟩ := line_eq block
    intro c hc
    cases t with
    | nil => cases hc
    | cons a t =>
      rw [hline, List.cons_append, List.cons_append] at hinner
      cases hc
      rw [(List.cons.inj hinner).1]
      decide
  constructor
  · -- the rest of the line goes on to the closing brace
    obtain ⟨blanks, hblanks⟩ := exists_trim_append hhead
    obtain ⟨inner, hinner⟩ := line_eq block
    obtain ⟨q, hq⟩ : ∃ q, blanks ++ u = q ++ [0x7D] := by
      have hne : blanks ++ u ≠ [] := List.append_ne_nil_of_right_ne_nil _ hu
      refine ⟨(blanks ++ u).dropLast, ?_⟩
      have hlast : (trim t ++ (blanks ++ u)).getLast? = some 0x7D := by
        rw [← List.append_assoc, ← hblanks, ← hline, hinner, List.getLast?_concat]
      rw [List.getLast?_append_of_ne_nil _ hne, List.getLast?_eq_some_getLast hne] at hlast
      rw [← Option.some.inj hlast, List.dropLast_append_getLast hne]
    refine parse_cut (q := q) ?_
    rw [List.append_assoc, ← hq, ← List.append_assoc, ← hblanks, ← hline, TickBlock.line,
      parse_stringify (proper_line h.ordered)]
    rfl
  · rw [trim_eq_self, parse_replacement]
    · intro c hc
      cases t with
      | nil =>
        cases hc
        decide
      | cons a t => exact hhead c hc
    · intro c hc
      rw [List.getLast?_concat, Option.some.injEq] at hc
      rw [← hc]
      decide

/-- The first bytes of a line are dropped by the reader. -/
theorem parseWalLines_torn (h : block.Durable) {n : ℕ} (hn : n < (utf8Encode block.line).length) :
    parseWalLines (utf8Decode ((walBytes [block]).take n)) = [] := by
  have hprintable := printable_line h.ordered
  have htake : (walBytes [block]).take n = (utf8Encode block.line).take n := by
    rw [walBytes_singleton h, List.take_append_of_le_length hn.le]
  have hrest : (utf8Encode block.line).drop n ≠ [] := by
    rw [ne_eq, List.drop_eq_nil_iff]
    omega
  obtain ⟨t, u, hline, hu, hdecode⟩ :=
    utf8Decode_prefix hprintable.1 (List.take_append_drop n _) hrest
  have hnewline : ∀ c ∈ t, c ≠ 0x0A := by
    intro c hc
    refine ne_newline_of_printable hprintable c ?_
    rw [hline]
    exact List.mem_append_left u hc
  obtain ⟨hplain, hreplaced⟩ := parse_trim_torn h hline hu
  rw [htake]
  rcases hdecode with hdecode | hdecode
  · rw [hdecode]
    exact parseWalLines_unreadable hnewline hplain
  · rw [hdecode]
    refine parseWalLines_unreadable ?_ hreplaced
    intro c hc
    rcases List.mem_append.mp hc with hc | hc
    · exact hnewline c hc
    · rw [List.mem_singleton.mp hc]
      decide

/-- The text of a block is read with the end of its line or without it. What the codec cannot read back
is dropped. -/
theorem parseWalLines_line (h : block.toJson.fits ordered = true) :
    parseWalLines (utf8Decode (utf8Encode block.line)) = (dec walTags block.line).toOption.toList ∧
      parseWalLines (utf8Decode (walBytes [block])) = (dec walTags block.line).toOption.toList := by
  have hprintable := printable_line h
  have hnewline := ne_newline_of_printable hprintable
  have hwf : wellFormed (block.line ++ [0x0A]) = true := wellFormed_append hprintable.1 (by decide)
  obtain ⟨inner, hinner⟩ := line_eq block
  have htrim : trim block.line = block.line := by rw [hinner, trim_braces]
  have hne : block.line ≠ [] := by simp [hinner]
  have hblank : trim [] = [] := rfl
  have hsplit : splitOn 0x0A (block.line ++ [0x0A]) = [block.line, []] := splitOn_line hnewline []
  constructor
  · rw [utf8Decode_encode hprintable.1, parseWalLines, splitOn_single hnewline]
    simp only [parseLines, htrim, if_neg hne]
    cases dec walTags block.line <;> rfl
  · rw [walBytes, List.flatMap_singleton, utf8Decode_encode hwf, parseWalLines, hsplit]
    simp only [parseLines, htrim, if_neg hne, hblank, if_true]
    cases dec walTags block.line <;> rfl

/-- The log holds the whole text of the block once this many bytes of its line are written. -/
def TickBlock.reached (block : TickBlock) (n : ℕ) : Bool := (utf8Encode block.line).length ≤ n

/-- The reader finds a block whose line was cut exactly if its text was written. -/
theorem parseWalLines_cut (h : block.Durable) (n : ℕ) :
    parseWalLines (utf8Decode ((walBytes [block]).take n)) =
      if block.reached n then [block.toJson.toJs] else [] := by
  have hdec : (dec walTags block.line).toOption.toList = [block.toJson.toJs] := by
    rw [(dec_line h.ordered).mpr h.lossless]
    rfl
  obtain ⟨htext, hline⟩ := parseWalLines_line h.ordered
  by_cases hn : block.reached n = true
  · rw [if_pos hn]
    have hle : (utf8Encode block.line).length ≤ n := by simpa [TickBlock.reached] using hn
    -- the end of the line was written too, or not
    rcases hle.eq_or_lt with rfl | hlt
    · rw [walBytes_singleton h, List.take_left, htext, hdec]
    · rw [List.take_of_length_le, hline, hdec]
      rw [walBytes_singleton h, List.length_append, List.length_singleton]
      exact hlt
  · rw [if_neg hn]
    refine parseWalLines_torn h ?_
    simpa [TickBlock.reached] using hn

end

/-- A log whose last line was cut. -/
theorem readBlocks_cut {blocks : List TickBlock} {b : TickBlock} (hblocks : ∀ b ∈ blocks, b.Durable)
    (hb : b.Durable) (n : ℕ) :
    readBlocks (utf8Decode (walBytes blocks ++ (walBytes [b]).take n)) =
      .ok (blocks ++ if b.reached n then [b] else []) := by
  rw [utf8Decode_walBytes hblocks, readBlocks, parseWalLines_lines hblocks, parseWalLines_cut hb]
  refine mapM_ok.mpr ?_
  refine List.rel_append ?_ ?_
  · exact List.forall₂_map_left_iff.mpr (List.forall₂_same.mpr fun b _ => asBlock_toJs b)
  · split
    · exact .cons (asBlock_toJs b) .nil
    · exact .nil

/-! ## Runs with crashes -/

/-- A directory, the process that has it open, if one runs, and what a client knows: the blocks that were
acknowledged, and those whose text was written. -/
structure Watched where
  dir : NodeDir
  node : Option OvtNode
  acknowledged : List TickBlock
  written : List TickBlock

/-- A call, a call in which the process dies after so many bytes of the line, and a restart. -/
inductive CrashOp
  | submit (submissions : List Submission)
  | crash (submissions : List Submission) (n : ℕ)
  | reopen (ignoreSnapshots : Bool)

def Watched.submit (H : Host) (s : Watched) (node : OvtNode) (submissions : List Submission) :
    Watched :=
  match ParadigmTerra.submit H s.dir node submissions with
  | (dir, node', .ok _) => ⟨dir, some node', s.acknowledged ++ [node.block submissions],
      s.written ++ [node.block submissions]⟩
  | (dir, node', .error _) => ⟨dir, some node', s.acknowledged, s.written ++ [node.block submissions]⟩

def Watched.crash (s : Watched) (node : OvtNode) (submissions : List Submission) (n : ℕ) : Watched :=
  { s with
    dir := { s.dir with wal := s.dir.wal ++ (walBytes [node.block submissions]).take n }
    node := none
    written := s.written ++
      if (node.block submissions).reached n then [node.block submissions] else [] }

/-- What happens. Nothing does when there is no process that could be called. -/
def Watched.perform (H : Host) (s : Watched) : CrashOp → Watched
  | .submit submissions =>
    match s.node with
    | some node => s.submit H node submissions
    | none => s
  | .crash submissions n =>
    match s.node with
    | some node => s.crash node submissions n
    | none => s
  | .reopen ignoreSnapshots => { s with node := (openNode H s.dir ignoreSnapshots).toOption }

/-- A directory with a node on it that has just been created. -/
def Watched.start (s : System) : Watched := ⟨s.1, some s.2, [], []⟩

/-- The directory opens to the live state after the ticks that were acknowledged, in their order, and
possibly some of those whose text was written. -/
def Watched.Survives (H : Host) (g : State) (s : Watched) : Prop :=
  ∀ ignoreSnapshots, ∃ node blocks, openNode H s.dir ignoreSnapshots = .ok node ∧
    LiveAfter H g blocks node.liveIncr ∧ node.committedTicks = blocks.length ∧
    s.acknowledged.Sublist blocks ∧ blocks.Sublist s.written

/-- An append finds the end of a line, and its block comes back from there and applies: the block of a
submit in any case, and that of a crash if its text was written. -/
def AppendSound (H : Host) (s : Watched) : CrashOp → Prop
  | .submit submissions => ∃ node ∈ s.node, (node.block submissions).Durable ∧
      offsetOnBoundary s.dir.wal s.dir.wal.length = true ∧
      (ParadigmTerra.submit H s.dir node submissions).2.2.isOk = true
  | .crash submissions n => ∃ node ∈ s.node, (node.block submissions).Durable ∧
      offsetOnBoundary s.dir.wal s.dir.wal.length = true ∧
      ((node.block submissions).reached n = true →
        (applyTick H node.liveIncr (node.block submissions)).isOk = true)
  | .reopen _ => True

/-- The log holds the blocks, possibly with a torn line behind them, and a process has their live
state. -/
structure Watched.Holds (H : Host) (g : State) (s : Watched) : Prop where
  genesis : readGenesis s.dir = .ok g
  files : ∀ file ∈ s.dir.files, snapshotTick? file.1 = none
  durable : ∀ b ∈ s.written, b.Durable
  read : readBlocks (utf8Decode s.dir.wal) = .ok s.written
  wal_eq : offsetOnBoundary s.dir.wal s.dir.wal.length = true → s.dir.wal = walBytes s.written
  live : ∃ incr, LiveAfter H g s.written incr ∧
    ∀ node ∈ s.node, node.live = (incr, s.written.length)
  acknowledged : s.acknowledged.Sublist s.written

section

variable {g : State} {s : Watched} {node : OvtNode} {submissions : List Submission}

/-- Without snapshots a directory opens to the live state after the blocks that are read. -/
theorem openNode_read {dir : NodeDir} {blocks : List TickBlock} {incr : IncrementalState}
    (hgenesis : readGenesis dir = .ok g) (hfiles : ∀ file ∈ dir.files, snapshotTick? file.1 = none)
    (hread : readBlocks (utf8Decode dir.wal) = .ok blocks) (hlive : LiveAfter H g blocks incr)
    (ignoreSnapshots : Bool) :
    ∃ node, openNode H dir ignoreSnapshots = .ok node ∧ node.live = (incr, blocks.length) := by
  have hlist : ∀ e ∈ listSnapshots dir.files,
      decodeSnapshot (utf8Decode e.bytes) = .error .snapshotCorruption := by
    intro e he
    obtain ⟨file, hfile, heq⟩ := mem_listSnapshots.mp he
    rw [SnapEntry.of?, hfiles file hfile] at heq
    cases heq
  have hfull : (openFull H dir g).map OvtNode.live = .ok (incr, blocks.length) := by
    obtain ⟨folded, hfold, rfl⟩ := hlive
    rw [openFull_map, readOn, hread, ok_bind, hfold, ok_bind, Nat.zero_add]
    rfl
  obtain ⟨node, hnode, hlive⟩ := map_eq_ok.mp hfull
  exact ⟨node, (openNode_discarded hgenesis hlist ignoreSnapshots).trans hnode, hlive⟩

/-- A directory in this state opens. -/
theorem Watched.Holds.survives (h : s.Holds H g) : s.Survives H g := by
  obtain ⟨incr, hlive, -⟩ := h.live
  intro ignoreSnapshots
  obtain ⟨node, hopen, hnode⟩ := openNode_read h.genesis h.files h.read hlive ignoreSnapshots
  rw [OvtNode.live, Prod.mk.injEq] at hnode
  exact ⟨node, s.written, hopen, hnode.1 ▸ hlive, hnode.2, h.acknowledged, List.Sublist.refl _⟩

/-- No byte of a line ends a line. -/
theorem newline_not_mem_line {block : TickBlock} (h : block.Durable) :
    (0x0A : UInt8) ∉ utf8Encode block.line := by
  intro hmem
  have hprintable := printable_line h.ordered
  have hunit := mem_of_mem_utf8Encode hprintable.1 (by decide) hmem
  exact ne_newline_of_printable hprintable _ hunit (by decide)

theorem getLast?_of_boundary {wal : List UInt8} (h : offsetOnBoundary wal wal.length = true)
    (hne : wal ≠ []) : wal.getLast? = some 0x0A := by
  rw [offsetOnBoundary, Bool.or_eq_true, decide_eq_true_eq, decide_eq_true_eq,
    List.length_eq_zero_iff] at h
  rw [List.getLast?_eq_getElem?]
  exact h.resolve_left hne

/-- A log that ends in a line end has no torn line. -/
theorem wal_eq_of_boundary {blocks : List TickBlock} {b : TickBlock} (hb : b.Durable) {n : ℕ}
    (h : offsetOnBoundary (walBytes blocks ++ (walBytes [b]).take n)
      (walBytes blocks ++ (walBytes [b]).take n).length = true) :
    walBytes blocks ++ (walBytes [b]).take n =
      walBytes (blocks ++ if b.reached n then [b] else []) := by
  have hne : utf8Encode b.line ≠ [] := by
    intro hnil
    obtain ⟨inner, hinner⟩ := line_eq b
    have hdecode := utf8Decode_encode (printable_line hb.ordered).1
    rw [hnil, utf8Decode, hinner] at hdecode
    cases hdecode
  rw [walBytes_append]
  rcases Nat.lt_or_ge (utf8Encode b.line).length n with hlt | hle
  · -- the whole line is written
    rw [TickBlock.reached, decide_eq_true hlt.le, if_pos rfl, List.take_of_length_le]
    rw [walBytes_singleton hb, List.length_append, List.length_singleton]
    exact hlt
  · have htake : (walBytes [b]).take n = (utf8Encode b.line).take n := by
      rw [walBytes_singleton hb, List.take_append_of_le_length hle]
    rcases Nat.eq_zero_or_pos n with rfl | hpos
    · have hlength := List.length_pos_iff.mpr hne
      rw [TickBlock.reached, decide_eq_false (by omega), if_neg (by decide), List.take_zero]
      rfl
    · -- the last byte is one of the text
      have htorn : (utf8Encode b.line).take n ≠ [] := by
        rw [ne_eq, List.take_eq_nil_iff, not_or]
        exact ⟨by omega, hne⟩
      rw [htake] at h
      have hlast := getLast?_of_boundary h (List.append_ne_nil_of_right_ne_nil _ htorn)
      rw [List.getLast?_append_of_ne_nil _ htorn] at hlast
      exact absurd (List.mem_of_mem_take (List.mem_of_getLast? hlast)) (newline_not_mem_line hb)

/-- A submit that returns. -/
theorem Watched.Holds.submit (h : s.Holds H g) (hnode : node ∈ s.node)
    (hdurable : (node.block submissions).Durable)
    (hboundary : offsetOnBoundary s.dir.wal s.dir.wal.length = true)
    (hok : (ParadigmTerra.submit H s.dir node submissions).2.2.isOk = true) :
    (s.submit H node submissions).Holds H g := by
  obtain ⟨incr, hlive, hrunning⟩ := h.live
  have hnode := hrunning node hnode
  rw [OvtNode.live, Prod.mk.injEq] at hnode
  obtain ⟨step, head, node', hstep, hsubmit, hnode'⟩ := submit_of_isOk hok
  have hdurable' : ∀ b ∈ s.written ++ [node.block submissions], b.Durable :=
    List.forall_mem_append.mpr ⟨h.durable, List.forall_mem_singleton.mpr hdurable⟩
  have hwal : s.dir.wal ++ walBytes [node.block submissions] =
      walBytes (s.written ++ [node.block submissions]) := by
    rw [h.wal_eq hboundary, walBytes_append]
  rw [Watched.submit, hsubmit]
  constructor
  · exact h.genesis
  · exact h.files
  · exact hdurable'
  · change readBlocks (utf8Decode (s.dir.wal ++ _)) = _
    rw [hwal, readBlocks_walBytes hdurable']
  · exact fun _ => hwal
  · refine ⟨step.next, (hnode.1 ▸ hlive).snoc hstep, fun n hn => ?_⟩
    rw [← Option.mem_some.mp hn, hnode', hnode.2, List.length_append, List.length_singleton]
  · exact h.acknowledged.append (List.Sublist.refl _)

/-- A process that dies in a submit. -/
theorem Watched.Holds.crash (h : s.Holds H g) (hnode : node ∈ s.node) {n : ℕ}
    (hdurable : (node.block submissions).Durable)
    (hboundary : offsetOnBoundary s.dir.wal s.dir.wal.length = true)
    (happly : (node.block submissions).reached n = true →
        (applyTick H node.liveIncr (node.block submissions)).isOk = true) :
    (s.crash node submissions n).Holds H g := by
  obtain ⟨incr, hlive, hrunning⟩ := h.live
  have hnode := hrunning node hnode
  rw [OvtNode.live, Prod.mk.injEq] at hnode
  have hwal := h.wal_eq hboundary
  constructor
  · exact h.genesis
  · exact h.files
  · refine List.forall_mem_append.mpr ⟨h.durable, fun b hb => ?_⟩
    split at hb
    · exact List.mem_singleton.mp hb ▸ hdurable
    · cases hb
  · change readBlocks (utf8Decode (s.dir.wal ++ _)) = .ok (s.written ++ _)
    rw [hwal, readBlocks_cut h.durable hdurable]
  · change offsetOnBoundary (s.dir.wal ++ _) (s.dir.wal ++ _).length = true →
      s.dir.wal ++ _ = walBytes (s.written ++ _)
    rw [hwal]
    exact wal_eq_of_boundary hdurable
  · change ∃ incr, LiveAfter H g (s.written ++ _) incr ∧ _
    by_cases hreached : (node.block submissions).reached n = true
    · obtain ⟨step, hstep⟩ := isOk_iff.mp (happly hreached)
      rw [if_pos hreached]
      refine ⟨step.next, (hnode.1 ▸ hlive).snoc hstep, ?_⟩
      intro node hnone
      cases hnone
    · rw [if_neg hreached, List.append_nil]
      refine ⟨incr, hlive, ?_⟩
      intro node hnone
      cases hnone
  · exact h.acknowledged.trans (List.sublist_append_left _ _)

/-- Each sound operation keeps the log readable. -/
theorem Watched.Holds.perform (h : s.Holds H g) {op : CrashOp} (hop : AppendSound H s op) :
    (s.perform H op).Holds H g := by
  cases op with
  | submit submissions =>
    obtain ⟨node, hnode, hdurable, hboundary, hok⟩ := hop
    simp only [Watched.perform, Option.mem_def.mp hnode]
    exact h.submit hnode hdurable hboundary hok
  | crash submissions n =>
    obtain ⟨node, hnode, hdurable, hboundary, happly⟩ := hop
    simp only [Watched.perform, Option.mem_def.mp hnode]
    exact h.crash hnode hdurable hboundary happly
  | reopen ignoreSnapshots =>
    obtain ⟨incr, hlive, -⟩ := h.live
    obtain ⟨node, hopen, hnode⟩ := openNode_read h.genesis h.files h.read hlive ignoreSnapshots
    refine { h with live := ⟨incr, hlive, fun n hn => ?_⟩ }
    change n ∈ (openNode H s.dir ignoreSnapshots).toOption at hn
    rw [hopen] at hn
    rw [← Option.mem_some.mp hn, hnode]
    rfl

end

/-- A node that has been created. -/
theorem Created.watched {g : State} {s : System} (h : Created H g s) : (Watched.start s).Holds H g := by
  obtain ⟨hdir, hlive, hticks⟩ := h.holds
  have hwal : s.1.wal = [] := hdir.wal_eq
  constructor
  · exact hdir.genesis
  · exact h.no_snapshots
  · exact nofun
  · change readBlocks (utf8Decode s.1.wal) = .ok []
    rw [hwal]
    exact @readBlocks_walBytes [] nofun
  · exact fun _ => hwal
  · refine ⟨s.2.liveIncr, hlive, fun n hn => ?_⟩
    rw [← Option.mem_some.mp hn, OvtNode.live, hticks]
    rfl
  · exact List.Sublist.refl _

/-- After every run whose appends are sound, the directory opens to the live state after the acknowledged
ticks, and those whose text was written when the process died. -/
theorem acknowledged_ticks_survive {g : State} {s : System} (hs : Created H g s) {ops : List CrashOp}
    (hops : Meets (Watched.perform H) (AppendSound H) (.start s) ops) :
    (ops.foldl (Watched.perform H) (.start s)).Survives H g := by
  refine Watched.Holds.survives ?_
  exact hops.invariant (I := fun s => s.Holds H g) (fun s op h hop => h.perform hop) hs.watched

/-! ## Checks of runs at hand -/

instance (s : Watched) (op : CrashOp) : Decidable (AppendSound H s op) := by
  unfold AppendSound
  split <;> infer_instance

/-- A tick, a crash after its line, a tick, and a crash in the middle of its line. -/
def crashOps : List CrashOp :=
  [.submit [], .crash [] 100, .reopen false, .submit [], .crash [] 7, .reopen true]

theorem acknowledged_ticks_survive_crash : ∃ s, createGenesis = .ok s ∧
    (crashOps.foldl (Watched.perform Escape.host) (.start s)).Survives Escape.host genesis := by
  obtain ⟨s, hs, hops⟩ := exists_of_any (x := createGenesis) (p := fun s =>
    Meets (Watched.perform Escape.host) (AppendSound Escape.host) (.start s) crashOps)
    (by decide +kernel)
  exact ⟨s, hs, acknowledged_ticks_survive (created_genesis hs) (of_decide_eq_true hops)⟩

/-- There is a process that can be called, and a submit returns. -/
def CrashOp.Claimed (H : Host) (s : Watched) : CrashOp → Prop
  | .submit submissions => ∃ node ∈ s.node,
      (ParadigmTerra.submit H s.dir node submissions).2.2.isOk = true
  | .crash _ _ => s.node.isSome = true
  | .reopen _ => True

instance CrashOp.decidableClaimed (s : Watched) (op : CrashOp) : Decidable (op.Claimed H s) := by
  unfold CrashOp.Claimed
  split <;> infer_instance

/-- A crash after the first byte of a line, a restart, and a tick. -/
def tornAppend : List CrashOp := [.crash [] 1, .reopen false, .submit []]

/-- A tick that is acknowledged after a crash is not there after the next restart. -/
theorem acknowledged_tick_lost :
    ¬∀ (H : Host) (g : State) (s : System) (ops : List CrashOp), Created H g s →
      Meets (Watched.perform H) (fun s op => op.Claimed H s) (.start s) ops →
      (ops.foldl (Watched.perform H) (.start s)).Survives H g := by
  intro h
  obtain ⟨s, hs, hcheck⟩ := exists_of_any (x := createGenesis) (p := fun s =>
    let after := tornAppend.foldl (Watched.perform Escape.host) (.start s)
    decide (Meets (Watched.perform Escape.host) (fun s op => op.Claimed Escape.host s) (.start s)
      tornAppend) && after.acknowledged.length = 1 &&
      (openNode Escape.host after.dir false).toOption.any (fun node => node.committedTicks = 0))
    (by decide +kernel)
  simp only [Bool.and_eq_true, decide_eq_true_eq] at hcheck
  obtain ⟨⟨hops, hacknowledged⟩, hopened⟩ := hcheck
  obtain ⟨node, blocks, hopen, -, hticks, hsub, -⟩ :=
    h Escape.host genesis s tornAppend (created_genesis hs) hops false
  rw [hopen, Except.toOption, Option.any_some, decide_eq_true_eq] at hopened
  have hlength := hsub.length_le
  omega

end ParadigmTerra
