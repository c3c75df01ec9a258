import ParadigmTerra.Node.Crash

/-!
# Rejected ticks

A tick is in the log before it is applied, and stays there when that fails. `submit_leaves` says what a
submit leaves in any case, and `failed_submit_iff` when that does no harm: only if the codec cannot read
the line back, so that the log is taken to end in front of it, and no later tick is accepted.
-/

namespace ParadigmTerra

open Text OrderedMap Fallible JsonText Runs

variable {H : Host}

/-- What a submit leaves, whether it returns or throws. -/
structure Leaves (H : Host) (s : System) (submissions : List Submission) (after : System) : Prop where
  genesis : after.1.genesis = s.1.genesis
  files : after.1.files = s.1.files
  wal : after.1.wal = s.1.wal ++ walBytes [s.block submissions]
  ticks : after.2.committedTicks = s.2.committedTicks + 1

section

variable {g : State} {blocks : List TickBlock} {s : System} {submissions : List Submission}

theorem submit_leaves (H : Host) (s : System) (submissions : List Submission) :
    Leaves H s submissions (s.perform H (.submit submissions)) := by
  simp only [System.perform, submit]
  split
  · exact ⟨rfl, rfl, rfl, rfl⟩
  · split
    · exact ⟨rfl, rfl, rfl, rfl⟩
    · exact ⟨rfl, rfl, rfl, rfl⟩

/-- A tick that applies becomes the current one. -/
theorem applyTick_currentTick {incr : IncrementalState} {block : TickBlock} {step : TickStep}
    (h : applyTick H incr block = .ok step) : step.next.currentTick = block.tick := by
  unfold applyTick at h
  split at h
  · cases h
  · next hle =>
    simp only [bind_eq_ok, pure_eq_ok] at h
    obtain ⟨f, -, q, -, root, -, globalRoot, -, rfl⟩ := h
    change (if incr.currentTick < block.tick then block.tick else incr.currentTick) = block.tick
    split_ifs <;> omega

/-- A submit that returns takes the node to the tick that it had counted. -/
theorem submit_currentTick {dir : NodeDir} {node : OvtNode}
    (h : (submit H dir node submissions).2.2.isOk = true) :
    (submit H dir node submissions).2.1.liveIncr.currentTick = node.committedTicks := by
  obtain ⟨step, head, node', hstep, hsubmit, hnode⟩ := submit_of_isOk h
  rw [OvtNode.live, Prod.mk.injEq] at hnode
  rw [hsubmit, hnode.1, applyTick_currentTick hstep]
  rfl

/-- Whether a submit returns depends on the live state only. -/
theorem submit_isOk_congr {dir dir' : NodeDir} {node node' : OvtNode} (h : node.live = node'.live) :
    (submit H dir node submissions).2.2.isOk = (submit H dir' node' submissions).2.2.isOk := by
  obtain ⟨state, ticks, incr, results, events, via, tail⟩ := node
  obtain ⟨state', ticks', incr', results', events', via', tail'⟩ := node'
  rw [OvtNode.live, OvtNode.live, Prod.mk.injEq] at h
  obtain ⟨rfl, rfl⟩ : incr = incr' ∧ ticks = ticks' := h
  simp only [submit]
  split
  · rfl
  · simp only [headOf]
    split <;> rfl

/-- The directory opens to the live state before the submit, and every later submit that the node and the
reopened one both accept takes them to the same live state. -/
def Unharmed (H : Host) (s : System) (submissions : List Submission) : Prop :=
  let after := s.perform H (.submit submissions)
  ∃ node, openNode H after.1 false = .ok node ∧ node.live = s.2.live ∧
    ∀ later, (submit H after.1 after.2 later).2.2.isOk = true →
      (submit H after.1 node later).2.2.isOk = true →
      (submit H after.1 after.2 later).2.1.liveIncr = (submit H after.1 node later).2.1.liveIncr

/-- No submit would be accepted both by the node before this one and by the node after it. -/
def NoneAccepted (H : Host) (s : System) (submissions : List Submission) : Prop :=
  let after := s.perform H (.submit submissions)
  ∀ later, ¬((submit H after.1 after.2 later).2.2.isOk = true ∧
    (submit H s.1 s.2 later).2.2.isOk = true)

/-- What a node is reopened to after a submit is read from the line of its block. -/
theorem SystemHolds.reopen (h : SystemHolds H g blocks s) (submissions : List Submission) :
    (openNode H (s.perform H (.submit submissions)).1 false).map OvtNode.live =
      readOn H s.2.liveIncr blocks.length (walBytes [s.block submissions]) := by
  have hleaves := submit_leaves H s submissions
  exact openNode_readOn h.dir h.live (.inl rfl) hleaves.genesis hleaves.files hleaves.wal

/-- A line that the codec reads back makes a tick, or an error. -/
theorem readOn_line {incr incr' : IncrementalState} {n m : ℕ} {block : TickBlock}
    (hblock : block.toJson.fits ordered = true)
    (h : readOn H incr n (walBytes [block]) = .ok (incr', m)) :
    m = n + (dec walTags block.line).toOption.toList.length := by
  simp only [readOn, readBlocks, (parseWalLines_line hblock).2, bind_eq_ok, pure_eq_ok] at h
  obtain ⟨more, hmore, folded, -, heq⟩ := h
  cases heq
  rw [(mapM_ok.mp hmore).length_eq]

/-- A submit does no harm exactly if the line of its block cannot be read back, and nothing is accepted
after it. -/
theorem SystemHolds.unharmed_iff (h : SystemHolds H g blocks s)
    (hblock : (s.block submissions).toJson.fits ordered = true) :
    Unharmed H s submissions ↔
      (dec walTags (s.block submissions).line).isOk = false ∧ NoneAccepted H s submissions := by
  have hreopen := h.reopen submissions
  have hleaves := submit_leaves H s submissions
  constructor
  · rintro ⟨node, hopen, hlive, hlater⟩
    rw [hopen, Except.map, hlive, h.live_eq] at hreopen
    refine ⟨?_, ?_⟩
    · -- the tick of a line that can be read is counted
      have hticks := readOn_line hblock hreopen.symm
      cases hdec : dec walTags (s.block submissions).line with
      | error t => rfl
      | ok v =>
        rw [hdec] at hticks
        simp [Except.toOption] at hticks
    · -- the two nodes are at different ticks
      rintro later ⟨hafter, hbefore⟩
      rw [submit_isOk_congr hlive.symm] at hbefore
      have heq := congrArg IncrementalState.currentTick (hlater later hafter hbefore)
      rw [OvtNode.live, h.live_eq, Prod.mk.injEq] at hlive
      rw [submit_currentTick hafter, submit_currentTick hbefore, hleaves.ticks, h.ticks, hlive.2] at heq
      omega
  · rintro ⟨hdec, hnone⟩
    have hread : readOn H s.2.liveIncr blocks.length (walBytes [s.block submissions]) =
        .ok s.2.live := by
      have hlines : (dec walTags (s.block submissions).line).toOption.toList = [] := by
        cases hcase : dec walTags (s.block submissions).line with
        | error t => rfl
        | ok v =>
          rw [hcase] at hdec
          cases hdec
      rw [readOn, readBlocks, (parseWalLines_line hblock).2, hlines, h.live_eq]
      rfl
    obtain ⟨node, hopen, hlive⟩ := map_eq_ok.mp (hreopen.trans hread)
    refine ⟨node, hopen, hlive, fun later hafter hbefore => ?_⟩
    rw [submit_isOk_congr hlive] at hbefore
    exact absurd ⟨hafter, hbefore⟩ (hnone later)

end

/-- A submission whose CAL has no members. -/
def emptyCal : Submission := { submitFeed .atomic with cal := .obj [] }

end ParadigmTerra
