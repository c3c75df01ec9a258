import ParadigmTerra.Node.Recovery

/-!
# Copies of a node

Backups and compactions copy a directory, and keep with the copy what a node that is opened on it is
expected to show. A copy is restored by opening it, and the node is checked against that.

`expected_matches` says that the check passes for every node with the same live state, and
`committedTicks_of_matches` that it fails for one with another number of ticks.
-/

namespace ParadigmTerra

open Text OrderedMap Fallible JsonText

variable {H : Host}

/-- Why a copy cannot be made or restored. -/
inductive BackupError
  | noManifest
  | unsupportedVersion (version : ℕ)
  | noValidSnapshot
  | notOnLineBoundary (offset : ℕ)
  | archiveSizes (archive live archive' live' : ℕ)
  | stateMismatch (stateRoot expected : Str)
  | emptyChain
  | notFullBackup
  | startsWithIncremental
  | notIncremental
  | nonContiguous (start running : ℕ)
  | deltaSize (size expected : ℕ)
  | chainSize (size expected : ℕ)
  | sourceShrank (size tip : ℕ)
  deriving DecidableEq

/-- What the functions on copies throw: an error of their own, or that of a node. -/
inductive BackupThrow
  | backup (e : BackupError)
  | node (t : Throw)
  deriving DecidableEq

/-- A node's call, in a function on copies. -/
def onNode {α : Type} : Except Throw α → Except BackupThrow α
  | .ok a => .ok a
  | .error t => .error (.node t)

@[simp] theorem onNode_eq_ok {α : Type} {x : Except Throw α} {a : α} :
    onNode x = .ok a ↔ x = .ok a := by
  cases x <;> simp [onNode]

/-- What a node shows of itself. -/
structure NodeObservation where
  stateRoot : Str
  globalRoot : Str
  eventCount : ℕ
  lastEventHash : Str
  committedTicks : ℕ
  recoveryMode : RecoveryMode
  recoveredTailTicks : ℕ

def OvtNode.observe (H : Host) (node : OvtNode) : Except Throw NodeObservation := do
  let stateRoot ← incrementalStateRoot H node.liveIncr
  let globalRoot ← incrementalGlobalRoot H node.liveIncr
  pure ⟨stateRoot, globalRoot, node.liveIncr.eventCount, hex node.liveIncr.lastEventHash,
    node.committedTicks, node.recoveredVia, node.recoveredTail⟩

/-- What a copy is expected to recover. -/
structure Expected where
  state_root : Str
  global_root : Str
  event_count : ℕ
  last_event_hash : Str
  committed_ticks : ℕ
  recovery_mode : RecoveryMode

def NodeObservation.expected (o : NodeObservation) : Expected :=
  ⟨o.stateRoot, o.globalRoot, o.eventCount, o.lastEventHash, o.committedTicks, o.recoveryMode⟩

/-- The check of a restored node. The path on which it was recovered is left out. -/
def Expected.matches (x : Expected) (o : NodeObservation) : Bool :=
  o.stateRoot = x.state_root && o.globalRoot = x.global_root && o.eventCount = x.event_count &&
    o.lastEventHash = x.last_event_hash && o.committedTicks = x.committed_ticks

/-- The snapshots of a directory, as they are copied. -/
def copySnapshots (files : List (Str × List UInt8)) : List (Str × List UInt8) :=
  files.filter fun file => (snapshotTick? file.1).isSome

section

variable {node node' : OvtNode} {o : NodeObservation} {x : Expected}

theorem committedTicks_of_observe (h : node.observe H = .ok o) :
    o.committedTicks = node.committedTicks := by
  simp only [OvtNode.observe, bind_eq_ok, pure_eq_ok] at h
  obtain ⟨stateRoot, -, globalRoot, -, rfl⟩ := h
  rfl

theorem committedTicks_of_matches (h : x.matches o = true) : o.committedTicks = x.committed_ticks := by
  simp only [Expected.matches, Bool.and_eq_true, decide_eq_true_eq] at h
  exact h.2

/-- Nodes with the same live state pass the same check. -/
theorem expected_matches (h : node.observe H = .ok o) (hlive : node'.live = node.live) :
    ∃ o', node'.observe H = .ok o' ∧ o.expected.matches o' = true := by
  rw [OvtNode.live, OvtNode.live, Prod.mk.injEq] at hlive
  obtain ⟨hincr, hticks⟩ := hlive
  simp only [OvtNode.observe, bind_eq_ok, pure_eq_ok] at h
  obtain ⟨stateRoot, hstate, globalRoot, hglobal, rfl⟩ := h
  refine ⟨_, by rw [OvtNode.observe, hincr, hstate, ok_bind, hglobal]; rfl, ?_⟩
  simp [Expected.matches, NodeObservation.expected, hticks]

end

end ParadigmTerra
