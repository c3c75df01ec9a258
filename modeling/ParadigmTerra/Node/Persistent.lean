import Mathlib
import ParadigmTerra.Node.SnapshotCodec

/-!
# The persistent node

A node keeps its live state in memory and a directory on disk: the genesis state, the log of the tick
blocks, and snapshots of the live state. `open` recovers the live state from the directory, from the newest
snapshot that can be read and the lines of the log behind it, or else from all lines.

A call that throws may have written before: `submit` returns the directory and the node that it leaves in
any case.
-/

namespace ParadigmTerra

open Text OrderedMap Fallible JsonText

/-- What a node publishes of itself after each tick. -/
structure Head where
  tickCount : ℕ
  finalStateRoot : Str
  eventLogRoot : Str

/-- The directory of a node. The snapshots and the temporary files beside them have their names. -/
structure NodeDir where
  genesis : List UInt8
  wal : List UInt8
  files : List (Str × List UInt8)
  head : Option Head

inductive RecoveryMode
  | FRESH | FULL_REPLAY | SNAPSHOT_TAIL
  deriving DecidableEq

structure OvtNode where
  genesisState : State
  committedTicks : ℕ
  liveIncr : IncrementalState
  tickResults : List TickResult
  eventLogArr : List Event
  recoveredVia : RecoveryMode
  recoveredTail : ℕ

/-! ## The snapshot store -/

/-- `snapshot-N.json`. -/
def snapshotName (coveredTick : ℤ) : Str := js "snapshot-" ++ decimal coveredTick ++ js ".json"

/-- The name under which a snapshot is written before it is published. -/
def tmpName (coveredTick : ℤ) : Str := snapshotName coveredTick ++ js ".tmp"

/-- The tick in the name of a published snapshot. -/
def snapshotTick? (name : Str) : Option ℕ :=
  let digits := (name.drop 9).takeWhile isDigit
  if digits ≠ [] ∧ name = js "snapshot-" ++ digits ++ js ".json" then some (digitsValue digits)
  else none

structure SnapEntry where
  coveredTick : ℕ
  name : Str
  bytes : List UInt8

def SnapEntry.of? (file : Str × List UInt8) : Option SnapEntry :=
  (snapshotTick? file.1).map fun k => ⟨k, file.1, file.2⟩

/-- The published snapshots, the newest first. -/
def listSnapshots (files : List (Str × List UInt8)) : List SnapEntry :=
  (files.filterMap SnapEntry.of?).insertionSort fun a b => b.coveredTick ≤ a.coveredTick

/-- The first of the snapshots that can be read. One that is ahead of the log is an error. -/
def firstValid (walSize : ℕ) : List SnapEntry → Except Throw (Option SnapshotBody)
  | [] => pure none
  | entry :: entries =>
    match decodeSnapshot (utf8Decode entry.bytes) with
    | .error .snapshotCorruption => firstValid walSize entries
    | .error t => throw t
    | .ok body =>
      if walSize < body.wal_offset then throw .snapshotCorruption else pure (some body)

def loadLatestValidSnapshot (files : List (Str × List UInt8)) (walSize : ℕ) :
    Except Throw (Option SnapshotBody) :=
  firstValid walSize (listSnapshots files)

def isTmp (name : Str) : Bool := (js ".json.tmp").isSuffixOf name

/-- Removes all but the newest snapshots, and the temporary files. -/
def pruneSnapshots (files : List (Str × List UInt8)) (keep : ℕ) : List (Str × List UInt8) :=
  let old := ((listSnapshots files).drop keep).map SnapEntry.name
  files.filter fun file => file.1 ∉ old && !isTmp file.1

/-- A file with a new content, in the order in which the files were made. -/
def putFile (name : Str) (bytes : List UInt8) (files : List (Str × List UInt8)) :
    List (Str × List UInt8) :=
  put (fun _ _ => false) name bytes files

/-- Publishes a snapshot: it is written under a temporary name, and then renamed. -/
def writeSnapshotFile (files : List (Str × List UInt8)) (body : SnapshotBody) :
    List (Str × List UInt8) :=
  putFile (snapshotName body.covered_tick) (utf8Encode (encodeSnapshot body))
    (erase (tmpName body.covered_tick) files)

/-! ## The node -/

/-- The offset is the start of a line. -/
def offsetOnBoundary (wal : List UInt8) (offset : ℕ) : Bool :=
  offset = 0 || wal[offset - 1]? = some 0x0A

/-- `enc(v)`. There is no text of a function. -/
def enc (v : Json) : Except Throw Str :=
  match replacer v with
  | some raw => pure (stringify raw)
  | none => throw .typeError

def headOf (H : Host) (node : OvtNode) : Except Throw Head := do
  let stateRoot ← incrementalStateRoot H node.liveIncr
  let eventLogRoot ← if node.liveIncr.eventCount = 0 then pure []
    else incrementalGlobalRoot H node.liveIncr
  pure ⟨node.committedTicks, stateRoot, eventLogRoot⟩

/-- A node that starts at a genesis state, in a directory whose other files stay. -/
def create (H : Host) (files : List (Str × List UInt8)) (genesisState : State) :
    Except Throw (NodeDir × OvtNode) := do
  let text ← enc genesisState
  let node : OvtNode := ⟨genesisState, 0, initIncremental genesisState, [], [], .FRESH, 0⟩
  let head ← headOf H node
  pure (⟨utf8Encode text, [], files, some head⟩, node)

/-- The genesis state of a directory. -/
def readGenesis (dir : NodeDir) : Except Throw State := do
  let v ← dec walTags (utf8Decode dir.genesis)
  match v.toJson? with
  | some genesisState => pure genesisState
  | none => throw .typeError

/-- Recovers a node from a snapshot and the lines behind it. -/
def openTail (H : Host) (dir : NodeDir) (genesisState : State) (snap : SnapshotBody) :
    Except Throw OvtNode := do
  let tail ← readBlocks (utf8Decode (dir.wal.drop snap.wal_offset.toNat))
  let folded ← foldBlocks H snap.incr tail
  pure ⟨genesisState, snap.covered_tick.toNat + tail.length, folded.incr, folded.tickResults,
    folded.eventLog, .SNAPSHOT_TAIL, tail.length⟩

/-- Recovers a node from all lines. -/
def openFull (H : Host) (dir : NodeDir) (genesisState : State) : Except Throw OvtNode := do
  let blocks ← readBlocks (utf8Decode dir.wal)
  let folded ← foldBlocks H (initIncremental genesisState) blocks
  pure ⟨genesisState, blocks.length, folded.incr, folded.tickResults, folded.eventLog, .FULL_REPLAY,
    blocks.length⟩

/-- Recovers a node from its directory. -/
def openNode (H : Host) (dir : NodeDir) (ignoreSnapshots : Bool) : Except Throw OvtNode := do
  let genesisState ← readGenesis dir
  let snap ← if ignoreSnapshots then pure none else loadLatestValidSnapshot dir.files dir.wal.length
  match snap with
  | some snap =>
    if offsetOnBoundary dir.wal snap.wal_offset.toNat then openTail H dir genesisState snap
    else openFull H dir genesisState
  | none => openFull H dir genesisState

/-- Appends a block to the log, and then applies it. -/
def submit (H : Host) (dir : NodeDir) (node : OvtNode) (submissions : List Submission) :
    NodeDir × OvtNode × Except Throw TickResult :=
  let block : TickBlock := ⟨node.committedTicks, submissions⟩
  let dir := { dir with wal := dir.wal ++ walBytes [block] }
  let node := { node with committedTicks := node.committedTicks + 1 }
  match applyTick H node.liveIncr block with
  | .error t => (dir, node, .error t)
  | .ok step =>
    let node := { node with
      liveIncr := step.next
      tickResults := node.tickResults ++ [step.tickResult]
      eventLogArr := node.eventLogArr ++ step.events }
    match headOf H node with
    | .error t => (dir, node, .error t)
    | .ok head => ({ dir with head := some head }, node, .ok step.tickResult)

/-- Publishes a snapshot of the live state, and removes old ones. -/
def snapshot (H : Host) (dir : NodeDir) (node : OvtNode) (keep : ℕ) : Except Throw NodeDir := do
  let body ← makeSnapshotBody H node.liveIncr node.committedTicks dir.wal.length
  pure { dir with files := pruneSnapshots (writeSnapshotFile dir.files body) keep }

end ParadigmTerra
