import ParadigmTerra.Cal.Schema
import ParadigmTerra.Reducer.Apply
import ParadigmTerra.Validator.Validate

/-!
# The node's fold

A node folds tick blocks over one evolving state. `applyTick` takes the live state through one block:
it advances the tick, and drives each submission through ingress, validator and reducer. It returns the
next live state, or throws, and then the block leaves nothing behind.

What a block does to the state and to the log is `applyTick_run` in `TickRun.lean`.
-/

namespace ParadigmTerra

open Text Fallible

/-- How far a submission is driven. -/
inductive SubmissionMode
  | atomic | validateOnly | resume
  deriving DecidableEq, Repr

/-- One CAL handed to the node, with the trace of its execution. -/
structure Submission where
  cal : Json
  trace : ExecutionTrace
  mode : Option SubmissionMode

/-- All submissions that land at one tick. -/
structure TickBlock where
  tick : ℤ
  submissions : List Submission

structure SubmissionResult where
  calHash : Str
  agentId : Str
  terminalStage : Option TerminalStage
  reasonCode : Option ReasonCode
  events : List Event
  stateRoots : List Str
  ingressError : Option ApplyErrorCode

structure TickResult where
  tick : ℤ
  submissions : List SubmissionResult
  stateRoot : Str
  globalMerkleRoot : Str

/-- The node's live state. -/
structure IncrementalState where
  state : State
  currentTick : ℤ
  eventCount : ℕ
  lastEventHash : List UInt8

structure TickStep where
  next : IncrementalState
  tickResult : TickResult
  events : List Event

/-! ## Texts of errors -/

def ApplyErrorCode.text : ApplyErrorCode → String
  | DUPLICATE_CAL => "DUPLICATE_CAL"
  | AGENT_BUSY => "AGENT_BUSY"
  | UNKNOWN_CAL => "UNKNOWN_CAL"
  | BAD_STAGE => "BAD_STAGE"
  | INSUFFICIENT_BALANCE => "INSUFFICIENT_BALANCE"
  | UNDERFLOW => "UNDERFLOW"
  | OVERFLOW => "OVERFLOW"
  | UNKNOWN_EVENT => "UNKNOWN_EVENT"
  | BAD_DELTA => "BAD_DELTA"
  | BAD_TICK => "BAD_TICK"
  | BAD_OWNER_RECORD => "BAD_OWNER_RECORD"

def TerminalStage.text : TerminalStage → String
  | FINALIZED => "FINALIZED"
  | FAILED => "FAILED"
  | EXPIRED => "EXPIRED"

/-! ## Roots -/

def ZERO32 : List UInt8 := List.replicate 32 0

/-- The state root over the eight namespaces. -/
def stateRootOf (H : Host) (state : State) : Except Throw (List UInt8) := do
  let namespaces ← NAMESPACES.mapM fun n => do
    let b ← canonicalizeValue H (state.read n)
    pure (⟨js "state." ++ n, b⟩ : StateNamespace)
  stateRoot H namespaces

/-- The global Merkle root: the stream tree over the one stream `global`. -/
def globalMerkleRoot (H : Host) (state : State) (eventCount : ℕ) (lastEventHash : List UInt8) :
    Except Throw Str := do
  let stateHash ← stateRootOf H state
  let root ← streamTreeRoot H ⟨js "global", stateHash,
    if eventCount = 0 then ZERO32 else lastEventHash, eventCount⟩
  pure (hex root)

def strField (obj : Json) (key : String) : Except Throw Str :=
  match obj.read (js key) with
  | some (.str s) => pure s
  | _ => throw (.orchestrator "BAD_CAL" (js key ++ js " must be a string"))

def currentTickOf (state : State) : ℤ :=
  match state.read (js "tick") with
  | some t => asBig (t.read (js "current")) 0
  | none => 0

/-- The live state from which a fold starts. -/
def initIncremental (genesisState : State) : IncrementalState :=
  ⟨genesisState, currentTickOf genesisState, 0, ZERO32⟩

def incrementalStateRoot (H : Host) (incr : IncrementalState) : Except Throw Str := do
  let root ← stateRootOf H incr.state
  pure (hex root)

def incrementalGlobalRoot (H : Host) (incr : IncrementalState) : Except Throw Str :=
  globalMerkleRoot H incr.state incr.eventCount incr.lastEventHash

/-! ## The fold -/

/-- What `applyTick` carries from event to event. -/
structure Fold where
  state : State
  eventCount : ℕ
  lastEventHash : List UInt8
  events : List Event

/-- Folds one event: the reducer's rejection, or what comes next. -/
def Fold.fold (H : Host) (f : Fold) (ev : Event) : Except Throw (Except ApplyErrorCode Fold) := do
  match ← apply f.state ev with
  | .rejected code => pure (.error code)
  | .ok s => do
    let h ← eventHash H ev
    pure (.ok ⟨s, f.eventCount + 1, h, f.events ++ [ev]⟩)

/-- The events of one submission so far, and the state root after each. -/
structure Recorded where
  events : List Event
  stateRoots : List Str

/-- Records an event that was folded. -/
def Recorded.record (H : Host) (f : Fold) (r : Recorded) (ev : Event) : Except Throw Recorded := do
  let root ← stateRootOf H f.state
  pure ⟨r.events ++ [ev], r.stateRoots ++ [hex root]⟩

/-- Folds an event that the validator emitted. A rejection throws. -/
def foldEmitted (H : Host) (what : Str) (p : Fold × Recorded) (ev : Event) :
    Except Throw (Fold × Recorded) := do
  match ← p.1.fold H ev with
  | .error code => do
    let type ← stringOfOpt (ev.read (js "event_type"))
    throw (.orchestrator "APPLY_FAILED"
      (what ++ js "event " ++ type ++ js " rejected: " ++ js code.text))
  | .ok f => do
    let r ← p.2.record H f ev
    pure (f, r)

/-- `cal.created`. -/
def createdEvent (calHash agentId : Str) : Event :=
  .obj [(js "event_type", .str (js "cal.created")), (js "cal_hash", .str calHash),
    (js "agent_id", .str agentId)]

/-- `cal.signed`. -/
def signedEvent (calHash : Str) : Event :=
  .obj [(js "event_type", .str (js "cal.signed")), (js "cal_hash", .str calHash)]

/-- `tick.advanced`. -/
def advancedEvent (tick : ℤ) : Event :=
  .obj [(js "event_type", .str (js "tick.advanced")), (js "new_tick", .int tick)]

/-- The ingress events, up to the first that the reducer rejects. -/
def ingress (H : Host) : List Event → Fold × Recorded →
    Except Throw ((Fold × Recorded) × Option ApplyErrorCode)
  | [], p => pure (p, none)
  | ev :: evs, p => do
    match ← p.1.fold H ev with
    | .error code => pure (p, some code)
    | .ok f => do
      let r ← p.2.record H f ev
      ingress H evs (f, r)

/-- A submission that was not rejected at ingress, driven as far as its mode says. -/
def drive (H : Host) (sub : Submission) (calHash agentId : Str) (trace : ExecutionTrace)
    (p : Fold × Recorded) : Except Throw (Fold × SubmissionResult) := do
  match sub.mode.getD .atomic with
  | .resume => do
    let res ← resumeFromValidated H sub.cal calHash p.1.state trace
    let (f, r) ← res.events.foldlM (foldEmitted H (js res.terminalStage.text ++ js " resume ")) p
    pure (f, ⟨calHash, agentId, some res.terminalStage, res.reasonCode, r.events, r.stateRoots, none⟩)
  | .validateOnly => do
    let s1 ← validateToValidated H sub.cal calHash p.1.state trace
    let evs := match s1.terminal with | some t => t.events | none => s1.events
    let (f, r) ← evs.foldlM (foldEmitted H (js "validate-only ")) p
    pure (f, ⟨calHash, agentId, s1.terminal.map (·.terminalStage), s1.terminal.bind (·.reasonCode),
      r.events, r.stateRoots, none⟩)
  | .atomic => do
    let res ← validate H sub.cal calHash p.1.state trace
    let (f, r) ← res.events.foldlM (foldEmitted H (js res.terminalStage.text ++ js " ")) p
    pure (f, ⟨calHash, agentId, some res.terminalStage, res.reasonCode, r.events, r.stateRoots, none⟩)

/-- One submission. The node pins the trace to its own tick. -/
def applySubmission (H : Host) (currentTick : ℤ) (f : Fold) (sub : Submission) :
    Except Throw (Fold × SubmissionResult) := do
  let h ← calHash H sub.cal
  let calHash := hex h
  let agentId ← strField sub.cal "agent_id"
  let trace := { sub.trace with currentTick := currentTick }
  if sub.mode.getD .atomic = .resume then drive H sub calHash agentId trace (f, ⟨[], []⟩)
  else do
    let (p, rejected) ← ingress H [createdEvent calHash agentId, signedEvent calHash] (f, ⟨[], []⟩)
    match rejected with
    | some code =>
      pure (p.1, ⟨calHash, agentId, none, none, p.2.events, p.2.stateRoots, some code⟩)
    | none => drive H sub calHash agentId trace p

/-- Advances the tick, if the block is at a later one. -/
def advanceTick (H : Host) (currentTick : ℤ) (f : Fold) (tick : ℤ) : Except Throw Fold :=
  if currentTick < tick then do
    match ← f.fold H (advancedEvent tick) with
    | .error code => throw (.orchestrator "TICK_REJECTED" (js code.text))
    | .ok f => pure f
  else pure f

/-- The submissions of a block, one after another. -/
def applySubmissions (H : Host) (currentTick : ℤ) :
    Fold → List Submission → Except Throw (Fold × List SubmissionResult)
  | f, [] => pure (f, [])
  | f, sub :: subs => do
    let (f, r) ← applySubmission H currentTick f sub
    let (f, rs) ← applySubmissions H currentTick f subs
    pure (f, r :: rs)

/-- Applies one tick block to the live state. -/
def applyTick (H : Host) (incr : IncrementalState) (block : TickBlock) : Except Throw TickStep := do
  if block.tick < incr.currentTick then
    throw (.orchestrator "TICK_REGRESSION" (js "block tick " ++ decimal block.tick ++
      js " < current " ++ decimal incr.currentTick))
  else do
    let f ← advanceTick H incr.currentTick
      ⟨incr.state, incr.eventCount, incr.lastEventHash, []⟩ block.tick
    let currentTick := if incr.currentTick < block.tick then block.tick else incr.currentTick
    let (f, subs) ← applySubmissions H currentTick f block.submissions
    let root ← stateRootOf H f.state
    let globalRoot ← globalMerkleRoot H f.state f.eventCount f.lastEventHash
    pure ⟨⟨f.state, currentTick, f.eventCount, f.lastEventHash⟩,
      ⟨currentTick, subs, hex root, globalRoot⟩, f.events⟩

/-- What a fold of tick blocks gives: the live state, the results and the events of the blocks. -/
structure Folded where
  incr : IncrementalState
  tickResults : List TickResult
  eventLog : List Event

/-- Folds tick blocks onto a live state. -/
def foldBlocks (H : Host) (startIncr : IncrementalState) (blocks : List TickBlock) :
    Except Throw Folded :=
  blocks.foldlM (fun acc b => do
    let step ← applyTick H acc.incr b
    pure ⟨step.next, acc.tickResults ++ [step.tickResult], acc.eventLog ++ step.events⟩)
    ⟨startIncr, [], []⟩

end ParadigmTerra
