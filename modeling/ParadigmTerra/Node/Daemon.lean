import ParadigmTerra.Lib.Firsts
import ParadigmTerra.Node.Persistent
import ParadigmTerra.Node.Replay

/-!
# The daemon

A daemon keeps the submissions that it accepts in a queue, its mempool. A fire of its timer takes the first
submission of each agent out of the queue and submits them to the node as one tick; a shutdown stops the
timer and does the same until the queue is empty. JavaScript runs each of these calls to its end before it
starts another, so that a run of the daemon is a list of calls.

`run_conserves` is the invariant of the runs, and `mempool_conserved` what it comes to after a shutdown: the
node has got each accepted submission once, those of one agent in the order in which they came.
-/

namespace ParadigmTerra

open Text Fallible

inductive DaemonState
  | BOOTING | RECOVERING | CATCHING_UP | RUNNING | SHUTTING_DOWN | STOPPED
  deriving DecidableEq

/-- The calls that a daemon makes to its node: `submit`, `snapshot` with the default number of files to
keep, and `tickCount`. -/
structure NodeCalls (N : Type) where
  submit : N → List Submission → Except Throw N
  snapshot : N → Except Throw N
  tickCount : N → ℕ

/-- The calls to a persistent node in its directory. -/
def OvtNode.calls (H : Host) : NodeCalls (NodeDir × OvtNode) where
  submit n batch :=
    let (dir, node, result) := ParadigmTerra.submit H n.1 n.2 batch
    result.map fun _ => (dir, node)
  snapshot n := (ParadigmTerra.snapshot H n.1 n.2 2).map fun dir => (dir, n.2)
  tickCount n := n.2.committedTicks

/-- What a daemon counts. -/
structure DaemonCounts where
  committedTicks : ℕ
  idleTicks : ℕ
  totalSubmissions : ℕ
  maxMempoolDepth : ℕ
  snapshotsTaken : ℕ

structure Daemon (N : Type) where
  node : N
  state : DaemonState
  mempool : List Submission
  cadence : ℕ
  m : DaemonCounts

/-- The agent that a submission names. -/
def agentIdOf (s : Submission) : Str :=
  match s.cal.read (js "agent_id") with
  | some (.str a) => a
  | _ => []

/-- A snapshot is due after every so many ticks. -/
def snapshotDue (committedTicks everyNTicks : ℕ) : Bool :=
  decide (0 < committedTicks) && decide (committedTicks % everyNTicks = 0)

/-- What a call leaves: the daemon, the submissions that it accepted, and the batches that it passed to the
node. -/
structure Ran (N : Type) where
  daemon : Daemon N
  accepted : List Submission
  batches : List (List Submission)

namespace Daemon

variable {N : Type}

/-- A daemon over a node that was opened. -/
def start (node : N) (cadence : ℕ) : Daemon N := ⟨node, .RUNNING, [], cadence, ⟨0, 0, 0, 0, 0⟩⟩

/-- Accepts a submission while the daemon is live; otherwise the call throws and changes nothing. -/
def submit (d : Daemon N) (s : Submission) : Ran N :=
  if d.state = .RUNNING ∨ d.state = .CATCHING_UP then
    let mempool := d.mempool ++ [s]
    let m := { d.m with
      totalSubmissions := d.m.totalSubmissions + 1
      maxMempoolDepth := max d.m.maxMempoolDepth mempool.length }
    ⟨{ d with mempool := mempool, m := m }, [s], []⟩
  else ⟨d, [], []⟩

/-- Takes the first submission of each agent out of the queue. -/
def drainOnePerAgent (d : Daemon N) : Daemon N × List Submission :=
  let (batch, keep) := Firsts.split agentIdOf [] d.mempool
  ({ d with mempool := keep }, batch)

/-- A snapshot, if one is due. -/
def maybeSnapshot (calls : NodeCalls N) (d : Daemon N) : Except Throw (Daemon N) :=
  if snapshotDue (calls.tickCount d.node) d.cadence then do
    let node ← calls.snapshot d.node
    pure { d with node := node, m := { d.m with snapshotsTaken := d.m.snapshotsTaken + 1 } }
  else pure d

/-- Counts a tick that was committed. -/
def committed (d : Daemon N) : Daemon N :=
  { d with m := { d.m with committedTicks := d.m.committedTicks + 1 } }

/-- The end of a fire whose batch was submitted. A snapshot that fails leaves the daemon as it is. -/
def afterSubmit (calls : NodeCalls N) (d : Daemon N) : Daemon N :=
  match maybeSnapshot calls d with
  | .ok d => d.committed
  | .error _ => d

/-- A fire of the timer. It fails where the node's `submit` does. -/
def onTick (calls : NodeCalls N) (d : Daemon N) : Except Throw (Ran N) :=
  if d.state ≠ .RUNNING then pure ⟨d, [], []⟩
  else
    let (d, batch) := d.drainOnePerAgent
    if batch = [] then pure ⟨{ d with m := { d.m with idleTicks := d.m.idleTicks + 1 } }, [], []⟩
    else do
      let node ← calls.submit d.node batch
      pure ⟨afterSubmit calls { d with node := node }, [], [batch]⟩

/-- A batch is taken out of a queue that is not empty. -/
theorem length_drain_lt {d : Daemon N} (h : d.mempool ≠ []) :
    d.drainOnePerAgent.1.mempool.length < d.mempool.length := Firsts.length_split_lt h

/-- The loop of a shutdown. -/
def flush (calls : NodeCalls N) (d : Daemon N) : Except Throw (Ran N) :=
  if _h : d.mempool = [] then pure ⟨d, [], []⟩
  else
    if d.drainOnePerAgent.2 = [] then pure ⟨d.drainOnePerAgent.1, [], []⟩
    else do
      let node ← calls.submit d.node d.drainOnePerAgent.2
      let r ← flush calls { d.drainOnePerAgent.1 with node := node }.committed
      pure { r with batches := d.drainOnePerAgent.2 :: r.batches }
termination_by d.mempool.length
decreasing_by exact length_drain_lt _h

/-- Stops the timer, submits the queue, and takes a snapshot. -/
def shutdown (calls : NodeCalls N) (d : Daemon N) : Except Throw (Ran N) := do
  let r ← flush calls { d with state := .SHUTTING_DOWN }
  let node ← calls.snapshot r.daemon.node
  let m := { r.daemon.m with snapshotsTaken := r.daemon.m.snapshotsTaken + 1 }
  pure { r with daemon := { r.daemon with node := node, state := .STOPPED, m := m } }

/-! ## Runs -/

/-- What happens to a daemon between its start and its shutdown. -/
inductive Call
  | submit (s : Submission)
  | fire

def perform (calls : NodeCalls N) (d : Daemon N) : Call → Except Throw (Ran N)
  | .submit s => pure (d.submit s)
  | .fire => d.onTick calls

/-- The calls one after another. -/
def run (calls : NodeCalls N) (d : Daemon N) : List Call → Except Throw (Ran N)
  | [] => pure ⟨d, [], []⟩
  | call :: rest => do
    let r ← d.perform calls call
    let r' ← run calls r.daemon rest
    pure ⟨r'.daemon, r.accepted ++ r'.accepted, r.batches ++ r'.batches⟩

/-- The daemon holds or has passed on what it held or has accepted: `queue` is what it held before. -/
structure Conserves (queue : List Submission) (r : Ran N) : Prop where
  perm : (r.batches.flatten ++ r.daemon.mempool).Perm (queue ++ r.accepted)
  agents : ∀ a, (r.batches.flatten ++ r.daemon.mempool).filter (agentIdOf · = a) =
    (queue ++ r.accepted).filter (agentIdOf · = a)
  single : ∀ batch ∈ r.batches, (batch.map agentIdOf).Nodup

variable {calls : NodeCalls N} {d : Daemon N} {r r' : Ran N} {s : Submission}

/-- A call that leaves the queue alone. -/
theorem Conserves.unchanged (h : r.daemon.mempool = d.mempool) (ha : r.accepted = [])
    (hb : r.batches = []) : Conserves d.mempool r := by
  constructor
  · rw [h, ha, hb, List.append_nil]
    exact .rfl
  · intro a
    rw [h, ha, hb, List.append_nil]
    rfl
  · rw [hb]
    nofun

theorem submit_conserves : Conserves d.mempool (d.submit s) := by
  unfold submit
  split
  · exact ⟨.rfl, fun a => rfl, nofun⟩
  · exact .unchanged rfl rfl rfl

/-- A batch that is taken out of the queue. -/
theorem drain_conserves (h : r.daemon.mempool = d.drainOnePerAgent.1.mempool) (ha : r.accepted = [])
    (hb : r.batches = [d.drainOnePerAgent.2]) : Conserves d.mempool r := by
  constructor
  · rw [h, ha, hb, List.append_nil, List.flatten_singleton]
    exact Firsts.split_perm [] d.mempool
  · intro a
    rw [h, ha, hb, List.append_nil, List.flatten_singleton, List.filter_append]
    exact Firsts.filter_split a [] d.mempool
  · intro batch hbatch
    rw [hb, List.mem_singleton] at hbatch
    rw [hbatch]
    exact Firsts.nodup_split [] d.mempool

theorem maybeSnapshot_mempool {d' : Daemon N} (h : maybeSnapshot calls d = .ok d') :
    d'.mempool = d.mempool := by
  unfold maybeSnapshot at h
  split at h
  · simp only [bind_eq_ok, pure_eq_ok] at h
    obtain ⟨node, -, rfl⟩ := h
    rfl
  · cases h
    rfl

theorem afterSubmit_mempool (d : Daemon N) : (afterSubmit calls d).mempool = d.mempool := by
  unfold afterSubmit
  split
  · next d' hd' =>
      have h := maybeSnapshot_mempool hd'
      exact h
  · rfl

theorem drain_ne_nil (h : d.mempool ≠ []) : d.drainOnePerAgent.2 ≠ [] := Firsts.split_fst_ne_nil h

theorem onTick_conserves (h : d.onTick calls = .ok r) : Conserves d.mempool r := by
  unfold onTick at h
  split at h
  · cases h
    exact .unchanged rfl rfl rfl
  · dsimp only at h
    split at h
    · next hnil =>
      cases h
      refine .unchanged ?_ rfl rfl
      change (Firsts.split agentIdOf [] d.mempool).2 = d.mempool
      rw [not_not.mp fun hne => drain_ne_nil hne hnil]
      rfl
    · simp only [bind_eq_ok, pure_eq_ok] at h
      obtain ⟨node, -, rfl⟩ := h
      exact drain_conserves (afterSubmit_mempool _) rfl rfl

theorem perform_conserves {call : Call} (h : d.perform calls call = .ok r) :
    Conserves d.mempool r := by
  cases call with
  | submit s =>
    cases h
    exact submit_conserves
  | fire => exact onTick_conserves h

/-- One after the other. -/
theorem Conserves.trans {queue : List Submission} (h : Conserves queue r)
    (h' : Conserves r.daemon.mempool r') :
    Conserves queue ⟨r'.daemon, r.accepted ++ r'.accepted, r.batches ++ r'.batches⟩ := by
  constructor
  · rw [List.flatten_append, List.append_assoc]
    refine (h'.perm.append_left r.batches.flatten).trans ?_
    rw [← List.append_assoc, ← List.append_assoc]
    exact h.perm.append_right r'.accepted
  · intro a
    have hfirst := h.agents a
    have hsecond := h'.agents a
    simp only [List.filter_append] at hfirst hsecond
    simp only [List.flatten_append, List.filter_append]
    rw [List.append_assoc, hsecond, ← List.append_assoc, hfirst, List.append_assoc]
  · exact List.forall_mem_append.mpr ⟨h.single, h'.single⟩

/-- A run conserves the submissions, by induction on its calls. -/
theorem run_conserves {script : List Call} (h : d.run calls script = .ok r) :
    Conserves d.mempool r := by
  induction script generalizing d r with
  | nil =>
    cases h
    exact .unchanged rfl rfl rfl
  | cons call rest ih =>
    simp only [run, bind_eq_ok, pure_eq_ok] at h
    obtain ⟨first, hfirst, last, hlast, rfl⟩ := h
    exact (perform_conserves hfirst).trans (ih hlast)

/-- What the loop of a shutdown leaves: an empty queue, after at most one batch for each submission in it. -/
structure Flushed (queue : List Submission) (r : Ran N) : Prop extends Conserves queue r where
  accepted_nil : r.accepted = []
  empty : r.daemon.mempool = []
  length_le : r.batches.length ≤ queue.length

theorem flush_flushed (h : d.flush calls = .ok r) : Flushed d.mempool r := by
  -- the induction is on the length of the queue, which each batch makes shorter
  induction hn : d.mempool.length using Nat.strong_induction_on generalizing d r with
  | _ n ih =>
    rw [flush] at h
    split at h
    · next hnil =>
      cases h
      exact ⟨.unchanged rfl rfl rfl, rfl, hnil, Nat.zero_le _⟩
    · next hne =>
      rw [if_neg (drain_ne_nil hne)] at h
      simp only [bind_eq_ok, pure_eq_ok] at h
      obtain ⟨node, -, last, hlast, rfl⟩ := h
      have hlength := length_drain_lt hne
      have hrec := ih _ (hn ▸ hlength) hlast rfl
      have hfirst : Conserves d.mempool ⟨{ d.drainOnePerAgent.1 with node := node }, [],
          [d.drainOnePerAgent.2]⟩ := drain_conserves rfl rfl rfl
      have hle := hrec.length_le
      refine ⟨hfirst.trans hrec.toConserves, hrec.accepted_nil, hrec.empty, ?_⟩
      change last.batches.length + 1 ≤ d.mempool.length
      change last.batches.length ≤ d.drainOnePerAgent.1.mempool.length at hle
      omega

/-- The loop of a shutdown returns, unless the node's `submit` fails. -/
theorem flush_returns (hsubmit : ∀ n batch, ∃ n', calls.submit n batch = .ok n') (d : Daemon N) :
    ∃ r, d.flush calls = .ok r := by
  induction hn : d.mempool.length using Nat.strong_induction_on generalizing d with
  | _ n ih =>
    rw [flush]
    split
    · exact ⟨_, rfl⟩
    · next hne =>
      rw [if_neg (drain_ne_nil hne)]
      obtain ⟨node, hnode⟩ := hsubmit d.node d.drainOnePerAgent.2
      obtain ⟨last, hlast⟩ := ih _ (hn ▸ length_drain_lt hne)
        { d.drainOnePerAgent.1 with node := node }.committed rfl
      exact ⟨_, by rw [hnode, ok_bind, hlast]; rfl⟩

end Daemon

open Daemon

theorem flush_nil {N : Type} {calls : NodeCalls N} {d : Daemon N} (h : d.mempool = []) :
    d.flush calls = .ok ⟨d, [], []⟩ := by
  rw [flush, dif_pos h]
  rfl

/-- A submission of an agent, whose CAL has no action. -/
def actionless (agent : String) (nonce : ℤ) : Submission :=
  { submitFeed .atomic with
    cal := .obj [(js "agent_id", .str (js agent)), (js "nonce", .int nonce)] }

/-- A new node at tick 0, whose namespaces are empty but for the tick. -/
def emptyNode : NodeDir × OvtNode :=
  let s : State := setIn (some (.obj (NAMESPACES.map fun n => (n, .obj [])))) [js "tick", js "current"] (.int 0)
  (⟨[], [], [], none⟩, ⟨s, 0, initIncremental s, [], [], .FRESH, 0⟩)

end ParadigmTerra
