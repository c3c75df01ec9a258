import ParadigmTerra.Canonical.Numerals
import ParadigmTerra.Reducer.Delta

/-!
# The reducer

`apply` takes a state and an event to the next state, or rejects the event with a code. Each event
type has a function of its own, and `applyEvent` dispatches on the type.

The agent of an entry in flight and its escrow are read back from the state without a check, since
only the reducer is meant to write them there; where they are no string and no integer, the code
converts the one and throws on the other.
-/

namespace ParadigmTerra

open Text OrderedMap Fallible

/-- An event, an object with an `event_type`. -/
abbrev Event := Json

/-- The event types that the reducer knows. -/
inductive EventType
  | created | signed | validated | executed | settled | finalized | failed | expired
  | transferred | shadow_init | feed_submitted | tick_advanced
  deriving DecidableEq, Repr

/-- The text of an event type. -/
def EventType.name : EventType → Str
  | created => js "cal.created"
  | signed => js "cal.signed"
  | validated => js "cal.validated"
  | executed => js "cal.executed"
  | settled => js "cal.settled"
  | finalized => js "cal.finalized"
  | failed => js "cal.failed"
  | expired => js "cal.expired"
  | transferred => js "ptra.transferred"
  | shadow_init => js "ptra.shadow_init"
  | feed_submitted => js "oracle.feed_submitted"
  | tick_advanced => js "tick.advanced"

/-- Every event type. -/
def EventType.all : List EventType :=
  [created, signed, validated, executed, settled, finalized, failed, expired, transferred,
    shadow_init, feed_submitted, tick_advanced]

/-- The event type that a string names. -/
def EventType.ofStr? (s : Str) : Option EventType := all.find? fun t => t.name = s

@[simp] theorem EventType.ofStr?_name (t : EventType) : ofStr? t.name = some t := by
  cases t <;> simp [ofStr?, all, name]

/-- The result of applying an event. -/
inductive ApplyResult
  | ok (state : State)
  | rejected (code : ApplyErrorCode)

/-! ## Fields of events -/

def reqStr (ev : Event) (k : String) : Except Throw Str :=
  match ev.read (js k) with
  | some (.str s) => pure s
  | _ => throw (.apply .BAD_DELTA)

/-- A uint256. -/
def IsUint (n : ℤ) : Prop := 0 ≤ n ∧ n ≤ UINT256_MAX

instance (n : ℤ) : Decidable (IsUint n) := by unfold IsUint; infer_instance

def reqUint (ev : Event) (k : String) : Except Throw ℤ :=
  match ev.read (js k) with
  | some (.int n) => if IsUint n then pure n else throw (.apply .BAD_DELTA)
  | _ => throw (.apply .BAD_DELTA)

def optUint (ev : Event) (k : String) : Except Throw ℤ :=
  if (ev.read (js k)).isSome then reqUint ev k else pure 0

theorem reqStr_eq_ok {ev : Event} {k : String} {s : Str} (h : reqStr ev k = .ok s) :
    ev.read (js k) = some (.str s) := by
  unfold reqStr at h
  split at h
  · next heq => rw [heq, pure_eq_ok.mp h]
  · cases h

theorem reqUint_eq_ok {ev : Event} {k : String} {n : ℤ} (h : reqUint ev k = .ok n) :
    ev.read (js k) = some (.int n) ∧ IsUint n := by
  unfold reqUint at h
  split at h
  · next m heq =>
    split at h
    · next hm => exact pure_eq_ok.mp h ▸ ⟨heq, hm⟩
    · cases h
  · cases h

theorem optUint_eq_ok {ev : Event} {k : String} {n : ℤ} (h : optUint ev k = .ok n) : IsUint n := by
  unfold optUint at h
  split at h
  · exact (reqUint_eq_ok h).2
  · exact pure_eq_ok.mp h ▸ ⟨le_rfl, by decide⟩

/-! ## Places of the state -/

/-- The path of a balance. -/
abbrev balancePath (addr : Str) : List Str := [js "ptra", js "balances", addr]

/-- The path of a nonce. -/
abbrev noncePath (agent : Str) : List Str := [js "cal", js "nonces", agent]

/-- The path of an entry in flight. -/
abbrev flightPath (ch : Str) : List Str := [js "cal", js "in_flight", ch]

/-- The path of a field of an entry in flight. -/
abbrev fieldPath (ch : Str) (f : String) : List Str := [js "cal", js "in_flight", ch, js f]

/-- The path of the fees collected. -/
abbrev feesPath : List Str := [js "treasury", js "collected_fees_window"]

/-- The entry of a CAL in flight. -/
def inFlight (state : State) (ch : Str) : Option Json :=
  match getIn state (flightPath ch) with
  | some h => if h.isPlainObject then some h else none
  | none => none

def requireFlight (state : State) (ch : Str) : Except Throw Json :=
  match inFlight state ch with
  | some h => pure h
  | none => throw (.apply .UNKNOWN_CAL)

/-- The balance of an address. -/
def bal (state : State) (addr : Str) : ℤ := asBig (getIn state (balancePath addr)) 0

def bumpNonce (state : State) (agent : Str) : State :=
  setIn (some state) (noncePath agent) (.int (asBig (getIn state (noncePath agent)) 0 + 1))

def addFees (state : State) (amount : ℤ) : State :=
  setIn (some state) feesPath (.int (asBig (getIn state feesPath) 0 + amount))

def setBalance (state : State) (addr : Str) (n : ℤ) : State :=
  setIn (some state) (balancePath addr) (.int n)

/-- The stage check of an entry. The rejection prints the stage that it found. -/
def requireStage (h : Json) (stage : String) : Except Throw Unit :=
  if isStr (h.read (js "stage")) (js stage) then pure ()
  else do
    let _ ← stringOfOpt (h.read (js "stage"))
    throw (.apply .BAD_STAGE)

/-- The agent of an entry, as a key. -/
def agentKey (h : Json) : Except Throw Str := stringOfOpt (h.read (js "agent_id"))

/-- The elements that `for (const d of v)` visits. -/
def iterate : Option Json → Except Throw (List Json)
  | some (.arr xs) => pure xs
  | some (.str s) => pure ((codePoints s).map fun c => .str (pointUnits c))
  | _ => throw .typeError

/-- The Bounded Mode flag, recomputed from the counters. -/
def recomputeBounded (state : State) : State :=
  let bounded :=
    match getIn state [js "governance", js "params", js "capture_guard_threshold"] with
    | some (.int threshold) =>
      match getIn state [js "failure_mode", js "capture_guard_counters"] with
      | some counters =>
        counters.isPlainObject && counters.members.any fun e =>
          match e.2 with
          | .int v => decide (threshold ≤ v)
          | _ => false
      | none => false
    | _ => false
  setIn (some state) [js "failure_mode", js "is_bounded_mode"] (.bool bounded)

/-! ## The events -/

/-- Whether an entry in flight belongs to the agent. -/
def belongsTo (agent : Str) (h : Json) : Bool :=
  h.isPlainObject && isStr (h.read (js "agent_id")) agent

/-- The entry of a CAL just created. -/
def newEntry (agent : Str) : Json :=
  .obj [(js "agent_id", .str agent), (js "stage", .str (js "CREATED")), (js "escrowed_ptra", .int 0),
    (js "gas_consumed_ptra", .int 0), (js "staged", .arr [])]

/-- Some entry in flight belongs to the agent. -/
def agentBusy (state : State) (agent : Str) : Bool :=
  match getIn state [js "cal", js "in_flight"] with
  | some all => all.isPlainObject && all.members.any fun e => belongsTo agent e.2
  | none => false

def calCreated (state : State) (ev : Event) : Except Throw State := do
  let ch ← reqStr ev "cal_hash"
  let agent ← reqStr ev "agent_id"
  require ((inFlight state ch).isNone = true) (.apply .DUPLICATE_CAL)
  require (agentBusy state agent = false) (.apply .AGENT_BUSY)
  pure (setIn (some state) (flightPath ch) (newEntry agent))

def calSigned (state : State) (ev : Event) : Except Throw State := do
  let ch ← reqStr ev "cal_hash"
  let h ← requireFlight state ch
  requireStage h "CREATED"
  pure (setIn (some state) (fieldPath ch "stage") (.str (js "SIGNED")))

/-- The upfront deposit: the agent escrows the fee and the most that the gas can cost. -/
def calValidated (state : State) (ev : Event) : Except Throw State := do
  let ch ← reqStr ev "cal_hash"
  let h ← requireFlight state ch
  requireStage h "SIGNED"
  let escrow ← reqUint ev "escrow_ptra"
  let agent ← agentKey h
  require (¬bal state agent < escrow) (.apply .INSUFFICIENT_BALANCE)
  let s := setBalance state agent (bal state agent - escrow)
  let s := setIn (some s) (fieldPath ch "escrowed_ptra") (.int escrow)
  pure (setIn (some s) (fieldPath ch "stage") (.str (js "VALIDATED")))

def calExecuted (state : State) (ev : Event) : Except Throw State := do
  let ch ← reqStr ev "cal_hash"
  let h ← requireFlight state ch
  requireStage h "VALIDATED"
  match ev.read (js "effects") with
  | some (.arr effects) =>
    let s := setIn (some state) (fieldPath ch "staged") (.arr effects)
    let gas ← reqUint ev "gas_consumed_ptra"
    let s := setIn (some s) (fieldPath ch "gas_consumed_ptra") (.int gas)
    pure (setIn (some s) (fieldPath ch "stage") (.str (js "EXECUTED")))
  | _ => throw (.apply .BAD_DELTA)

def calSettled (state : State) (ev : Event) : Except Throw State := do
  let ch ← reqStr ev "cal_hash"
  let h ← requireFlight state ch
  requireStage h "EXECUTED"
  pure (setIn (some state) (fieldPath ch "stage") (.str (js "SETTLED")))

/-- The refund to the agent. -/
def refundAgent (s : State) (h : Json) (refund : ℤ) : Except Throw State :=
  if 0 < refund then do
    let agent ← agentKey h
    pure (setBalance s agent (bal s agent + refund))
  else pure s

/-- `refund > v`: the other side is compared as a number, or as the integer that its string spells. -/
def exceeds (refund : ℤ) : Option Json → Except Throw Bool
  | none => pure false
  | some .null => pure (decide (0 < refund))
  | some (.bool b) => pure (decide ((if b then 1 else 0) < refund))
  | some (.int n) => pure (decide (n < refund))
  | some v => do
    let s ← stringOf v
    match bigIntOfStr s with
    | .ok n => pure (decide (n < refund))
    | .error _ => pure false

/-- The refund out of the escrow; the treasury keeps the rest. -/
def settleEscrow (s : State) (h : Json) (refund : ℤ) : Except Throw State := do
  let s ← refundAgent s h refund
  match h.read (js "escrowed_ptra") with
  | some (.int escrowed) =>
    require (¬escrowed < refund) (.apply .UNDERFLOW)
    pure (addFees s (escrowed - refund))
  -- an escrow of another type may compare as less; else the subtraction throws
  | v => do
    let greater ← exceeds refund v
    require (greater = false) (.apply .UNDERFLOW)
    throw .typeError

/-- The end of a terminal event: the nonce is used up and the entry is gone. -/
def closeFlight (s : State) (h : Json) (ch : Str) : Except Throw State := do
  let agent ← agentKey h
  pure (deleteIn (some (bumpNonce s agent)) (flightPath ch))

def calFinalized (state : State) (ev : Event) : Except Throw State := do
  let ch ← reqStr ev "cal_hash"
  let h ← requireFlight state ch
  requireStage h "SETTLED"
  let refund ← optUint ev "gas_refunded_ptra"
  let staged ← iterate (h.read (js "staged"))
  let s ← staged.foldlM applyDeltaJson state
  let s ← settleEscrow s h refund
  closeFlight s h ch

/-- The charge of a failure before any escrow was taken. -/
def chargeNow (state : State) (h : Json) (charge : ℤ) : Except Throw State := do
  let agent ← agentKey h
  require (¬bal state agent < charge) (.apply .INSUFFICIENT_BALANCE)
  let s := if 0 < charge then setBalance state agent (bal state agent - charge) else state
  pure (addFees s charge)

/-- The settlement of a failure: before any escrow was taken the charge that the event carries,
after it the refund. -/
def settleFailed (state : State) (h : Json) (ev : Event) : Except Throw State :=
  if isStr (h.read (js "stage")) (js "CREATED") || isStr (h.read (js "stage")) (js "SIGNED") then do
    let charge ← optUint ev "fee_debited_ptra"
    chargeNow state h charge
  else do
    let refund ← optUint ev "gas_refunded_ptra"
    settleEscrow state h refund

/-- `cal.failed` and `cal.expired`. The staged effects are dropped. -/
def calFailed (state : State) (ev : Event) : Except Throw State := do
  let ch ← reqStr ev "cal_hash"
  let h ← requireFlight state ch
  let s ← settleFailed state h ev
  closeFlight s h ch

def ptraTransferred (state : State) (ev : Event) : Except Throw State := do
  let sender ← reqStr ev "from"
  let recipient ← reqStr ev "to"
  let amount ← reqUint ev "amount_nano_ptra"
  require (¬bal state sender < amount) (.apply .INSUFFICIENT_BALANCE)
  let s := setBalance state sender (bal state sender - amount)
  pure (setBalance s recipient (bal s recipient + amount))

def ptraShadowInit (state : State) (ev : Event) : Except Throw State := do
  let addr ← reqStr ev "addr"
  if (getIn state (balancePath addr)).isSome then pure state
  else pure (setBalance state addr 0)

def oracleFeedSubmitted (state : State) (ev : Event) : Except Throw State := do
  let symbol ← reqStr ev "symbol"
  pure (setIn (some state) [js "oracles", js "feeds", symbol]
    (orElse (ev.read (js "value")) .null))

def tickAdvanced (state : State) (ev : Event) : Except Throw State := do
  let next ← reqUint ev "new_tick"
  match getIn state [js "tick", js "current"] with
  | some (.int cur) =>
    require (¬next ≤ cur) (.apply .BAD_TICK)
    pure (recomputeBounded (setIn (some state) [js "tick", js "current"] (.int next)))
  | v => do
    -- the rejection prints what it found
    let _ ← stringOfOpt v
    throw (.apply .BAD_TICK)

/-- The step of one event type. -/
def EventType.step : EventType → State → Event → Except Throw State
  | created => calCreated
  | signed => calSigned
  | validated => calValidated
  | executed => calExecuted
  | settled => calSettled
  | finalized => calFinalized
  | failed | expired => calFailed
  | transferred => ptraTransferred
  | shadow_init => ptraShadowInit
  | feed_submitted => oracleFeedSubmitted
  | tick_advanced => tickAdvanced

def applyEvent (state : State) (ev : Event) : Except Throw State :=
  match ev.read (js "event_type") with
  | some (.str type) =>
    match EventType.ofStr? type with
    | some t => t.step state ev
    | none => throw (.apply .UNKNOWN_EVENT)
  | _ => throw (.apply .UNKNOWN_EVENT)

/-- Applies one event. A typed error rejects it; anything else that is thrown is thrown on. -/
def apply (state : State) (ev : Event) : Except Throw ApplyResult :=
  match applyEvent state ev with
  | .ok s => .ok (.ok s)
  | .error (.apply code) => .ok (.rejected code)
  | .error e => .error e

/-- The state accepts the event and becomes `s'`. -/
def Accepts (s : State) (ev : Event) (s' : State) : Prop := apply s ev = .ok (.ok s')

theorem accepts_iff {s s' : State} {ev : Event} : Accepts s ev s' ↔ applyEvent s ev = .ok s' := by
  unfold Accepts apply
  constructor
  · intro h
    split at h
    · next heq => cases h; exact heq
    all_goals cases h
  · intro h
    rw [h]

/-- An event is accepted into one state. -/
theorem Accepts.unique {s t t' : State} {ev : Event} (h : Accepts s ev t) (h' : Accepts s ev t') :
    t = t' := by
  have := h.symm.trans h'
  cases this
  rfl

theorem EventType.name_of_ofStr? {s : Str} {t : EventType} (h : ofStr? s = some t) :
    s = t.name := by
  have := List.find?_some h
  exact (of_decide_eq_true this).symm

/-- An accepted event has a known type, and its step gives the next state. -/
theorem accepts_step {s s' : State} {ev : Event} (h : Accepts s ev s') :
    ∃ t : EventType, ev.read (js "event_type") = some (.str t.name) ∧ t.step s ev = .ok s' := by
  rw [accepts_iff, applyEvent] at h
  split at h
  · next type htype =>
    split at h
    · next t ht => exact ⟨t, by rw [htype, EventType.name_of_ofStr? ht], h⟩
    · cases h
  · cases h

/-- A run: each event is accepted, and `C` holds of it and of the state that it finds. -/
inductive Run (C : State → Event → Prop) : State → List Event → State → Prop
  | nil (s : State) : Run C s [] s
  | cons {s t u : State} {ev : Event} {evs : List Event} :
    C s ev → Accepts s ev t → Run C t evs u → Run C s (ev :: evs) u

/-- The first step of a run, and the run after it. -/
theorem run_cons {C : State → Event → Prop} {s u : State} {ev : Event} {evs : List Event}
    (h : Run C s (ev :: evs) u) : ∃ t, C s ev ∧ Accepts s ev t ∧ Run C t evs u := by
  cases h with
  | cons hC hacc hrest => exact ⟨_, hC, hacc, hrest⟩

/-- The state accepts the events one after another. -/
abbrev AcceptsAll : State → List Event → State → Prop := Run fun _ _ => True

/-- What every step of a run preserves holds after the run. -/
theorem Run.invariant {C : State → Event → Prop} {P : State → Prop} {s s' : State}
    {evs : List Event} (step : ∀ s ev t, C s ev → Accepts s ev t → P s → P t)
    (h : Run C s evs s') (hs : P s) : P s' := by
  induction h with
  | nil => exact hs
  | cons hC hacc _ ih => exact ih (step _ _ _ hC hacc hs)

/-- The two halves of a run. -/
theorem Run.of_append {C : State → Event → Prop} {s u : State} {evs evs' : List Event}
    (h : Run C s (evs ++ evs') u) : ∃ t, Run C s evs t ∧ Run C t evs' u := by
  induction evs generalizing s with
  | nil => exact ⟨s, .nil s, h⟩
  | cons ev evs ih =>
    obtain ⟨s', hC, hacc, hrest⟩ := run_cons h
    obtain ⟨t, hevs, hevs'⟩ := ih hrest
    exact ⟨t, .cons hC hacc hevs, hevs'⟩

/-- What holds at each step holds of each event of the run. -/
theorem Run.forall_mem {C : State → Event → Prop} {Q : Event → Prop} (hQ : ∀ s ev, C s ev → Q ev)
    {s t : State} {evs : List Event} (h : Run C s evs t) : ∀ ev ∈ evs, Q ev := by
  induction h with
  | nil => simp
  | cons hC _ _ ih => exact List.forall_mem_cons.mpr ⟨hQ _ _ hC, ih⟩

theorem Run.mono {C D : State → Event → Prop} (hCD : ∀ s ev, C s ev → D s ev) {s s' : State}
    {evs : List Event} (h : Run C s evs s') : Run D s evs s' := by
  induction h with
  | nil s => exact .nil s
  | cons hC hacc _ ih => exact .cons (hCD _ _ hC) hacc ih

/-- The events of a run meet `D` in every state. -/
theorem Run.of_forall {C D : State → Event → Prop} {s t : State} {evs : List Event}
    (h : Run C s evs t) (hD : ∀ ev ∈ evs, ∀ s, D s ev) : Run D s evs t := by
  induction h with
  | nil s => exact .nil s
  | cons _ hacc _ ih =>
    obtain ⟨hev, hrest⟩ := List.forall_mem_cons.mp hD
    exact .cons (hev _) hacc (ih hrest)

/-- A list of events leads to one state. -/
theorem Run.unique {C D : State → Event → Prop} {s t t' : State} {evs : List Event}
    (h : Run C s evs t) (h' : Run D s evs t') : t = t' := by
  induction h generalizing t' with
  | nil =>
    cases h'
    rfl
  | cons _ hacc _ ih =>
    obtain ⟨u, -, hacc', hrest⟩ := run_cons h'
    cases hacc.unique hacc'
    exact ih hrest

/-- The deltas that an event commits: the staged effects of the CAL that it finalizes. -/
def committed (s : State) (ev : Event) : List Json :=
  match ev.read (js "event_type"), ev.read (js "cal_hash") with
  | some (.str type), some (.str ch) =>
    if type = EventType.finalized.name then
      match inFlight s ch with
      | some h => (iterate (h.read (js "staged"))).toOption.getD []
      | none => []
    else []
  | _, _ => []

/-- A delta writes to none of the namespaces. -/
def AvoidsNamespaces (names : List Str) (d : Json) : Prop :=
  ∀ n ∈ names, isStr (d.read (js "ns")) n = false

instance (names : List Str) (d : Json) : Decidable (AvoidsNamespaces names d) := by
  unfold AvoidsNamespaces; infer_instance

theorem AvoidsNamespaces.ne {names : List Str} {d : Json} (h : AvoidsNamespaces names d) {n : Str}
    (hn : n ∈ names) : d.read (js "ns") ≠ some (.str n) := by
  rw [ne_eq, ← isStr_iff, h n hn]
  simp

/-- The state after a list of events, if each is accepted and `C` holds at it. -/
def checkRun (C : State → Event → Prop) [∀ s ev, Decidable (C s ev)] :
    State → List Event → Option State
  | s, [] => some s
  | s, ev :: evs =>
    if C s ev then
      match apply s ev with
      | .ok (.ok t) => checkRun C t evs
      | _ => none
    else none

/-- The check of a run finds a run. -/
theorem checkRun_run {C : State → Event → Prop} [∀ s ev, Decidable (C s ev)] {s t : State}
    {evs : List Event} (h : checkRun C s evs = some t) : Run C s evs t := by
  induction evs generalizing s with
  | nil =>
    cases h
    exact .nil _
  | cons ev evs ih =>
    rw [checkRun] at h
    split at h
    · next hC =>
      split at h
      · next u hu => exact .cons hC hu (ih h)
      · cases h
    · cases h

/-- The events of a CAL of the agent `A` that commits the deltas. -/
def commitEvents (deltas : List Json) : List Event :=
  let ev (type : EventType) (rest : List (Str × Json)) : Event :=
    .obj ((js "event_type", .str type.name) :: (js "cal_hash", .str (js "H")) :: rest)
  [ev .created [(js "agent_id", .str (js "A"))], ev .signed [],
    ev .validated [(js "escrow_ptra", .int 0)],
    ev .executed [(js "effects", .arr deltas), (js "gas_consumed_ptra", .int 0)], ev .settled [],
    ev .finalized []]

/-- A delta that sets a member of a namespace to an integer. -/
def settingDelta (ns : Str) (path : List Str) (n : ℤ) : Json :=
  .obj [(js "ns", .str ns), (js "op", .str (js "set")), (js "path", .arr (path.map .str)),
    (js "value", .int n)]

end ParadigmTerra
