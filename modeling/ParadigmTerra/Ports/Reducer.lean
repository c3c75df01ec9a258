import ParadigmTerra.Canonical.Strings
import ParadigmTerra.Reducer.Apply

/-!
# The reducers of the other two languages

The reducer has two more implementations, in Rust and in Go. They follow one text: they read own
members only, keep amounts as 256-bit integers and check every sum and difference. `Port` is where the
two part: the agent of an entry whose field holds no string, and the nonce after the largest one.

`Port.apply` is that text, `rust` and `go` are its two instances. A step returns a state, or stops with
a typed error or a panic.

A port keeps the members of an object in the order in which they were added. It reads them by name, or
all of them, and its canonical bytes sort them, so that nothing it computes depends on that order. The
model lists them in the order of `Json`.
-/

namespace ParadigmTerra.Ports

open Text Fallible

/-- What stops a step. -/
inductive Fault
  | err (code : ApplyErrorCode)
  | panicked
  deriving DecidableEq

/-- `ok_or_else(|| err(code))`. -/
def orErr {α : Type} (code : ApplyErrorCode) : Option α → Except Fault α
  | some a => pure a
  | none => throw (.err code)

/-! ## 256-bit integers -/

/-- An unsigned 256-bit integer, by its value. -/
abbrev U256 : Type := {n : ℤ // IsUint n}

def ZERO : U256 := ⟨0, by decide⟩

def ONE : U256 := ⟨1, by decide⟩

@[simp] theorem ONE_val : ONE.1 = 1 := rfl

/-- The integer of a value, none when it has no 256-bit value. -/
def asU256 : Json → Option U256
  | .int n => if h : IsUint n then some ⟨n, h⟩ else none
  | _ => none

def U256.checkedAdd (a b : U256) : Option U256 :=
  if h : a.1 + b.1 ≤ UINT256_MAX then some ⟨a.1 + b.1, Int.add_nonneg a.2.1 b.2.1, h⟩ else none

def U256.checkedSub (a b : U256) : Option U256 :=
  if h : b.1 ≤ a.1 then some ⟨a.1 - b.1, by have := a.2; have := b.2; unfold IsUint at *; omega⟩
  else none

def intVal (n : U256) : Json := .int n.1

/-! ## Places of the state -/

/-- An own member, none of anything but an object. -/
def get (v : Json) (k : Str) : Option Json := OrderedMap.get k v.members

def asStr : Json → Option Str
  | .str s => some s
  | _ => none

def asArray : Json → Option (List Json)
  | .arr xs => some xs
  | _ => none

/-- The value at a path, none when a segment is missing. -/
def getIn : Json → List Str → Option Json
  | v, [] => some v
  | v, k :: p => (get v k).bind fun w => getIn w p

/-- The value with the path set. -/
def setIn : Json → List Str → Json → Json
  | _, [], x => x
  | v, k :: p, x => .obj (putMember k (setIn ((get v k).getD .null) p x) v.members)

/-- The value with the key at a path deleted. -/
def deleteIn : Json → List Str → Json
  | .obj m, [k] => .obj (OrderedMap.erase k m)
  | .obj m, k :: l :: p =>
    match OrderedMap.get k m with
    | some w => .obj (putMember k (deleteIn w (l :: p)) m)
    | none => .obj m
  | v, _ => v

/-- The integer at a path, zero when there is none. -/
def u256At (state : State) (path : List Str) : U256 :=
  ((getIn state path).bind asU256).getD ZERO

/-! ## Fields of events -/

def reqStr (ev : Event) (k : String) : Except Fault Str :=
  orErr .BAD_DELTA ((get ev (js k)).bind asStr)

def reqUint (ev : Event) (k : String) : Except Fault U256 :=
  orErr .BAD_DELTA ((get ev (js k)).bind asU256)

def optUint (ev : Event) (k : String) : Except Fault U256 :=
  if (get ev (js k)).isSome then reqUint ev k else pure ZERO

/-! ## Deltas -/

/-- Non-empty strings, each above the one before it in the order of their bytes. -/
def ascending : Option Str → List Json → Bool
  | _, [] => true
  | prev, .str s :: xs =>
    s ≠ [] &&
      (match prev with | some t => s ≠ t && bytesLe (utf8Encode t) (utf8Encode s) | none => true) &&
      ascending (some s) xs
  | _, _ :: _ => false

def ownerRecordWellFormed (owners threshold : Json) : Bool :=
  match owners, threshold with
  | .arr os, .int t =>
    -- the threshold is read as a 64-bit integer
    decide (0 ≤ t) && decide (t < 2 ^ 64) && decide (1 ≤ os.length) &&
      decide (os.length ≤ MAX_OWNERS) && decide (1 ≤ t) && decide (t ≤ os.length) &&
      ascending none os
  | _, _ => false

def enforceOwnerRecord (state : State) (full : List Str) : Except Fault Unit :=
  match full with
  | [r, a, id, f] =>
    if r = js "registry" ∧ a = js "agents" ∧ (f = js "owners" ∨ f = js "threshold") then
      match getIn state [js "registry", js "agents", id, js "owners"],
          getIn state [js "registry", js "agents", id, js "threshold"] with
      | some owners, some threshold =>
        require (ownerRecordWellFormed owners threshold = true) (.err .BAD_OWNER_RECORD)
      | _, _ => pure ()
    else pure ()
  | _ => pure ()

/-- The operands of a sum or a difference. -/
def operands (state : State) (full : List Str) (d : Json) : Except Fault (U256 × U256) := do
  let cur ←
    match getIn state full with
    | some c => orErr .BAD_DELTA (asU256 c)
    | none => pure ZERO
  let val ← orErr .BAD_DELTA ((get d (js "value")).bind asU256)
  pure (cur, val)

def applyOp (state : State) (full : List Str) (d : Json) : DeltaOp → Except Fault State
  | .set => do
    let next := setIn state full ((get d (js "value")).getD .null)
    enforceOwnerRecord next full
    pure next
  | .delete => pure (deleteIn state full)
  | .add => do
    let (cur, val) ← operands state full d
    let res ← orErr .OVERFLOW (cur.checkedAdd val)
    pure (setIn state full (intVal res))
  | .sub => do
    let (cur, val) ← operands state full d
    let res ← orErr .UNDERFLOW (cur.checkedSub val)
    pure (setIn state full (intVal res))

def applyDeltaJson (state : State) (d : Json) : Except Fault State := do
  let ns ← orErr .BAD_DELTA ((get d (js "ns")).bind asStr)
  let op ← orErr .BAD_DELTA ((get d (js "op")).bind asStr)
  let path ← orErr .BAD_DELTA ((get d (js "path")).bind asArray)
  let path ← orErr .BAD_DELTA (strings path)
  let o ← orErr .BAD_DELTA (DeltaOp.ofStr? op)
  applyOp state (ns :: path) d o

/-! ## The events -/

/-- Where the two implementations part. -/
structure Port where
  /-- The agent of an entry, from its field. -/
  agent : Option Json → Except Fault Str
  /-- The nonce after a nonce. -/
  next : U256 → Except Fault ℤ

/-- The Rust implementation rejects an entry without an agent, and unwraps the checked sum. -/
def rust : Port where
  agent v := orErr .BAD_DELTA (v.bind asStr)
  next n :=
    match n.checkedAdd ONE with
    | some m => pure m.1
    | none => throw .panicked

/-- The Go implementation falls back on the empty string, and adds without a bound. -/
def go : Port where
  agent v := pure ((v.bind asStr).getD [])
  next n := pure (n.1 + 1)

def stageOf (h : Json) : Option Str := (get h (js "stage")).bind asStr

def addFees (state : State) (amount : U256) : Except Fault State := do
  let next ← orErr .OVERFLOW ((u256At state feesPath).checkedAdd amount)
  pure (setIn state feesPath (intVal next))

def recomputeBounded (state : State) : State :=
  let bounded :=
    match (getIn state [js "governance", js "params", js "capture_guard_threshold"]).bind asU256 with
    | some threshold =>
      match getIn state [js "failure_mode", js "capture_guard_counters"] with
      | some counters => counters.members.any fun e =>
        match asU256 e.2 with
        | some c => decide (threshold.1 ≤ c.1)
        | none => false
      | none => false
    | none => false
  setIn state [js "failure_mode", js "is_bounded_mode"] (.bool bounded)

/-- The balance of an address. -/
def bal (state : State) (addr : Str) : U256 := u256At state (balancePath addr)

def setBalance (state : State) (addr : Str) (n : U256) : State :=
  setIn state (balancePath addr) (intVal n)

/-- An amount paid out of a balance. -/
def debit (state : State) (addr : Str) (amount : U256) : Except Fault State := do
  let nb ← orErr .INSUFFICIENT_BALANCE ((bal state addr).checkedSub amount)
  pure (setBalance state addr nb)

/-- An amount paid into a balance. -/
def credit (state : State) (addr : Str) (amount : U256) : Except Fault State := do
  let nb ← orErr .OVERFLOW ((bal state addr).checkedAdd amount)
  pure (setBalance state addr nb)

/-- The entry of a CAL in flight, of any type. -/
def requireFlight (state : State) (ch : Str) : Except Fault Json :=
  orErr .UNKNOWN_CAL (getIn state (flightPath ch))

def requireStage (h : Json) (stage : String) : Except Fault Unit :=
  require (stageOf h = some (js stage)) (.err .BAD_STAGE)

/-- Some entry in flight belongs to the agent. -/
def agentBusy (state : State) (agent : Str) : Bool :=
  match getIn state [js "cal", js "in_flight"] with
  | some all => all.members.any fun e => (get e.2 (js "agent_id")).bind asStr = some agent
  | none => false

def calCreated (state : State) (ev : Event) : Except Fault State := do
  let ch ← reqStr ev "cal_hash"
  let agent ← reqStr ev "agent_id"
  require ((getIn state (flightPath ch)).isNone = true) (.err .DUPLICATE_CAL)
  require (agentBusy state agent = false) (.err .AGENT_BUSY)
  pure (setIn state (flightPath ch) (newEntry agent))

def calSigned (state : State) (ev : Event) : Except Fault State := do
  let ch ← reqStr ev "cal_hash"
  let h ← requireFlight state ch
  requireStage h "CREATED"
  pure (setIn state (fieldPath ch "stage") (.str (js "SIGNED")))

def calExecuted (state : State) (ev : Event) : Except Fault State := do
  let ch ← reqStr ev "cal_hash"
  let h ← requireFlight state ch
  requireStage h "VALIDATED"
  let effects ← orErr .BAD_DELTA ((get ev (js "effects")).bind asArray)
  let gas ← reqUint ev "gas_consumed_ptra"
  let s := setIn state (fieldPath ch "staged") (.arr effects)
  let s := setIn s (fieldPath ch "gas_consumed_ptra") (intVal gas)
  pure (setIn s (fieldPath ch "stage") (.str (js "EXECUTED")))

def calSettled (state : State) (ev : Event) : Except Fault State := do
  let ch ← reqStr ev "cal_hash"
  let h ← requireFlight state ch
  requireStage h "EXECUTED"
  pure (setIn state (fieldPath ch "stage") (.str (js "SETTLED")))

/-- The refund out of the escrow. -/
def settleEscrow (s : State) (agent : Str) (escrowed refund : U256) : Except Fault State := do
  let s ← if refund.1 ≠ 0 then credit s agent refund else pure s
  let retained ← orErr .UNDERFLOW (escrowed.checkedSub refund)
  addFees s retained

/-- The charge of a failure before any escrow was taken. -/
def chargeNow (s : State) (agent : Str) (charge : U256) : Except Fault State := do
  let s ← if charge.1 ≠ 0 then debit s agent charge else pure s
  addFees s charge

def ptraTransferred (state : State) (ev : Event) : Except Fault State := do
  let sender ← reqStr ev "from"
  let recipient ← reqStr ev "to"
  let amount ← reqUint ev "amount_nano_ptra"
  let s ← debit state sender amount
  credit s recipient amount

def ptraShadowInit (state : State) (ev : Event) : Except Fault State := do
  let addr ← reqStr ev "addr"
  if (getIn state (balancePath addr)).isSome then pure state
  else pure (setIn state (balancePath addr) (.int 0))

def oracleFeedSubmitted (state : State) (ev : Event) : Except Fault State := do
  let symbol ← reqStr ev "symbol"
  pure (setIn state [js "oracles", js "feeds", symbol] ((get ev (js "value")).getD .null))

def tickAdvanced (state : State) (ev : Event) : Except Fault State := do
  let next ← reqUint ev "new_tick"
  let cur ← orErr .BAD_TICK ((getIn state [js "tick", js "current"]).bind asU256)
  require (¬next.1 ≤ cur.1) (.err .BAD_TICK)
  pure (recomputeBounded (setIn state [js "tick", js "current"] (intVal next)))

section Port

variable (P : Port)

def bumpNonce (state : State) (agent : Str) : Except Fault State := do
  let next ← P.next (u256At state (noncePath agent))
  pure (setIn state (noncePath agent) (.int next))

/-- The end of a terminal event. -/
def closeFlight (s : State) (agent ch : Str) : Except Fault State := do
  let s ← bumpNonce P s agent
  pure (deleteIn s (flightPath ch))

def calValidated (state : State) (ev : Event) : Except Fault State := do
  let ch ← reqStr ev "cal_hash"
  let h ← requireFlight state ch
  requireStage h "SIGNED"
  let agent ← P.agent (get h (js "agent_id"))
  let escrow ← reqUint ev "escrow_ptra"
  let s ← debit state agent escrow
  let s := setIn s (fieldPath ch "escrowed_ptra") (intVal escrow)
  pure (setIn s (fieldPath ch "stage") (.str (js "VALIDATED")))

def calFinalized (state : State) (ev : Event) : Except Fault State := do
  let ch ← reqStr ev "cal_hash"
  let h ← requireFlight state ch
  requireStage h "SETTLED"
  let agent ← P.agent (get h (js "agent_id"))
  let escrowed := u256At state (fieldPath ch "escrowed_ptra")
  let staged := ((get h (js "staged")).bind asArray).getD []
  let refund ← optUint ev "gas_refunded_ptra"
  let s ← staged.foldlM applyDeltaJson state
  let s ← settleEscrow s agent escrowed refund
  closeFlight P s agent ch

/-- The settlement of a failure. -/
def settleFailed (state : State) (h : Json) (ch agent : Str) (ev : Event) : Except Fault State :=
  if stageOf h = some (js "CREATED") ∨ stageOf h = some (js "SIGNED") then do
    let charge ← optUint ev "fee_debited_ptra"
    chargeNow state agent charge
  else do
    let escrowed := u256At state (fieldPath ch "escrowed_ptra")
    let refund ← optUint ev "gas_refunded_ptra"
    settleEscrow state agent escrowed refund

def calFailed (state : State) (ev : Event) : Except Fault State := do
  let ch ← reqStr ev "cal_hash"
  let h ← requireFlight state ch
  let agent ← P.agent (get h (js "agent_id"))
  let s ← settleFailed state h ch agent ev
  closeFlight P s agent ch

/-- The step of one event type. -/
def step : EventType → State → Event → Except Fault State
  | .created => calCreated
  | .signed => calSigned
  | .validated => calValidated P
  | .executed => calExecuted
  | .settled => calSettled
  | .finalized => calFinalized P
  | .failed | .expired => calFailed P
  | .transferred => ptraTransferred
  | .shadow_init => ptraShadowInit
  | .feed_submitted => oracleFeedSubmitted
  | .tick_advanced => tickAdvanced

/-- Applies one event. -/
def Port.apply (state : State) (ev : Event) : Except Fault State := do
  let etype ← orErr .UNKNOWN_EVENT ((get ev (js "event_type")).bind asStr)
  let t ← orErr .UNKNOWN_EVENT (EventType.ofStr? etype)
  step P t state ev

end Port

/-! ## Reading what was written -/

/-- A write leaves the places apart from it as they were. -/
theorem getIn_setIn_of_apart {p q : List Str} (h : Apart p q) (v x : Json) :
    getIn (setIn v p x) q = getIn v q := by
  induction p generalizing q v with
  | nil => exact h.elim
  | cons k p ih =>
    cases q with
    | nil => exact h.elim
    | cons l q =>
      have hstep : getIn (setIn v (k :: p) x) (l :: q) =
          (OrderedMap.get l (putMember k (setIn ((get v k).getD .null) p x) v.members)).bind
            fun w => getIn w q := rfl
      rw [hstep, getIn]
      by_cases hkl : k = l
      · subst hkl
        have hpq : Apart p q := h.resolve_left fun hne => hne rfl
        rw [OrderedMap.get_put_self, Option.bind_some, ih hpq]
        cases get v k with
        | some w => rfl
        | none =>
          -- a missing object is written from nothing, which has no members
          cases q with
          | nil => exact ((apart_nil_right p).mp hpq).elim
          | cons m q => rfl
      · rw [OrderedMap.get_put_of_ne hkl]
        rfl

theorem u256At_setIn_of_apart {p q : List Str} (h : Apart p q) (v x : Json) :
    u256At (setIn v p x) q = u256At v q := by
  unfold u256At
  rw [getIn_setIn_of_apart h]

theorem checkedAdd_eq_some {a b c : U256} : a.checkedAdd b = some c ↔ a.1 + b.1 = c.1 := by
  unfold U256.checkedAdd
  split_ifs with h
  · rw [Option.some.injEq, Subtype.ext_iff]
  · have := c.2.2
    constructor
    · intro hn
      cases hn
    · intro hc
      omega

theorem checkedSub_eq_some {a b c : U256} : a.checkedSub b = some c ↔ a.1 - b.1 = c.1 := by
  unfold U256.checkedSub
  split_ifs with h
  · rw [Option.some.injEq, Subtype.ext_iff]
  · have := c.2.1
    constructor
    · intro hn
      cases hn
    · intro hc
      omega

@[simp] theorem orErr_eq_ok {α : Type} {code : ApplyErrorCode} {o : Option α} {a : α} :
    orErr code o = .ok a ↔ o = some a := by
  cases o with
  | none => simp [orErr]
  | some b => simp [orErr]

end ParadigmTerra.Ports
