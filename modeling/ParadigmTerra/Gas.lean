import ParadigmTerra.Canonical.Jcs
import ParadigmTerra.Dsl.Parse

/-!
# Gas

The gas units of a CAL, their price, the escrow that covers them, and the bill of each outcome. All
amounts are in nano-PTRA.

`settle_refund` says that the outcomes that settle an escrow refund at most the gas in it and charge the
rest.
-/

namespace ParadigmTerra

open Text Fallible

/-! ## Units -/

def MCP_READ : ℤ := 50
def MCP_WRITE : ℤ := 200
def INVARIANT_BASE : ℤ := 5
def STATE_RENT_PER_BYTE : ℤ := 1
def OWNER_AUTH_BASE : ℤ := 50
def ED25519_VERIFY_WEIGHT : ℤ := 100

/-- The weight of `k` owner signatures verified. -/
def ownerAuthUnits (k : ℤ) : ℤ :=
  if k ≤ 0 then 0 else OWNER_AUTH_BASE + k * ED25519_VERIFY_WEIGHT

/-- The cost of an embedded expression; `undefined` is no expression. -/
def dslCost (node : Option Json) (scope : Scope) : Except Throw ℤ :=
  match node with
  | none => parseError "MALFORMED_NODE"
  | some node => do
    let env ← openEnvelope node
    let c ← expressionCost env.expr ⟨scope, env.version⟩
    pure c

/-- The units of the call of a verb: reads are named `get_`. -/
def mcpCallUnits (verb : Str) : ℤ :=
  let part := ((splitOn 0x2E verb).drop 1).headD []
  if (js "get_").isPrefixOf part then MCP_READ else MCP_WRITE

/-- The length of the canonical form of the effects. -/
def effectsBytes (H : Host) (effects : List Json) : Except Throw ℤ := do
  let b ← canonicalizeValue H (some (.arr effects))
  pure b.length

/-- The sum of a cost over a list. -/
def sumCosts (f : Json → Except Throw ℤ) : List Json → Except Throw ℤ
  | [] => pure 0
  | x :: xs => do
    let c ← f x
    let cs ← sumCosts f xs
    pure (c + cs)

/-- The units of a step: its call, and its post-conditions. -/
def stepUnits (step : Json) : Except Throw ℤ := do
  let call := match getIn step [js "verb"] with
    | some (.str verb) => mcpCallUnits verb
    | _ => 0
  let pcs ← sumCosts (fun pc => dslCost (some pc) .post_condition)
    (listOf (getIn step [js "post_conditions"]))
  pure (call + pcs)

def staticGasUnits (cal : Json) : Except Throw ℤ := do
  let pre ← dslCost (getIn cal [js "preconditions"]) .precondition
  let steps ← sumCosts stepUnits (listOf (getIn cal [js "steps"]))
  let invs ← sumCosts (fun inv => do
    let c ← dslCost (some inv) .invariant
    pure (INVARIANT_BASE + c)) (listOf (getIn cal [js "invariants"]))
  pure (pre + steps + invs)

def gasUnits (cal : Json) (bytesWritten ownerAuth : ℤ) : Except Throw ℤ := do
  let u ← staticGasUnits cal
  pure (u + bytesWritten * STATE_RENT_PER_BYTE + ownerAuth)

/-! ## Pricing -/

def DEFAULT_GAS_PRICE : ℤ := 1000
def DEFAULT_FLAT_VALIDATION_FEE : ℤ := 100000
def GAS_LIMIT_FEE_MULTIPLIER : ℤ := 100

def gasPrice (state : Json) : ℤ :=
  asBig (getIn state [js "governance", js "gas_price_nano_ptra_per_unit"]) DEFAULT_GAS_PRICE

def toNano (units price : ℤ) : ℤ := units * price

def flatValidationFee (state : Json) : ℤ :=
  asBig (getIn state [js "governance", js "params", js "flat_validation_fee_nano_ptra"])
    DEFAULT_FLAT_VALIDATION_FEE

/-- The most that the agent escrows for gas. -/
def maxExpectedDynamicGas (cal : Json) (fee : ℤ) : ℤ :=
  asBig (getIn cal [js "gas_limit_ptra"]) (fee * GAS_LIMIT_FEE_MULTIPLIER)

def escrowRequirement (cal state : Json) : ℤ :=
  flatValidationFee state + maxExpectedDynamicGas cal (flatValidationFee state)

def balanceOf (state : Json) (agent : Str) : ℤ :=
  asBig (getIn state [js "ptra", js "balances", agent]) 0

/-- The agent covers the escrow. -/
def canValidate (cal state : Json) : Bool :=
  match getIn cal [js "agent_id"] with
  | some (.str agent) => decide (escrowRequirement cal state ≤ balanceOf state agent)
  | _ => false

/-! ## Bills -/

/-- The outcomes that are priced differently. -/
inductive BillOutcome
  | FINALIZED | FAILED_PRECOND | FAILED_NO_CHARGE | FAILED_EXEC | EXPIRED_PRE | EXPIRED_POST
  deriving DecidableEq, Repr

structure GasBill where
  feeRetained : ℤ
  dynamicGasConsumed : ℤ
  gasRefunded : ℤ
  totalAgentCharge : ℤ
  deriving DecidableEq, Repr

def GasBill.ZERO : GasBill := ⟨0, 0, 0, 0⟩

def clampSub (a b : ℤ) : ℤ := if b < a then a - b else 0

/-- The charge of a failure before the escrow: the fee, or what there is. -/
def spamCharge (cal state : Json) : ℤ :=
  let balance := match getIn cal [js "agent_id"] with
    | some (.str agent) => balanceOf state agent
    | _ => 0
  if balance < flatValidationFee state then balance else flatValidationFee state

/-- The bill of an outcome that consumed gas. -/
def consumedBill (cal state : Json) (bytesWritten ownerAuth : ℤ) : Except Throw GasBill := do
  let fee := flatValidationFee state
  let maxGas := maxExpectedDynamicGas cal fee
  let units ← gasUnits cal bytesWritten ownerAuth
  let raw := toNano units (gasPrice state)
  let consumed := if maxGas < raw then maxGas else raw
  pure ⟨fee, consumed, clampSub maxGas consumed, fee + consumed⟩

def settle (outcome : BillOutcome) (cal state : Json) (bytesWritten ownerAuth : ℤ) :
    Except Throw GasBill :=
  let fee := flatValidationFee state
  let maxGas := maxExpectedDynamicGas cal fee
  match outcome with
  | .EXPIRED_PRE | .FAILED_NO_CHARGE => pure .ZERO
  | .FAILED_PRECOND => pure ⟨spamCharge cal state, 0, 0, spamCharge cal state⟩
  | .EXPIRED_POST => pure ⟨fee, 0, maxGas, fee⟩
  | .FINALIZED | .FAILED_EXEC => consumedBill cal state bytesWritten ownerAuth

/-! ## Bounds -/

theorem ownerAuthUnits_nonneg (k : ℤ) : 0 ≤ ownerAuthUnits k := by
  unfold ownerAuthUnits OWNER_AUTH_BASE ED25519_VERIFY_WEIGHT
  split <;> omega

theorem mcpCallUnits_nonneg (verb : Str) : 0 ≤ mcpCallUnits verb := by
  simp only [mcpCallUnits, MCP_READ, MCP_WRITE]
  split <;> omega

theorem dslCost_nonneg {node : Option Json} {scope : Scope} {c : ℤ}
    (h : dslCost node scope = .ok c) : 0 ≤ c := by
  cases node with
  | none => cases h
  | some node =>
    simp only [dslCost, bind_eq_ok, pure_eq_ok] at h
    obtain ⟨env, -, n, -, rfl⟩ := h
    exact Int.natCast_nonneg n

theorem sumCosts_nonneg {f : Json → Except Throw ℤ} (hf : ∀ x c, f x = .ok c → 0 ≤ c)
    {xs : List Json} {c : ℤ} (h : sumCosts f xs = .ok c) : 0 ≤ c := by
  induction xs generalizing c with
  | nil => cases h; exact le_rfl
  | cons x xs ih =>
    simp only [sumCosts, bind_eq_ok, pure_eq_ok] at h
    obtain ⟨a, ha, b, hb, rfl⟩ := h
    exact Int.add_nonneg (hf x a ha) (ih hb)

theorem stepUnits_nonneg {step : Json} {u : ℤ} (h : stepUnits step = .ok u) : 0 ≤ u := by
  simp only [stepUnits, bind_eq_ok, pure_eq_ok] at h
  obtain ⟨pcs, hpcs, rfl⟩ := h
  refine Int.add_nonneg ?_ (sumCosts_nonneg (fun x c hc => dslCost_nonneg hc) hpcs)
  split
  · exact mcpCallUnits_nonneg _
  · exact le_rfl

/-- No part of a CAL has negative units. -/
theorem gasUnits_nonneg {cal : Json} {bytesWritten ownerAuth u : ℤ}
    (h : gasUnits cal bytesWritten ownerAuth = .ok u) (hb : 0 ≤ bytesWritten)
    (ho : 0 ≤ ownerAuth) : 0 ≤ u := by
  simp only [gasUnits, staticGasUnits, bind_eq_ok, pure_eq_ok] at h
  obtain ⟨units, ⟨pre, hpre, steps, hsteps, invs, hinvs, rfl⟩, rfl⟩ := h
  have h1 := dslCost_nonneg hpre
  have h2 := sumCosts_nonneg (fun x c hc => stepUnits_nonneg hc) hsteps
  have h3 : 0 ≤ invs := by
    refine sumCosts_nonneg (fun x c hc => ?_) hinvs
    simp only [bind_eq_ok, pure_eq_ok] at hc
    obtain ⟨d, hd, rfl⟩ := hc
    have := dslCost_nonneg hd
    unfold INVARIANT_BASE
    omega
  unfold STATE_RENT_PER_BYTE
  omega

/-- The outcomes that settle an escrow. -/
def BillOutcome.Settles (o : BillOutcome) : Prop :=
  o = .FINALIZED ∨ o = .FAILED_EXEC ∨ o = .EXPIRED_POST

section Settle

variable {o : BillOutcome} {cal state : Json} {bytesWritten ownerAuth : ℤ} {bill : GasBill}

/-- A bill that settles an escrow refunds at most the gas of the escrow. -/
theorem settle_refund (ho : o.Settles) (h : settle o cal state bytesWritten ownerAuth = .ok bill)
    (hmax : 0 ≤ maxExpectedDynamicGas cal (flatValidationFee state)) (hprice : 0 ≤ gasPrice state)
    (hbytes : 0 ≤ bytesWritten) (hauth : 0 ≤ ownerAuth) :
    0 ≤ bill.gasRefunded ∧ bill.gasRefunded ≤ maxExpectedDynamicGas cal (flatValidationFee state) ∧
      bill.totalAgentCharge = escrowRequirement cal state - bill.gasRefunded := by
  have hconsumed : consumedBill cal state bytesWritten ownerAuth = .ok bill →
      0 ≤ bill.gasRefunded ∧
      bill.gasRefunded ≤ maxExpectedDynamicGas cal (flatValidationFee state) ∧
      bill.totalAgentCharge = escrowRequirement cal state - bill.gasRefunded := by
    intro h
    simp only [consumedBill, bind_eq_ok, pure_eq_ok] at h
    obtain ⟨units, hunits, rfl⟩ := h
    have hraw : 0 ≤ toNano units (gasPrice state) :=
      Int.mul_nonneg (gasUnits_nonneg hunits hbytes hauth) hprice
    simp only [clampSub, escrowRequirement]
    split_ifs <;> omega
  rcases ho with rfl | rfl | rfl
  · exact hconsumed h
  · exact hconsumed h
  · cases h
    simp only [escrowRequirement]
    omega

/-- The charge of a failure before the escrow is covered by the balance. -/
theorem spamCharge_bounds (state : Json) {agent : Str} (hagent : getIn cal [js "agent_id"] = some (.str agent))
    (hfee : 0 ≤ flatValidationFee state) (hbal : 0 ≤ balanceOf state agent) :
    0 ≤ spamCharge cal state ∧ spamCharge cal state ≤ balanceOf state agent := by
  simp only [spamCharge, hagent]
  split <;> omega

end Settle

end ParadigmTerra
