import ParadigmTerra.Node.JsonText
import ParadigmTerra.Validator.Capability

/-!
# Publication of a CAL to the wallet

`canonicalToInner` projects the steps of a CAL onto messages of the wallet, and `irToCell` serializes
them. The body of a message is carried as a value whose member `kind` says what it is: for a token
transfer the projection builds it, and for `wallet.send_ton` it copies what the step has in its params.

`publication_keeps_effects` says that the messages are of the kinds of their steps' verbs exactly if no
`wallet.send_ton` step names the kind of a token transfer in its body.

The cell library is a parameter, with the round trip of its list of messages.
-/

namespace ParadigmTerra

open Text Fallible

/-- What the publication can throw: an error of the projection or of the serializer, what the cell
library throws, or what the language does. -/
inductive W5Throw
  | codec (code : String) (detail : Str)
  | boc (code : String) (detail : Str)
  | ton
  | host (t : Throw)

def codecError {α : Type} (code : String) (detail : Str) : Except W5Throw α :=
  throw (.codec code detail)

/-! ## The projection -/

def SEND_MODE_EXACT : ℕ := 1
def CARRY_REMAINING : ℕ := 64
def CARRY_ALL : ℕ := 128
def JETTON_TRANSFER_OP : ℕ := 0x0f8a7ea5
def JETTON_TRANSFER_TON : ℤ := 50000000
def NFT_TRANSFER_OP : ℕ := 0x5fcc3d14
def NFT_TRANSFER_TON : ℤ := 50000000
def U64_MAX : ℤ := 2 ^ 64 - 1

/-- A message that the wallet sends, with the master of the jetton whose wallet is its destination. -/
structure OutMessage where
  dest : Str
  valueNano : ℤ
  body : Json
  jettonMaster : Option Str

structure SendAction where
  mode : ℕ
  msg : OutMessage

/-- The request to the wallet. No extended action is ever made. -/
structure InnerRequest where
  outActions : List SendAction
  extended : List Empty

/-- What a verb does at the wallet. -/
inductive VerbClass
  | send | config | offchain | unknown
  deriving DecidableEq

def SEND_VERBS : List Str := [
  js "wallet.send_ton", js "wallet.send_jetton", js "wallet.send_nft",
  js "treasury.transfer", js "treasury.distribute_rewards", js "treasury.buyback_burn",
  js "governance.propose_amendment", js "governance.vote", js "governance.vote_as_agent",
  js "governance.finalize_amendment",
  js "oracles.submit_feed", js "oracles.slash", js "oracles.force_update",
  js "ptra.stake", js "ptra.unstake", js "ptra.claim_rewards",
  js "agent.register", js "agent.migrate", js "agent.freeze", js "agent.unfreeze",
  js "capability.update", js "capability.temporal_boost_request",
  js "capability.temporal_boost_release",
  js "failure_mode.emergency_withdraw"]

def CONFIG_VERBS : List Str := [js "failure_mode.enter_bounded", js "failure_mode.exit_bounded"]

def OFFCHAIN_VERBS : List Str := [js "cal.cancel"]

def V0_1_0_ENCODABLE : List Str :=
  [js "wallet.send_ton", js "wallet.send_jetton", js "wallet.send_nft"]

def classifyVerb (verb : Str) : VerbClass :=
  let rest := ((splitOn 0x2E verb).drop 1).headD []
  if (js "get_").isPrefixOf rest then .offchain
  else if verb ∈ OFFCHAIN_VERBS then .offchain
  else if verb ∈ CONFIG_VERBS then .config
  else if verb ∈ SEND_VERBS then .send
  else .unknown

/-- An object, an empty one in the place of anything else. -/
def asObj (v : Option Json) : Json :=
  match v with
  | some v => if v.isPlainObject then v else .obj []
  | none => .obj []

/-- `v ?? null`. -/
def orNull (v : Option Json) : Json := v.getD .null

/-- A text in the params that must not be empty. -/
def addressParam (p : Json) (k detail : String) : Except W5Throw Str :=
  match p.read (js k) with
  | some (.str s) => if s = [] then codecError "W5_MALFORMED_PARAMS" (js detail) else pure s
  | _ => codecError "W5_MALFORMED_PARAMS" (js detail)

/-- An integer in the params. -/
def integerParam (p : Json) (k detail : String) : Except W5Throw ℤ :=
  match p.read (js k) with
  | some (.int n) => pure n
  | _ => codecError "W5_MALFORMED_PARAMS" (js detail)

def checkParam (c : Prop) [Decidable c] (detail : String) : Except W5Throw Unit :=
  require c (.codec "W5_MALFORMED_PARAMS" (js detail))

/-- The destination of what is left of a transfer's value: the agent unless there is another. -/
def responseDestinationOf (p : Json) (agent : Str) : Str :=
  match p.read (js "response_destination") with
  | some (.str s) => if s = [] then agent else s
  | _ => agent

def encodeSendTon (params : Option Json) : Except W5Throw SendAction := do
  let p := asObj params
  let dest ← addressParam p "to" "wallet.send_ton requires params.to (address string)"
  let amount ← integerParam p "amount_nano"
    "wallet.send_ton requires params.amount_nano (integer)"
  checkParam (0 ≤ amount) "amount_nano must be non-negative"
  pure ⟨SEND_MODE_EXACT, ⟨dest, amount, orNull (p.read (js "body")), none⟩⟩

def encodeSendJetton (params : Option Json) (agent : Str) : Except W5Throw SendAction := do
  let p := asObj params
  let jettonMaster ← addressParam p "jetton_master"
    "wallet.send_jetton requires params.jetton_master (address string)"
  let recipient ← addressParam p "recipient"
    "wallet.send_jetton requires params.recipient (address string)"
  let amount ← integerParam p "amount" "wallet.send_jetton requires params.amount (integer)"
  checkParam (0 < amount) "jetton amount must be > 0"
  let queryId ← integerParam p "query_id"
    "wallet.send_jetton requires params.query_id (explicit integer — never auto-generated)"
  checkParam (0 ≤ queryId ∧ queryId ≤ U64_MAX) "query_id must be a uint64"
  let forwardTonAmount := asBig (p.read (js "forward_ton_amount")) 0
  checkParam (0 ≤ forwardTonAmount) "forward_ton_amount must be non-negative"
  let valueNano := forwardTonAmount + JETTON_TRANSFER_TON
  checkParam (forwardTonAmount < valueNano) "forward_ton_amount must be < the attached value"
  let body : Json := .obj [(js "kind", .str (js "jetton_transfer")),
    (js "op", .int JETTON_TRANSFER_OP), (js "query_id", .int queryId), (js "amount", .int amount),
    (js "destination", .str recipient),
    (js "response_destination", .str (responseDestinationOf p agent)),
    (js "custom_payload", .null), (js "forward_ton_amount", .int forwardTonAmount),
    (js "forward_payload", orNull (p.read (js "forward_payload")))]
  pure ⟨SEND_MODE_EXACT, ⟨[], valueNano, body, some jettonMaster⟩⟩

def encodeSendNft (params : Option Json) (agent : Str) : Except W5Throw SendAction := do
  let p := asObj params
  let nftItem ← addressParam p "nft_item"
    "wallet.send_nft requires params.nft_item (address string)"
  let newOwner ← addressParam p "new_owner"
    "wallet.send_nft requires params.new_owner (address string)"
  let queryId ← integerParam p "query_id"
    "wallet.send_nft requires params.query_id (explicit integer — never auto-generated)"
  checkParam (0 ≤ queryId ∧ queryId ≤ U64_MAX) "query_id must be a uint64"
  let forwardAmount := asBig (p.read (js "forward_amount")) 0
  checkParam (0 ≤ forwardAmount) "forward_amount must be non-negative"
  let valueNano := forwardAmount + NFT_TRANSFER_TON
  checkParam (forwardAmount < valueNano) "forward_amount must be < the attached value"
  let body : Json := .obj [(js "kind", .str (js "nft_transfer")), (js "op", .int NFT_TRANSFER_OP),
    (js "query_id", .int queryId), (js "new_owner", .str newOwner),
    (js "response_destination", .str (responseDestinationOf p agent)),
    (js "custom_payload", .null), (js "forward_amount", .int forwardAmount),
    (js "forward_payload", orNull (p.read (js "forward_payload")))]
  pure ⟨SEND_MODE_EXACT, ⟨nftItem, valueNano, body, none⟩⟩

/-- The verb of a step, empty if there is none. -/
def verbOf (step : Json) : Str := asStr ((asObj (some step)).read (js "verb"))

def paramsOf (step : Json) : Option Json := (asObj (some step)).read (js "params")

/-- The action of a step whose verb sends a message. -/
def encodeStep (agent : Str) (i : ℕ) (step : Json) : Except W5Throw SendAction :=
  let verb := verbOf step
  if verb ∉ V0_1_0_ENCODABLE then
    codecError "W5_UNIMPLEMENTED_VERB" (js "step " ++ decimalNat i ++ js " verb " ++ verb ++
      js " is a message verb but has no body encoder (have: wallet.send_ton, wallet.send_jetton, wallet.send_nft)")
  else if verb = js "wallet.send_jetton" then encodeSendJetton (paramsOf step) agent
  else if verb = js "wallet.send_nft" then encodeSendNft (paramsOf step) agent
  else encodeSendTon (paramsOf step)

/-- The actions of the steps, from the index `i` on. -/
def projectSteps (agent : Str) : ℕ → List Json → Except W5Throw (List SendAction)
  | _, [] => pure []
  | i, step :: steps =>
    match classifyVerb (verbOf step) with
    | .offchain => projectSteps agent (i + 1) steps
    | .config => codecError "W5_EXTENDED_NOT_IN_V0_1_0" (js "step " ++ decimalNat i ++ js " verb " ++
        verbOf step ++ js " maps to ExtendedActions, not implemented in v0.1.0")
    | .unknown => codecError "W5_UNKNOWN_VERB" (js "step " ++ decimalNat i ++ js " verb " ++
        JsonText.quote (verbOf step) ++ js " is not a §2.3 registered verb")
    | .send => do
      let action ← encodeStep agent i step
      let actions ← projectSteps agent (i + 1) steps
      pure (action :: actions)

def canonicalToInner (cal : Json) : Except W5Throw InnerRequest := do
  let c := asObj (some cal)
  let outActions ← projectSteps (asStr (c.read (js "agent_id"))) 0 (listOf (c.read (js "steps")))
  require (outActions.length ≤ 255) (.codec "W5_TOO_MANY_ACTIONS"
    (decimalNat outActions.length ++ js " actions exceed the W5 OutList limit of 255"))
  pure ⟨outActions, []⟩

/-! ## The serializer -/

/-- A cell: its bits and the cells it refers to. -/
inductive Cell
  | mk (bits : List Bool) (refs : List Cell)

def Cell.bits : Cell → List Bool
  | .mk bits _ => bits

def Cell.refs : Cell → List Cell
  | .mk _ refs => refs

/-- A number in `w` bits, the most significant first. -/
def uintBits (n w : ℕ) : List Bool := (List.range w).reverse.map n.testBit

/-- The cell of what a builder has stored. It has at most 1023 bits and four references. -/
def endCell (bits : List Bool) (refs : List Cell) : Except W5Throw Cell := do
  require (bits.length ≤ 1023 ∧ refs.length ≤ 4) .ton
  pure (.mk bits refs)

/-- A message of the serialized list. -/
structure SendMsg (Address : Type) where
  mode : ℕ
  dest : Address
  value : ℤ
  bounce : Bool
  body : Cell

/-- The cell library: what it parses, what its builder stores, and the list of messages, which it loads
as it was stored. -/
structure TonCore where
  Address : Type
  OutList : Type
  parseRaw : Option Json → Except W5Throw Address
  storeAddress : Address → List Bool
  storeUint : Option Json → ℕ → Except W5Throw (List Bool)
  storeCoins : Option Json → Except W5Throw (List Bool)
  storeStringTail : Option Json → Except W5Throw (List Bool × List Cell)
  storeOutList : List (SendMsg Address) → Except W5Throw OutList
  loadOutList : OutList → Except W5Throw (List (SendMsg Address))
  storeUint_nat : ∀ n w, n < 2 ^ w → storeUint (some (.int (n : ℕ))) w = .ok (uintBits n w)
  load_store : ∀ l c, storeOutList l = .ok c → loadOutList c = .ok l

/-- `v <= 0n`. -/
def atMostZero : Option Json → Except W5Throw Bool
  | none => pure false
  | some .null => pure true
  | some (.bool b) => pure (!b)
  | some (.int n) => pure (decide (n ≤ 0))
  | some v =>
    -- a text is read as a numeral, and so is what an object is as a text
    match stringOf v with
    | .error t => throw (.host t)
    | .ok s =>
      match bigIntOfStr s with
      | .ok n => pure (decide (n ≤ 0))
      | .error _ => pure false

/-- `b !== null && "kind" in b && b.kind === kind`. -/
def isKind (kind : String) : Json → Except W5Throw Bool
  | .null => pure false
  | .bool _ | .int _ | .str _ => throw (.host .typeError)
  | b => pure (isStr (b.read (js "kind")) (js kind))

def isJetton (b : Json) : Except W5Throw Bool := isKind "jetton_transfer" b

def isNft (b : Json) : Except W5Throw Bool := isKind "nft_transfer" b

/-- A token transfer bounces. -/
def bounces (b : Json) : Except W5Throw Bool := do
  if ← isJetton b then pure true else isNft b

section

variable (core : TonCore)

def storeRawAddress (v : Option Json) : Except W5Throw (List Bool) := do
  let a ← core.parseRaw v
  pure (core.storeAddress a)

def jettonBodyToCell (b : Json) : Except W5Throw Cell := do
  let noAmount ← atMostZero (b.read (js "amount"))
  require (noAmount = false) (.boc "W5_JETTON_BAD_AMOUNT" (js "jetton amount must be > 0"))
  let op ← core.storeUint (some (.int JETTON_TRANSFER_OP)) 32
  let queryId ← core.storeUint (b.read (js "query_id")) 64
  let amount ← core.storeCoins (b.read (js "amount"))
  let destination ← storeRawAddress core (b.read (js "destination"))
  let responseDestination ← storeRawAddress core (b.read (js "response_destination"))
  let forwardTonAmount ← core.storeCoins (b.read (js "forward_ton_amount"))
  endCell (op ++ queryId ++ amount ++ destination ++ responseDestination ++ [false] ++
    forwardTonAmount ++ [false]) []

def nftBodyToCell (b : Json) : Except W5Throw Cell := do
  let op ← core.storeUint (some (.int NFT_TRANSFER_OP)) 32
  let queryId ← core.storeUint (b.read (js "query_id")) 64
  let newOwner ← storeRawAddress core (b.read (js "new_owner"))
  let responseDestination ← storeRawAddress core (b.read (js "response_destination"))
  let forwardAmount ← core.storeCoins (b.read (js "forward_amount"))
  endCell (op ++ queryId ++ newOwner ++ responseDestination ++ [false] ++ forwardAmount ++ [false]) []

/-- The cell of a comment: the op 0 and the text. -/
def commentToCell (b : Json) : Except W5Throw Cell := do
  let op ← core.storeUint (some (.int (0 : ℕ))) 32
  let (bits, refs) ← core.storeStringTail (b.read (js "comment"))
  endCell (op ++ bits) refs

def bodyToCell (body : Json) : Except W5Throw Cell :=
  if body.isNull then endCell [] []
  else do
    if ← isJetton body then jettonBodyToCell core body
    else if ← isNft body then nftBodyToCell core body
    else commentToCell core body

/-- The message of an action. -/
def sendMsgOf (a : SendAction) : Except W5Throw (SendMsg core.Address) := do
  require (a.mode &&& CARRY_REMAINING = 0 ∧ a.mode &&& CARRY_ALL = 0)
    (.boc "W5_CARRY_MODE_FORBIDDEN" (js "mode " ++ decimalNat a.mode ++
      js " carries remaining/all balance — would extend authorization"))
  require (0 ≤ a.msg.valueNano) (.boc "W5_NEGATIVE_VALUE" (js "value must be non-negative"))
  require (a.msg.dest ≠ []) (.boc "W5_JETTON_DEST_UNRESOLVED"
    (js "dest is unresolved — resolve the agent jetton wallet (get_wallet_address) before serialization"))
  let bounce ← bounces a.msg.body
  let dest ← core.parseRaw (some (.str a.msg.dest))
  let body ← bodyToCell core a.msg.body
  pure ⟨a.mode, dest, a.msg.valueNano, bounce, body⟩

/-- The cell of a request: the list of messages if there is one, and whether other actions follow. -/
structure InnerCell where
  outActions : Option core.OutList
  hasOtherActions : Bool

def irToCell (inner : InnerRequest) : Except W5Throw (InnerCell core) := do
  require (inner.extended.length = 0) (.boc "W5_EXTENDED_NOT_IN_V0_1_0"
    (js "extended actions are not serialized in v0.1.0"))
  require (inner.outActions.length ≤ 255) (.boc "W5_TOO_MANY_ACTIONS"
    (decimalNat inner.outActions.length ++ js " > 255"))
  let actions ← inner.outActions.mapM (sendMsgOf core)
  let outListCell ← core.storeOutList actions
  pure ⟨if 0 < actions.length then some outListCell else none, false⟩

/-- The messages of the list of a serialized request. -/
def messagesOf (cell : InnerCell core) : Except W5Throw (List (SendMsg core.Address)) :=
  match cell.outActions with
  | none => pure []
  | some outList => core.loadOutList outList

end

/-! ## The effect of a message -/

/-- The request with the destinations of jetton transfers filled in, whatever they are. -/
def Filled (inner filled : InnerRequest) : Prop :=
  filled.extended = inner.extended ∧ List.Forall₂ (fun a b => b.mode = a.mode ∧
    b.msg.valueNano = a.msg.valueNano ∧ b.msg.body = a.msg.body ∧
    (a.msg.jettonMaster = none → b.msg.dest = a.msg.dest)) inner.outActions filled.outActions

/-- The steps that have a message on the chain. -/
def onChainSteps (cal : Json) : List Json :=
  (listOf ((asObj (some cal)).read (js "steps"))).filter fun step =>
    classifyVerb (verbOf step) ≠ .offchain

/-- The body of a message starts with an op. -/
def HasOp (op : ℕ) (body : Cell) : Prop := body.bits.take 32 = uintBits op 32

/-- The body of a transfer of no token: it is empty or a text comment. -/
def IsPlain (body : Cell) : Prop := (body.bits = [] ∧ body.refs = []) ∨ HasOp 0 body

/-- What a message does is what the verb of its step says. -/
structure HasEffect (verb : Str) (body : Cell) : Prop where
  jetton : HasOp JETTON_TRANSFER_OP body ↔ verb = js "wallet.send_jetton"
  nft : HasOp NFT_TRANSFER_OP body ↔ verb = js "wallet.send_nft"
  plain : verb = js "wallet.send_ton" → IsPlain body

/-- The body names the kind of a transfer. -/
def names (kind : String) (body : Json) : Bool := isStr (body.read (js "kind")) (js kind)

/-- What a `wallet.send_ton` step has for the body of its message. -/
def bodyParam (step : Json) : Json := orNull ((asObj (paramsOf step)).read (js "body"))

/-- The step sends no body of a token transfer in the place of a comment. -/
def NamesNoTransfer (step : Json) : Prop :=
  names "jetton_transfer" (bodyParam step) = false ∧ names "nft_transfer" (bodyParam step) = false

theorem endCell_eq_ok {bits : List Bool} {refs : List Cell} {c : Cell}
    (h : endCell bits refs = .ok c) : c = .mk bits refs := by
  simp only [endCell, bind_eq_ok, pure_eq_ok] at h
  obtain ⟨-, -, h⟩ := h
  exact h.symm

theorem length_uintBits (n w : ℕ) : (uintBits n w).length = w := by simp [uintBits]

/-- A cell that starts with the bits of an op has it. -/
theorem hasOp_mk (op : ℕ) (bits : List Bool) (refs : List Cell) :
    HasOp op (.mk (uintBits op 32 ++ bits) refs) := by
  have hlength : (uintBits op 32).length = 32 := length_uintBits op 32
  simp [HasOp, Cell.bits, hlength]

/-- A cell has one op. -/
theorem HasOp.unique {a b : ℕ} {c : Cell} (ha : HasOp a c) (hb : HasOp b c) :
    uintBits a 32 = uintBits b 32 := by
  unfold HasOp at ha hb
  exact ha.symm.trans hb

theorem not_hasOp_jetton_nft {c : Cell} (hj : HasOp JETTON_TRANSFER_OP c)
    (hn : HasOp NFT_TRANSFER_OP c) : False :=
  absurd (hj.unique hn) (by decide)

/-- A plain body has no op of a token transfer. -/
theorem IsPlain.not_hasOp {op : ℕ} {c : Cell} (h : IsPlain c) (hop : op = JETTON_TRANSFER_OP ∨
    op = NFT_TRANSFER_OP) : ¬HasOp op c := by
  intro hc
  rcases h with ⟨hbits, -⟩ | hzero
  · have hnil : uintBits op 32 = [] := by
      rw [← hc, hbits, List.take_nil]
    have hlength := length_uintBits op 32
    rw [hnil] at hlength
    simp at hlength
  · have heq := hzero.unique hc
    rcases hop with rfl | rfl <;> exact absurd heq (by decide)

section

variable {core : TonCore} {body : Json} {c : Cell}

/-- The cell library writes an op in its 32 bits. -/
theorem storeUint_op {op : ℕ} (hop : op < 2 ^ 32) {bits : List Bool}
    (h : core.storeUint (some (.int (op : ℕ))) 32 = .ok bits) : bits = uintBits op 32 := by
  rw [core.storeUint_nat op 32 hop] at h
  exact (Except.ok.inj h).symm

theorem jettonBodyToCell_hasOp (h : jettonBodyToCell core body = .ok c) :
    HasOp JETTON_TRANSFER_OP c := by
  simp only [jettonBodyToCell, bind_eq_ok] at h
  obtain ⟨-, -, -, -, op, hop, q, -, a, -, d, -, r, -, f, -, h⟩ := h
  rw [endCell_eq_ok h, storeUint_op (by decide) hop]
  simp only [List.append_assoc]
  exact hasOp_mk _ _ _

theorem nftBodyToCell_hasOp (h : nftBodyToCell core body = .ok c) : HasOp NFT_TRANSFER_OP c := by
  simp only [nftBodyToCell, bind_eq_ok] at h
  obtain ⟨op, hop, q, -, d, -, r, -, f, -, h⟩ := h
  rw [endCell_eq_ok h, storeUint_op (by decide) hop]
  simp only [List.append_assoc]
  exact hasOp_mk _ _ _

theorem commentToCell_hasOp (h : commentToCell core body = .ok c) : HasOp 0 c := by
  simp only [commentToCell, bind_eq_ok] at h
  obtain ⟨op, hop, tail, -, h⟩ := h
  rw [endCell_eq_ok h, storeUint_op (by decide) hop]
  exact hasOp_mk _ _ _

/-- The serializer takes a body for what it names. -/
theorem isKind_eq_ok {kind : String} {b : Bool} (h : isKind kind body = .ok b) :
    b = names kind body := by
  unfold isKind at h
  split at h
  · rw [← pure_eq_ok.mp h]
    rfl
  · exact absurd h (by simp)
  · exact absurd h (by simp)
  · exact absurd h (by simp)
  · exact (pure_eq_ok.mp h).symm

/-- What the cell of a body is, by the kind that the body names. -/
theorem bodyToCell_spec (h : bodyToCell core body = .ok c) :
    (names "jetton_transfer" body = true ∧ HasOp JETTON_TRANSFER_OP c) ∨
    (names "nft_transfer" body = true ∧ HasOp NFT_TRANSFER_OP c) ∨
    (names "jetton_transfer" body = false ∧ names "nft_transfer" body = false ∧ IsPlain c) := by
  unfold bodyToCell at h
  split at h
  · next hnull =>
    -- an absent body names nothing, and its cell is empty
    cases body <;> simp only [Json.isNull, Bool.false_eq_true] at hnull
    rw [endCell_eq_ok h]
    exact .inr (.inr ⟨rfl, rfl, .inl ⟨rfl, rfl⟩⟩)
  · simp only [bind_eq_ok] at h
    obtain ⟨j, hj, h⟩ := h
    have hj' := isKind_eq_ok hj
    split at h
    · next hjt => exact .inl ⟨hj' ▸ hjt, jettonBodyToCell_hasOp h⟩
    · next hjf =>
      simp only [bind_eq_ok] at h
      obtain ⟨n, hn, h⟩ := h
      have hn' := isKind_eq_ok hn
      split at h
      · next hnt => exact .inr (.inl ⟨hn' ▸ hnt, nftBodyToCell_hasOp h⟩)
      · next hnf =>
        refine .inr (.inr ⟨?_, ?_, .inr (commentToCell_hasOp h)⟩)
        · rw [← hj']
          simpa using hjf
        · rw [← hn']
          simpa using hnf

end

/-! ## The messages of a CAL -/

/-- What the projection puts in the body of a step's message. A `wallet.send_ton` step has its body as it
is in the params; the others have the one that the encoder builds. -/
def EncodedAs (step body : Json) : Prop :=
  (verbOf step = js "wallet.send_ton" ∧ body = bodyParam step) ∨
  (verbOf step = js "wallet.send_jetton" ∧ names "jetton_transfer" body = true) ∨
  (verbOf step = js "wallet.send_nft" ∧ names "nft_transfer" body = true)

theorem encodeSendTon_body {params : Option Json} {a : SendAction}
    (h : encodeSendTon params = .ok a) : a.msg.body = orNull ((asObj params).read (js "body")) := by
  simp only [encodeSendTon, bind_eq_ok, pure_eq_ok] at h
  obtain ⟨dest, -, amount, -, -, -, h⟩ := h
  rw [← h]

theorem encodeSendJetton_names {params : Option Json} {agent : Str} {a : SendAction}
    (h : encodeSendJetton params agent = .ok a) : names "jetton_transfer" a.msg.body = true := by
  simp only [encodeSendJetton, bind_eq_ok, pure_eq_ok] at h
  obtain ⟨m, -, r, -, n, -, -, -, q, -, -, -, -, -, -, -, h⟩ := h
  rw [← h]
  rfl

theorem encodeSendNft_names {params : Option Json} {agent : Str} {a : SendAction}
    (h : encodeSendNft params agent = .ok a) : names "nft_transfer" a.msg.body = true := by
  simp only [encodeSendNft, bind_eq_ok, pure_eq_ok] at h
  obtain ⟨i, -, o, -, q, -, -, -, -, -, -, -, h⟩ := h
  rw [← h]
  rfl

theorem encodeStep_spec {agent : Str} {i : ℕ} {step : Json} {a : SendAction}
    (h : encodeStep agent i step = .ok a) : EncodedAs step a.msg.body := by
  simp only [encodeStep] at h
  split at h
  · exact absurd h (by simp [codecError])
  · next hverb =>
    split at h
    · next hj => exact .inr (.inl ⟨hj, encodeSendJetton_names h⟩)
    · next hj =>
      split at h
      · next hn => exact .inr (.inr ⟨hn, encodeSendNft_names h⟩)
      · next hn =>
        -- of the verbs with an encoder this is the one that is left
        have hton : verbOf step = js "wallet.send_ton" := by
          simpa [V0_1_0_ENCODABLE, hj, hn] using hverb
        exact .inl ⟨hton, encodeSendTon_body h⟩

theorem projectSteps_spec {agent : Str} {i : ℕ} {steps : List Json} {actions : List SendAction}
    (h : projectSteps agent i steps = .ok actions) :
    List.Forall₂ (fun step a => EncodedAs step a.msg.body)
      (steps.filter fun step => classifyVerb (verbOf step) ≠ .offchain) actions := by
  induction steps generalizing i actions with
  | nil =>
    rw [← pure_eq_ok.mp h]
    exact .nil
  | cons step steps ih =>
    unfold projectSteps at h
    cases hclass : classifyVerb (verbOf step) with
    | offchain =>
      rw [hclass] at h
      rw [List.filter_cons_of_neg (by simp [hclass])]
      exact ih h
    | config =>
      rw [hclass] at h
      exact absurd h (by simp [codecError])
    | unknown =>
      rw [hclass] at h
      exact absurd h (by simp [codecError])
    | send =>
      rw [hclass] at h
      simp only [bind_eq_ok, pure_eq_ok] at h
      obtain ⟨a, ha, actions', hactions, rfl⟩ := h
      rw [List.filter_cons_of_pos (by simp [hclass])]
      exact .cons (encodeStep_spec ha) (ih hactions)

theorem canonicalToInner_spec {cal : Json} {inner : InnerRequest}
    (h : canonicalToInner cal = .ok inner) :
    List.Forall₂ (fun step a => EncodedAs step a.msg.body) (onChainSteps cal) inner.outActions := by
  simp only [canonicalToInner, bind_eq_ok, pure_eq_ok] at h
  obtain ⟨actions, hactions, -, -, h⟩ := h
  rw [← h]
  exact projectSteps_spec hactions

section

variable {core : TonCore}

/-- The list of a serialized request loads as the messages of the actions. -/
theorem irToCell_messages {inner : InnerRequest} {cell : InnerCell core}
    (h : irToCell core inner = .ok cell) :
    ∃ msgs, messagesOf core cell = .ok msgs ∧ inner.outActions.mapM (sendMsgOf core) = .ok msgs := by
  simp only [irToCell, bind_eq_ok, pure_eq_ok] at h
  obtain ⟨-, -, -, -, actions, hactions, outList, hstore, rfl⟩ := h
  refine ⟨actions, ?_, hactions⟩
  unfold messagesOf
  split
  · next hnone =>
    -- only a request without messages has no list
    have hempty : actions = [] := by
      by_contra hne
      simp [List.length_pos_iff.mpr hne] at hnone
    rw [hempty]
    rfl
  · next l hsome =>
    have hl : outList = l := by
      split at hsome
      · exact Option.some.inj hsome
      · cases hsome
    rw [← hl]
    exact core.load_store actions outList hstore

theorem irToCell_extended {inner : InnerRequest} {cell : InnerCell core}
    (h : irToCell core inner = .ok cell) : cell.hasOtherActions = false := by
  simp only [irToCell, bind_eq_ok, pure_eq_ok] at h
  obtain ⟨-, -, -, -, -, -, -, -, rfl⟩ := h
  rfl

/-- The list of a serialized request loads, and holds a message for each action with its body. -/
theorem irToCell_spec {inner : InnerRequest} {cell : InnerCell core}
    (h : irToCell core inner = .ok cell) :
    ∃ msgs, messagesOf core cell = .ok msgs ∧
      List.Forall₂ (fun a msg => bodyToCell core a.msg.body = .ok msg.body) inner.outActions msgs := by
  obtain ⟨msgs, hmsgs, hactions⟩ := irToCell_messages h
  refine ⟨msgs, hmsgs, (mapM_ok.mp hactions).imp ?_⟩
  intro a msg hmsg
  simp only [sendMsgOf, bind_eq_ok, pure_eq_ok] at hmsg
  obtain ⟨-, -, -, -, -, -, bounce, -, dest, -, body, hbody, rfl⟩ := hmsg
  exact hbody

/-- The cell of a body has the op of a token transfer exactly if the body names its kind. -/
theorem hasOp_iff {body : Json} {c : Cell} (h : bodyToCell core body = .ok c) :
    (HasOp JETTON_TRANSFER_OP c ↔ names "jetton_transfer" body = true) ∧
    (HasOp NFT_TRANSFER_OP c ↔ names "nft_transfer" body = true) ∧
    (IsPlain c ↔ names "jetton_transfer" body = false ∧ names "nft_transfer" body = false) := by
  rcases bodyToCell_spec h with ⟨hj, hop⟩ | ⟨hn, hop⟩ | ⟨hj, hn, hplain⟩
  · have hplain : ¬IsPlain c := fun hplain => hplain.not_hasOp (.inl rfl) hop
    have hnft : names "nft_transfer" body = false := by
      rw [names, isStr_iff] at hj
      simp only [names, hj]
      decide
    have hop' : ¬HasOp NFT_TRANSFER_OP c := not_hasOp_jetton_nft hop
    simp [hop, hop', hplain, hj, hnft]
  · have hplain : ¬IsPlain c := fun hplain => hplain.not_hasOp (.inr rfl) hop
    have hjetton : names "jetton_transfer" body = false := by
      rw [names, isStr_iff] at hn
      simp only [names, hn]
      decide
    have hop' : ¬HasOp JETTON_TRANSFER_OP c := fun hj => not_hasOp_jetton_nft hj hop
    simp [hop, hop', hplain, hn, hjetton]
  · have hop := hplain.not_hasOp (.inl rfl)
    have hop' := hplain.not_hasOp (.inr rfl)
    simp [hop, hop', hplain, hj, hn]

/-- What the message of one step does. -/
theorem hasEffect_iff {step body : Json} {c : Cell} (henc : EncodedAs step body)
    (hbody : bodyToCell core body = .ok c) :
    HasEffect (verbOf step) c ↔ (verbOf step = js "wallet.send_ton" → NamesNoTransfer step) := by
  obtain ⟨hj, hn, hplain⟩ := hasOp_iff hbody
  rcases henc with ⟨hverb, rfl⟩ | ⟨hverb, hnames⟩ | ⟨hverb, hnames⟩
  · -- the body comes from the params, and its cell is plain exactly if it names no transfer
    rw [hverb]
    constructor
    · intro heffect _
      exact hplain.mp (heffect.plain rfl)
    · intro hnone
      obtain ⟨hj', hn'⟩ := hnone rfl
      rw [hj'] at hj
      rw [hn'] at hn
      exact {
        jetton := hj.trans (by decide)
        nft := hn.trans (by decide)
        plain := fun _ => hplain.mpr ⟨hj', hn'⟩ }
  · have hn' : ¬HasOp NFT_TRANSFER_OP c := not_hasOp_jetton_nft (hj.mpr hnames)
    rw [hverb]
    refine iff_of_true ?_ (fun h => absurd h (by decide))
    exact {
      jetton := iff_of_true (hj.mpr hnames) rfl
      nft := iff_of_false hn' (by decide)
      plain := fun h => absurd h (by decide) }
  · have hj' : ¬HasOp JETTON_TRANSFER_OP c := fun h => not_hasOp_jetton_nft h (hn.mpr hnames)
    rw [hverb]
    refine iff_of_true ?_ (fun h => absurd h (by decide))
    exact {
      jetton := iff_of_false hj' (by decide)
      nft := iff_of_true (hn.mpr hnames) rfl
      plain := fun h => absurd h (by decide) }

end

/-- What holds of the pairs of two lists exactly if a condition on the first does. -/
theorem forall₂_iff_forall {α β : Type} {S R : α → β → Prop} {P : α → Prop} {l : List α} {m : List β}
    (h : List.Forall₂ S l m) (hiff : ∀ a b, S a b → (R a b ↔ P a)) :
    List.Forall₂ R l m ↔ ∀ a ∈ l, P a := by
  induction h with
  | nil => simp
  | cons hab _ ih => rw [List.forall₂_cons, List.forall_mem_cons, ih, hiff _ _ hab]

/-- Each element of the second list is in a pair. -/
theorem exists_of_forall₂_right {α β : Type} {R : α → β → Prop} {l : List α} {m : List β}
    (h : List.Forall₂ R l m) {b : β} (hb : b ∈ m) : ∃ a ∈ l, R a b := by
  induction h with
  | nil => cases hb
  | @cons x y l m hxy _ ih =>
    rcases List.mem_cons.mp hb with rfl | hb
    · exact ⟨x, by simp, hxy⟩
    · obtain ⟨a, ha, hab⟩ := ih hb
      exact ⟨a, List.mem_cons_of_mem x ha, hab⟩

/-- Two relations of the pairs of three lists, composed. -/
theorem forall₂_comp {α β γ : Type} {R : α → β → Prop} {S : β → γ → Prop} {l : List α} {m : List β}
    {k : List γ} (h : List.Forall₂ R l m) (h' : List.Forall₂ S m k) :
    List.Forall₂ (fun a c => ∃ b, R a b ∧ S b c) l k := by
  induction h generalizing k with
  | nil =>
    rw [List.forall₂_nil_left_iff.mp h']
    exact .nil
  | cons hab _ ih =>
    obtain ⟨c, k, hbc, hk, rfl⟩ := List.forall₂_cons_left_iff.mp h'
    exact .cons ⟨_, hab, hbc⟩ (ih hk)

section

variable {core : TonCore}

/-- The list of messages loads, and each message does what its step's verb says. -/
def EffectsKept (core : TonCore) (cal : Json) (cell : InnerCell core) : Prop :=
  ∃ msgs, messagesOf core cell = .ok msgs ∧
    List.Forall₂ (fun step msg => HasEffect (verbOf step) msg.body) (onChainSteps cal) msgs

/-- The serialized messages of a CAL have the effects of their steps' verbs exactly if no
`wallet.send_ton` step has a body that names the kind of a token transfer. -/
theorem publication_keeps_effects {cal : Json} {inner filled : InnerRequest} {cell : InnerCell core}
    (hinner : canonicalToInner cal = .ok inner) (hfilled : Filled inner filled)
    (hcell : irToCell core filled = .ok cell) :
    EffectsKept core cal cell ↔
      ∀ step ∈ onChainSteps cal, verbOf step = js "wallet.send_ton" → NamesNoTransfer step := by
  obtain ⟨msgs, hmsgs, hbodies⟩ := irToCell_spec hcell
  have hchain := forall₂_comp (canonicalToInner_spec hinner) (forall₂_comp hfilled.2 hbodies)
  have hiff := forall₂_iff_forall (R := fun step msg => HasEffect (verbOf step) msg.body) hchain
    fun step msg hsm => by
      obtain ⟨a, henc, b, ⟨-, -, hbody, -⟩, hmsg⟩ := hsm
      rw [hbody] at hmsg
      exact hasEffect_iff henc hmsg
  rw [← hiff]
  constructor
  · rintro ⟨msgs', hmsgs', heffects⟩
    rw [hmsgs] at hmsgs'
    cases hmsgs'
    exact heffects
  · intro heffects
    exact ⟨msgs, hmsgs, heffects⟩

end

/-! ## Two CALs with one payment -/

namespace Payment

/-- The bits of an address of the basechain, from its text. -/
def parseRaw : Option Json → Except W5Throw (List Bool)
  | some (.str (48 :: 58 :: hash)) => do
    require (hash.length = 64 ∧ hash.all isHexDigit = true) .ton
    pure ([true, false, false] ++ uintBits 0 8 ++ hash.flatMap fun u => uintBits (hexValue u) 4)
  | _ => throw .ton

def storeUint (v : Option Json) (w : ℕ) : Except W5Throw (List Bool) :=
  match v with
  | some (.int (.ofNat n)) => if n < 2 ^ w then pure (uintBits n w) else throw .ton
  | _ => throw .ton

/-- An amount: the number of its bytes and the bytes. -/
def storeCoins : Option Json → Except W5Throw (List Bool)
  | some (.int (.ofNat n)) => do
    let bytes := (n.size + 7) / 8
    require (bytes < 16) .ton
    pure (uintBits bytes 4 ++ uintBits n (8 * bytes))
  | _ => throw .ton

/-- A text in the cell itself. Here it is short, and in ASCII. -/
def storeStringTail : Option Json → Except W5Throw (List Bool × List Cell)
  | some (.str s) => pure (s.flatMap fun u => uintBits u.toNat 8, [])
  | _ => throw .ton

/-- A library whose stored list is the list. -/
def core : TonCore where
  Address := List Bool
  OutList := List (SendMsg (List Bool))
  parseRaw := parseRaw
  storeAddress := id
  storeUint := storeUint
  storeCoins := storeCoins
  storeStringTail := storeStringTail
  storeOutList := pure
  loadOutList := pure
  storeUint_nat := fun n w h => by
    change (if n < 2 ^ w then pure (uintBits n w) else throw W5Throw.ton) = _
    rw [if_pos h]
    rfl
  load_store := fun l c h => by
    rw [← pure_eq_ok.mp h]
    rfl

def address (digit : UInt16) : Json := .str (js "0:" ++ List.replicate 64 digit)

/-- A CAL with one step, which pays with a body. -/
def calWith (body : Json) : Json :=
  .obj [(js "cal_version", .str CAL_VERSION), (js "action", .str (js "wallet.send_ton")),
    (js "agent_id", .str Escape.agent), (js "nonce", .int 1), (js "expiration_tick", .int 100),
    (js "preconditions", constNode (.bool true)), (js "invariants", .arr []),
    (js "steps", .arr [.obj [(js "verb", .str (js "wallet.send_ton")),
      (js "params", .obj [(js "to", address 49), (js "amount_nano", .int 100000000),
        (js "body", body)])]]),
    (js "receipt_required", .bool false),
    (js "signatures", .obj [(js "operator_sig", .str (js "0x"))])]

/-- The body of a transfer of jettons. -/
def transferBody : Json :=
  .obj [(js "kind", .str (js "jetton_transfer")), (js "query_id", .int 0), (js "amount", .int 1000),
    (js "destination", address 50), (js "response_destination", address 50),
    (js "forward_ton_amount", .int 0)]

def commentBody : Json := .obj [(js "comment", .str (js "rent"))]

/-- The messages that a CAL is serialized to. No destination of it is to be filled in. -/
def published (cal : Json) : Except W5Throw (List (SendMsg core.Address)) := do
  let inner ← canonicalToInner cal
  let cell ← irToCell core inner
  messagesOf core cell

end Payment

instance (op : ℕ) (body : Cell) : Decidable (HasOp op body) := by unfold HasOp; infer_instance

theorem Filled.refl (inner : InnerRequest) : Filled inner inner :=
  ⟨rfl, List.forall₂_same.mpr fun _ _ => ⟨rfl, rfl, rfl, fun _ => rfl⟩⟩

theorem publication_keeps_effects_comment :
    ∃ inner cell, canonicalToInner (Payment.calWith Payment.commentBody) = .ok inner ∧
      irToCell Payment.core inner = .ok cell ∧
      EffectsKept Payment.core (Payment.calWith Payment.commentBody) cell := by
  have hrun : (Payment.published (Payment.calWith Payment.commentBody)).isOk = true := by
    decide +kernel
  obtain ⟨msgs, hmsgs⟩ := exists_of_isOk hrun
  simp only [Payment.published, bind_eq_ok] at hmsgs
  obtain ⟨inner, hinner, cell, hcell, -⟩ := hmsgs
  have hnone : ∀ step ∈ onChainSteps (Payment.calWith Payment.commentBody),
      names "jetton_transfer" (bodyParam step) = false ∧
      names "nft_transfer" (bodyParam step) = false := by decide +kernel
  exact ⟨inner, cell, hinner, hcell,
    (publication_keeps_effects hinner (Filled.refl inner) hcell).mpr fun step hstep _ =>
      hnone step hstep⟩

/-- An accepted CAL whose one step has the verb `wallet.send_ton` makes the wallet send jettons. -/
theorem payment_transfers_jettons :
    ¬∀ (core : TonCore) (input cal : Json) (inner filled : InnerRequest) (cell : InnerCell core),
      validateCal input = .ok cal → canonicalToInner cal = .ok inner → Filled inner filled →
      irToCell core filled = .ok cell → EffectsKept core cal cell := by
  intro hkept
  have hrun : (Payment.published (Payment.calWith Payment.transferBody)).toOption.any
      (fun msgs => msgs.any fun msg => HasOp JETTON_TRANSFER_OP msg.body) = true := by
    decide +kernel
  obtain ⟨msgs, hmsgs, hany⟩ := exists_of_any hrun
  simp only [Payment.published, bind_eq_ok] at hmsgs
  obtain ⟨inner, hinner, cell, hcell, hload⟩ := hmsgs
  obtain ⟨msgs', hload', heffects⟩ := hkept Payment.core _ _ inner inner cell
    (validateCal_of_isOk (by decide +kernel)) hinner (Filled.refl inner) hcell
  rw [hload] at hload'
  cases hload'
  obtain ⟨msg, hmem, hop⟩ := List.any_eq_true.mp hany
  obtain ⟨step, hstep, heffect⟩ := exists_of_forall₂_right heffects hmem
  have hverb : ∀ step ∈ onChainSteps (Payment.calWith Payment.transferBody),
      verbOf step ≠ js "wallet.send_jetton" := by decide +kernel
  exact hverb step hstep (heffect.jetton.mp (of_decide_eq_true hop))

end ParadigmTerra
