import ParadigmTerra.Lib.Fallible
import ParadigmTerra.Value

/-!
# Actions and scopes

The closed list of actions, the actions that need the owner's signature, those that Bounded Mode
admits, and the scopes that each action requires.

`mem_expandGrantedScopes` says what tier implication adds to a set of granted scopes, and
`expandGrantedScopes_closed` that it adds nothing to its own result.
-/

namespace ParadigmTerra

open Text Fallible

/-- Each namespace with its verbs. -/
def ACTION_TAXONOMY : List (String × List String) := [
  ("wallet", ["send_ton", "send_jetton", "send_nft"]),
  ("agent", ["register", "migrate", "freeze", "unfreeze"]),
  ("capability", ["update", "temporal_boost_request", "temporal_boost_release"]),
  ("treasury", ["transfer", "distribute_rewards", "buyback_burn"]),
  ("governance", ["propose_amendment", "vote", "vote_as_agent", "finalize_amendment"]),
  ("oracles", ["submit_feed", "slash", "force_update"]),
  ("ptra", ["stake", "unstake", "claim_rewards"]),
  ("failure_mode", ["emergency_withdraw", "enter_bounded", "exit_bounded"]),
  ("cal", ["cancel"])]

/-- Every action. -/
def REGISTERED_ACTIONS : List Str :=
  ACTION_TAXONOMY.flatMap fun e => e.2.map fun v => js e.1 ++ js "." ++ js v

def isRegisteredAction (action : Str) : Bool := action ∈ REGISTERED_ACTIONS

/-- The actions that need the owner's signature beside the operator's. -/
def OWNER_REQUIRED_ACTIONS : List Str := [
  js "capability.update", js "agent.migrate", js "treasury.transfer", js "governance.vote_as_agent",
  js "governance.propose_amendment", js "ptra.stake", js "ptra.unstake",
  js "failure_mode.emergency_withdraw"]

def isOwnerRequired (action : Str) : Bool := action ∈ OWNER_REQUIRED_ACTIONS

/-- The actions that Bounded Mode admits. -/
def BOUNDED_MODE_WHITELIST : List Str := [
  js "failure_mode.emergency_withdraw", js "failure_mode.exit_bounded", js "oracles.force_update",
  js "oracles.submit_feed", js "agent.freeze", js "cal.cancel"]

def isBoundedAllowed (action : Str) : Bool := action ∈ BOUNDED_MODE_WHITELIST

/-- The scopes that an action requires. -/
def REQUIRES_SCOPE_TABLE : List (Str × List Str) := [
  (js "wallet.send_ton", [js "ton_transfer"]),
  (js "wallet.send_jetton", [js "jetton_access"]),
  (js "wallet.send_nft", [js "nft_access"]),
  (js "treasury.transfer", [js "treasury_access:transfer"]),
  (js "treasury.distribute_rewards", [js "treasury_access:transfer"]),
  (js "treasury.buyback_burn", [js "treasury_access:transfer"]),
  (js "governance.propose_amendment", [js "governance_scope:propose"]),
  (js "governance.vote", [js "governance_scope:vote"]),
  (js "governance.finalize_amendment", [js "governance_scope:vote"]),
  (js "governance.vote_as_agent", [js "ptra_governance_vote"]),
  (js "ptra.stake", [js "ptra_stake"]),
  (js "ptra.unstake", [js "ptra_stake"]),
  (js "ptra.claim_rewards", [js "ptra_stake"])]

/-- `REQUIRES_SCOPE_TABLE[action] ?? []`, for a registered action. -/
def requiredScopes (action : Str) : List Str :=
  (OrderedMap.get action REQUIRES_SCOPE_TABLE).getD []

/-- The scopes that a scope implies. -/
def IMPLIED_SCOPES : List (Str × List Str) := [
  (js "treasury_access:transfer", [js "treasury_access:view"]),
  (js "governance_scope:vote", [js "governance_scope:propose"])]

def impliedScopes (g : Str) : List Str := (OrderedMap.get g IMPLIED_SCOPES).getD []

/-- A set of scopes with those that they imply. A scope that is named as an inherited member finds a
function in the table of implications, and the loop over it throws. -/
def expandGrantedScopes : List Str → Except Throw (List Str)
  | [] => pure []
  | g :: gs => do
    require (g ∉ inheritedNames) .typeError
    let set ← expandGrantedScopes gs
    pure (g :: impliedScopes g ++ set)

/-- The gate operator. The table answers to inherited names too, with a function, which has no
`includes`. -/
def requiresScope (action scope : Str) : Except Throw Bool :=
  if action ∈ inheritedNames then throw .typeError
  else pure (decide (scope ∈ requiredScopes action))

/-! ## Tier implication -/

/-- The scopes after tier implication. -/
theorem mem_expandGrantedScopes {gs set : List Str} (h : expandGrantedScopes gs = .ok set)
    {s : Str} : s ∈ set ↔ s ∈ gs ∨ ∃ g ∈ gs, s ∈ impliedScopes g := by
  induction gs generalizing set with
  | nil =>
    rw [expandGrantedScopes, pure_eq_ok] at h
    subst h
    simp
  | cons g gs ih =>
    simp only [expandGrantedScopes, bind_eq_ok, pure_eq_ok] at h
    obtain ⟨-, -, set', h', rfl⟩ := h
    simp only [List.cons_append, List.mem_cons, List.mem_append, ih h', exists_eq_or_imp]
    tauto

/-- What a scope implies implies nothing further. -/
theorem impliedScopes_implied {g s : Str} (h : s ∈ impliedScopes g) : impliedScopes s = [] := by
  have hs : s = js "treasury_access:view" ∨ s = js "governance_scope:propose" := by
    unfold impliedScopes IMPLIED_SCOPES at h
    simp only [OrderedMap.get] at h
    split_ifs at h <;> simp at h
    · exact .inl h
    · exact .inr h
  rcases hs with rfl | rfl <;> rfl

/-- Tier implication adds nothing to its own result. -/
theorem expandGrantedScopes_closed {gs set : List Str} (h : expandGrantedScopes gs = .ok set)
    {r s : Str} (hr : r ∈ set) (hs : s ∈ impliedScopes r) : s ∈ set := by
  rcases (mem_expandGrantedScopes h).mp hr with hg | ⟨g, -, hg⟩
  · exact (mem_expandGrantedScopes h).mpr (.inr ⟨r, hg, hs⟩)
  · rw [impliedScopes_implied hg] at hs
    cases hs

end ParadigmTerra
