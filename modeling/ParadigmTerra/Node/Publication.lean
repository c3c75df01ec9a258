import ParadigmTerra.Node.Wallet

/-!
# What a publication pays

`projection_exact` says that the projection of a CAL fails with an error of its own, or has one action for
each step that sends a message, in the order of the steps. Each action is the one that its step asks for:
its destination, the tokens that it moves and the TON that it attaches are those of the step's params, and
its mode carries nothing else along. So what leaves the wallet is the sum over the steps.
-/

namespace ParadigmTerra

open Text Fallible

/-! ## What a step asks for -/

/-- A member of a step's params. -/
def param (step : Json) (k : String) : Option Json := (asObj (paramsOf step)).read (js k)

/-- The amount that a transfer forwards, 0 if it names no integer. -/
def forwardOf (step : Json) (k : String) : ℤ := asBig (param step k) 0

/-- The TON that a step's message takes along. -/
def attachedTon (step : Json) : ℤ :=
  if verbOf step = js "wallet.send_ton" then asBig (param step "amount_nano") 0
  else if verbOf step = js "wallet.send_jetton" then
    forwardOf step "forward_ton_amount" + JETTON_TRANSFER_TON
  else forwardOf step "forward_amount" + NFT_TRANSFER_TON

/-- The steps whose verb sends a message. -/
def sendSteps (cal : Json) : List Json :=
  (listOf ((asObj (some cal)).read (js "steps"))).filter fun step =>
    classifyVerb (verbOf step) = .send

/-- A query id of 64 bits. -/
def IsQueryId (v : Option Json) : Prop := ∃ q, v = some (.int q) ∧ 0 ≤ q ∧ q ≤ U64_MAX

/-- A payment of TON: to whom, how much, and with which body. -/
structure TonPayment (step : Json) (msg : OutMessage) : Prop where
  dest : param step "to" = some (.str msg.dest)
  named : msg.dest ≠ []
  amount : param step "amount_nano" = some (.int msg.valueNano)
  body : msg.body = orNull (param step "body")
  master : msg.jettonMaster = none

/-- A transfer of jettons. Its destination is left to be resolved from the master. -/
structure JettonTransfer (step : Json) (msg : OutMessage) : Prop where
  dest : msg.dest = []
  master : ∃ m ≠ [], msg.jettonMaster = some m ∧ param step "jetton_master" = some (.str m)
  kind : msg.body.read (js "kind") = some (.str (js "jetton_transfer"))
  op : msg.body.read (js "op") = some (.int JETTON_TRANSFER_OP)
  recipient : ∃ r ≠ [], msg.body.read (js "destination") = some (.str r) ∧
    param step "recipient" = some (.str r)
  amount : ∃ n, 0 < n ∧ msg.body.read (js "amount") = some (.int n) ∧ param step "amount" = some (.int n)
  queryId : msg.body.read (js "query_id") = param step "query_id"
  isQueryId : IsQueryId (param step "query_id")
  forward : msg.body.read (js "forward_ton_amount") = some (.int (forwardOf step "forward_ton_amount"))
  nonneg : 0 ≤ forwardOf step "forward_ton_amount"

/-- A transfer of an item, which is the destination. -/
structure NftTransfer (step : Json) (msg : OutMessage) : Prop where
  dest : param step "nft_item" = some (.str msg.dest)
  named : msg.dest ≠ []
  master : msg.jettonMaster = none
  kind : msg.body.read (js "kind") = some (.str (js "nft_transfer"))
  op : msg.body.read (js "op") = some (.int NFT_TRANSFER_OP)
  newOwner : ∃ o ≠ [], msg.body.read (js "new_owner") = some (.str o) ∧
    param step "new_owner" = some (.str o)
  queryId : msg.body.read (js "query_id") = param step "query_id"
  isQueryId : IsQueryId (param step "query_id")
  forward : msg.body.read (js "forward_amount") = some (.int (forwardOf step "forward_amount"))
  nonneg : 0 ≤ forwardOf step "forward_amount"

/-- An action is what a step asks for. -/
structure ExactAction (step : Json) (a : SendAction) : Prop where
  mode : a.mode = SEND_MODE_EXACT
  no_carry : a.mode &&& CARRY_REMAINING = 0 ∧ a.mode &&& CARRY_ALL = 0
  value : a.msg.valueNano = attachedTon step
  nonneg : 0 ≤ a.msg.valueNano
  message : (verbOf step = js "wallet.send_ton" ∧ TonPayment step a.msg) ∨
    (verbOf step = js "wallet.send_jetton" ∧ JettonTransfer step a.msg) ∨
    (verbOf step = js "wallet.send_nft" ∧ NftTransfer step a.msg)

/-- The mode has none of the bits that send what was not asked for. -/
theorem exact_no_carry : SEND_MODE_EXACT &&& CARRY_REMAINING = 0 ∧ SEND_MODE_EXACT &&& CARRY_ALL = 0 := by
  decide

/-! ## The encoders -/

theorem addressParam_eq_ok {p : Json} {k detail : String} {s : Str} (h : addressParam p k detail = .ok s) :
    p.read (js k) = some (.str s) ∧ s ≠ [] := by
  unfold addressParam at h
  split at h
  · next t ht =>
    split_ifs at h with hempty
    · cases h
    · rw [pure_eq_ok] at h
      subst h
      exact ⟨ht, hempty⟩
  · cases h

theorem integerParam_eq_ok {p : Json} {k detail : String} {n : ℤ} (h : integerParam p k detail = .ok n) :
    p.read (js k) = some (.int n) := by
  unfold integerParam at h
  split at h
  · next m hm =>
    rw [pure_eq_ok] at h
    subst h
    exact hm
  · cases h

theorem checkParam_eq_ok {c : Prop} [Decidable c] {detail : String} {u : Unit}
    (h : checkParam c detail = .ok u) : c :=
  require_eq_ok.mp h

theorem encodeSendTon_exact {step : Json} {a : SendAction} (hverb : verbOf step = js "wallet.send_ton")
    (h : encodeSendTon (paramsOf step) = .ok a) : ExactAction step a := by
  simp only [encodeSendTon, bind_eq_ok, pure_eq_ok] at h
  obtain ⟨dest, hdest, amount, hamount, _, hnonneg, rfl⟩ := h
  obtain ⟨hdest, hnamed⟩ := addressParam_eq_ok hdest
  have hamount : param step "amount_nano" = some (.int amount) := integerParam_eq_ok hamount
  exact {
    mode := rfl
    no_carry := exact_no_carry
    value := by rw [attachedTon, if_pos hverb, hamount, asBig]
    nonneg := checkParam_eq_ok hnonneg
    message := .inl ⟨hverb, ⟨hdest, hnamed, hamount, rfl, rfl⟩⟩ }

theorem encodeSendJetton_exact {step : Json} {agent : Str} {a : SendAction}
    (hverb : verbOf step = js "wallet.send_jetton")
    (h : encodeSendJetton (paramsOf step) agent = .ok a) : ExactAction step a := by
  simp only [encodeSendJetton, bind_eq_ok, pure_eq_ok] at h
  obtain ⟨m, hm, r, hr, n, hn, _, hpos, q, hq, _, hrange, _, hforward, -, -, rfl⟩ := h
  obtain ⟨hm, hmne⟩ := addressParam_eq_ok hm
  obtain ⟨hr, hrne⟩ := addressParam_eq_ok hr
  have hq : param step "query_id" = some (.int q) := integerParam_eq_ok hq
  have hnonneg : 0 ≤ forwardOf step "forward_ton_amount" := checkParam_eq_ok hforward
  have hne : verbOf step ≠ js "wallet.send_ton" := by
    rw [hverb]
    decide
  have hvalue : attachedTon step = forwardOf step "forward_ton_amount" + JETTON_TRANSFER_TON := by
    rw [attachedTon, if_neg hne, if_pos hverb]
  exact {
    mode := rfl
    no_carry := exact_no_carry
    value := hvalue.symm
    nonneg := Int.add_nonneg hnonneg (by decide)
    message := .inr (.inl ⟨hverb, {
      dest := rfl
      master := ⟨m, hmne, rfl, hm⟩
      kind := rfl
      op := rfl
      recipient := ⟨r, hrne, rfl, hr⟩
      amount := ⟨n, checkParam_eq_ok hpos, rfl, integerParam_eq_ok hn⟩
      queryId := hq.symm
      isQueryId := ⟨q, hq, checkParam_eq_ok hrange⟩
      forward := rfl
      nonneg := hnonneg }⟩) }

theorem encodeSendNft_exact {step : Json} {agent : Str} {a : SendAction}
    (hverb : verbOf step = js "wallet.send_nft")
    (h : encodeSendNft (paramsOf step) agent = .ok a) : ExactAction step a := by
  simp only [encodeSendNft, bind_eq_ok, pure_eq_ok] at h
  obtain ⟨i, hi, o, ho, q, hq, _, hrange, _, hforward, -, -, rfl⟩ := h
  obtain ⟨hi, hine⟩ := addressParam_eq_ok hi
  obtain ⟨ho, hone⟩ := addressParam_eq_ok ho
  have hq : param step "query_id" = some (.int q) := integerParam_eq_ok hq
  have hnonneg : 0 ≤ forwardOf step "forward_amount" := checkParam_eq_ok hforward
  have hton : verbOf step ≠ js "wallet.send_ton" := by
    rw [hverb]
    decide
  have hjetton : verbOf step ≠ js "wallet.send_jetton" := by
    rw [hverb]
    decide
  have hvalue : attachedTon step = forwardOf step "forward_amount" + NFT_TRANSFER_TON := by
    rw [attachedTon, if_neg hton, if_neg hjetton]
  exact {
    mode := rfl
    no_carry := exact_no_carry
    value := hvalue.symm
    nonneg := Int.add_nonneg hnonneg (by decide)
    message := .inr (.inr ⟨hverb, {
      dest := hi
      named := hine
      master := rfl
      kind := rfl
      op := rfl
      newOwner := ⟨o, hone, rfl, ho⟩
      queryId := hq.symm
      isQueryId := ⟨q, hq, checkParam_eq_ok hrange⟩
      forward := rfl
      nonneg := hnonneg }⟩) }

theorem encodeStep_exact {agent : Str} {i : ℕ} {step : Json} {a : SendAction}
    (h : encodeStep agent i step = .ok a) : ExactAction step a := by
  rcases encodeStep_spec h with ⟨hverb, -⟩ | ⟨hverb, -⟩ | ⟨hverb, -⟩
  all_goals simp only [encodeStep, hverb] at h
  · exact encodeSendTon_exact hverb h
  · exact encodeSendJetton_exact hverb h
  · exact encodeSendNft_exact hverb h

/-! ## The actions of a CAL -/

/-- The actions of a list of steps: every step has a class that the projection knows, and those that send
have their actions. -/
theorem projectSteps_exact {agent : Str} {i : ℕ} {steps : List Json} {actions : List SendAction}
    (h : projectSteps agent i steps = .ok actions) :
    (∀ step ∈ steps, classifyVerb (verbOf step) = .send ∨ classifyVerb (verbOf step) = .offchain) ∧
    List.Forall₂ ExactAction (steps.filter fun step => classifyVerb (verbOf step) = .send) actions := by
  induction steps generalizing i actions with
  | nil =>
    rw [← pure_eq_ok.mp h]
    exact ⟨nofun, .nil⟩
  | cons step steps ih =>
    unfold projectSteps at h
    cases hclass : classifyVerb (verbOf step) with
    | offchain =>
      rw [hclass] at h
      obtain ⟨hknown, hpairs⟩ := ih h
      rw [List.filter_cons_of_neg (by simp [hclass])]
      exact ⟨List.forall_mem_cons.mpr ⟨.inr hclass, hknown⟩, hpairs⟩
    | config =>
      rw [hclass] at h
      cases h
    | unknown =>
      rw [hclass] at h
      cases h
    | send =>
      rw [hclass] at h
      simp only [bind_eq_ok, pure_eq_ok] at h
      obtain ⟨a, ha, actions', hactions, rfl⟩ := h
      obtain ⟨hknown, hpairs⟩ := ih hactions
      rw [List.filter_cons_of_pos (by simp [hclass])]
      exact ⟨List.forall_mem_cons.mpr ⟨.inl hclass, hknown⟩, .cons (encodeStep_exact ha) hpairs⟩

/-- An error of the projection. -/
def W5Throw.IsCodec : W5Throw → Prop
  | .codec _ _ => True
  | _ => False

@[simp] theorem throwsOnly_codecError {α : Type} {code : String} {detail : Str} :
    ThrowsOnly W5Throw.IsCodec (codecError code detail : Except W5Throw α) := by
  simp [codecError, W5Throw.IsCodec]

@[simp] theorem throwsOnly_checkParam {c : Prop} [Decidable c] {detail : String} :
    ThrowsOnly W5Throw.IsCodec (checkParam c detail) := by
  simp [checkParam, W5Throw.IsCodec]

@[simp] theorem throwsOnly_addressParam {p : Json} {k detail : String} :
    ThrowsOnly W5Throw.IsCodec (addressParam p k detail) := by
  unfold addressParam
  split
  · split_ifs <;> simp
  · simp

@[simp] theorem throwsOnly_integerParam {p : Json} {k detail : String} :
    ThrowsOnly W5Throw.IsCodec (integerParam p k detail) := by
  unfold integerParam
  split <;> simp

theorem throwsOnly_encodeStep {agent : Str} {i : ℕ} {step : Json} :
    ThrowsOnly W5Throw.IsCodec (encodeStep agent i step) := by
  simp only [encodeStep]
  split_ifs
  · simp [encodeSendJetton]
  · simp [encodeSendNft]
  · simp [encodeSendTon]
  · simp

theorem throwsOnly_projectSteps {agent : Str} {i : ℕ} {steps : List Json} :
    ThrowsOnly W5Throw.IsCodec (projectSteps agent i steps) := by
  induction steps generalizing i with
  | nil => simp [projectSteps]
  | cons step steps ih =>
    unfold projectSteps
    split
    · exact ih
    · simp
    · simp
    · simp only [throwsOnly_bind, throwsOnly_pure, implies_true, and_true]
      exact ⟨throwsOnly_encodeStep, fun _ _ => ih⟩

/-- The sums of two lists whose pairs have equal values. -/
theorem sum_eq_of_forall₂ {α β : Type} {R : α → β → Prop} {f : α → ℤ} {g : β → ℤ} {l : List α} {m : List β}
    (h : List.Forall₂ R l m) (heq : ∀ a b, R a b → f a = g b) : (l.map f).sum = (m.map g).sum := by
  induction h with
  | nil => rfl
  | cons hab _ ih =>
    simp only [List.map_cons, List.sum_cons]
    rw [ih, heq _ _ hab]

/-- The request of a CAL: no step is of a class without messages or of none, each step that sends has the
action that it asks for, and the TON that leave are those of the steps. -/
structure ExactRequest (cal : Json) (inner : InnerRequest) : Prop where
  known : ∀ step ∈ listOf ((asObj (some cal)).read (js "steps")),
    classifyVerb (verbOf step) = .send ∨ classifyVerb (verbOf step) = .offchain
  actions : List.Forall₂ ExactAction (sendSteps cal) inner.outActions
  bounded : inner.outActions.length ≤ 255
  extended : inner.extended = []
  total : (inner.outActions.map fun a => a.msg.valueNano).sum = ((sendSteps cal).map attachedTon).sum

/-- The projection of a CAL fails with an error of its own or makes exactly what the steps ask for. -/
theorem projection_exact (cal : Json) :
    (∃ code detail, canonicalToInner cal = .error (.codec code detail)) ∨
      ∃ inner, canonicalToInner cal = .ok inner ∧ ExactRequest cal inner := by
  cases h : canonicalToInner cal with
  | error t =>
    have hcodec : ThrowsOnly W5Throw.IsCodec (canonicalToInner cal) := by
      simp only [canonicalToInner, throwsOnly_bind, throwsOnly_require, throwsOnly_pure, implies_true,
        and_true]
      exact ⟨throwsOnly_projectSteps, fun _ _ _ => trivial⟩
    have ht := hcodec t h
    cases t with
    | codec code detail => exact .inl ⟨code, detail, rfl⟩
    | _ => exact ht.elim
  | ok inner =>
    refine .inr ⟨inner, rfl, ?_⟩
    simp only [canonicalToInner, bind_eq_ok, pure_eq_ok, require_eq_ok] at h
    obtain ⟨actions, hactions, _, hbound, rfl⟩ := h
    obtain ⟨hknown, hpairs⟩ := projectSteps_exact hactions
    exact {
      known := hknown
      actions := hpairs
      bounded := hbound
      extended := rfl
      total := (sum_eq_of_forall₂ hpairs fun step a ha => ha.value.symm).symm }

end ParadigmTerra
