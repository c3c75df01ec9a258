import Mathlib
import ParadigmTerra.Dsl.Classification
import ParadigmTerra.Node.Wallet

/-!
# Reading a publication back

`bocToIr` reads the request of a wallet back from its serialized form. What the cell library loads is a
parameter, and it loads what it has stored.

`codec_keeps_iff` says of a request that the projection makes when it is read back as it was: when every body
is empty, a comment and nothing else, or a token transfer without a payload. What a body has besides is left
out of its cell, and no error says so.
-/

namespace ParadigmTerra

open Text Fallible

/-! ## Loading -/

/-- An address in its canonical raw form. -/
def IsRawAddress (s : Str) : Prop := isCanonicalAddress s = true ∧ WellSpelled s

instance (s : Str) : Decidable (IsRawAddress s) := by unfold IsRawAddress; infer_instance

/-- The loading side of the cell library. What is left of a cell is a cell again, and what was stored is
loaded from the front. -/
structure TonLoad (core : TonCore) where
  Boc : Type
  loadUint : ℕ → Cell → Except W5Throw (ℤ × Cell)
  loadCoins : Cell → Except W5Throw (ℤ × Cell)
  loadAddress : Cell → Except W5Throw (core.Address × Cell)
  loadStringTail : Cell → Except W5Throw Str
  toRawString : core.Address → Str
  toBoc : InnerCell core → Except W5Throw Boc
  fromBoc : Boc → Except W5Throw (List (InnerCell core))
  loadUint_store : ∀ n w bits rest refs, core.storeUint (some (.int n)) w = .ok bits →
    loadUint w (.mk (bits ++ rest) refs) = .ok (n, .mk rest refs)
  loadCoins_store : ∀ n bits rest refs, core.storeCoins (some (.int n)) = .ok bits →
    loadCoins (.mk (bits ++ rest) refs) = .ok (n, .mk rest refs)
  loadAddress_store : ∀ s a rest refs, IsRawAddress s → core.parseRaw (some (.str s)) = .ok a →
    loadAddress (.mk (core.storeAddress a ++ rest) refs) = .ok (a, .mk rest refs) ∧ toRawString a = s
  loadStringTail_store : ∀ s bits refs, core.storeStringTail (some (.str s)) = .ok (bits, refs) →
    loadStringTail (.mk bits refs) = .ok s
  fromBoc_toBoc : ∀ c boc, toBoc c = .ok boc → fromBoc boc = .ok [c]

def loadBit : Cell → Except W5Throw (Bool × Cell)
  | .mk (b :: bits) refs => pure (b, .mk bits refs)
  | .mk [] _ => throw .ton

def loadMaybeRef (s : Cell) : Except W5Throw (Option Cell × Cell) := do
  let (present, s) ← loadBit s
  if present then
    match s with
    | .mk bits (r :: refs) => pure (some r, .mk bits refs)
    | .mk _ [] => throw .ton
  else pure (none, s)

/-! ## Bodies -/

/-- The body of a transfer of jettons. -/
def jettonBody (queryId amount : ℤ) (destination responseDestination : Str) (forwardTonAmount : ℤ)
    (forwardPayload : Json) : Json :=
  .obj [(js "kind", .str (js "jetton_transfer")), (js "op", .int JETTON_TRANSFER_OP),
    (js "query_id", .int queryId), (js "amount", .int amount), (js "destination", .str destination),
    (js "response_destination", .str responseDestination), (js "custom_payload", .null),
    (js "forward_ton_amount", .int forwardTonAmount), (js "forward_payload", forwardPayload)]

/-- The body of a transfer of an item. -/
def nftBody (queryId : ℤ) (newOwner responseDestination : Str) (forwardAmount : ℤ)
    (forwardPayload : Json) : Json :=
  .obj [(js "kind", .str (js "nft_transfer")), (js "op", .int NFT_TRANSFER_OP),
    (js "query_id", .int queryId), (js "new_owner", .str newOwner),
    (js "response_destination", .str responseDestination), (js "custom_payload", .null),
    (js "forward_amount", .int forwardAmount), (js "forward_payload", forwardPayload)]

def commentBody (comment : Str) : Json := .obj [(js "comment", .str comment)]

section

variable {core : TonCore} (load : TonLoad core)

def cellToJettonBody (s : Cell) : Except W5Throw Json := do
  let (_, s) ← load.loadUint 32 s
  let (queryId, s) ← load.loadUint 64 s
  let (amount, s) ← load.loadCoins s
  let (destination, s) ← load.loadAddress s
  let (responseDestination, s) ← load.loadAddress s
  let (customPayload, s) ← loadMaybeRef s
  require (customPayload.isNone = true) (.boc "W5_JETTON_CUSTOM_PAYLOAD"
    (js "custom_payload is fixed-absent this increment"))
  let (forwardTonAmount, s) ← load.loadCoins s
  let (forwardPayload, _) ← loadBit s
  require (forwardPayload = false) (.boc "W5_JETTON_FORWARD_PAYLOAD"
    (js "forward_payload is fixed-absent this increment"))
  pure (jettonBody queryId amount (load.toRawString destination)
    (load.toRawString responseDestination) forwardTonAmount .null)

def cellToNftBody (s : Cell) : Except W5Throw Json := do
  let (_, s) ← load.loadUint 32 s
  let (queryId, s) ← load.loadUint 64 s
  let (newOwner, s) ← load.loadAddress s
  let (responseDestination, s) ← load.loadAddress s
  let (customPayload, s) ← loadMaybeRef s
  require (customPayload.isNone = true) (.boc "W5_NFT_CUSTOM_PAYLOAD"
    (js "custom_payload is fixed-absent this increment"))
  let (forwardAmount, s) ← load.loadCoins s
  let (forwardPayload, _) ← loadBit s
  require (forwardPayload = false) (.boc "W5_NFT_FORWARD_PAYLOAD"
    (js "forward_payload is fixed-absent this increment"))
  pure (nftBody queryId (load.toRawString newOwner) (load.toRawString responseDestination)
    forwardAmount .null)

def unknownBody : Except W5Throw Json :=
  throw (.boc "W5_UNKNOWN_BODY" (js "message body is neither empty, a text comment, a TEP-74 jetton transfer, nor a TEP-62 nft transfer"))

def cellToBody (cell : Cell) : Except W5Throw Json :=
  if cell.bits.length = 0 ∧ cell.refs.length = 0 then pure .null
  else if 32 ≤ cell.bits.length then do
    let (op, _) ← load.loadUint 32 cell
    if op = 0 then do
      let (_, s) ← load.loadUint 32 cell
      let comment ← load.loadStringTail s
      pure (commentBody comment)
    else if op = JETTON_TRANSFER_OP then cellToJettonBody load cell
    else if op = NFT_TRANSFER_OP then cellToNftBody load cell
    else unknownBody
  else unknownBody

/-! ## Requests -/

/-- The action of a message. -/
def actionOf (m : SendMsg core.Address) : Except W5Throw SendAction := do
  let body ← cellToBody load m.body
  pure ⟨m.mode, ⟨load.toRawString m.dest, m.value, body, none⟩⟩

def cellToIr (cell : InnerCell core) : Except W5Throw InnerRequest := do
  require (cell.hasOtherActions = false) (.boc "W5_UNEXPECTED_EXTENDED"
    (js "has_other_actions set — not produced by v0.1.0"))
  let msgs ← messagesOf core cell
  let outActions ← msgs.mapM (actionOf load)
  pure ⟨outActions, []⟩

def irToBoc (inner : InnerRequest) : Except W5Throw load.Boc := do
  let cell ← irToCell core inner
  load.toBoc cell

def bocToIr (boc : load.Boc) : Except W5Throw InnerRequest := do
  let cells ← load.fromBoc boc
  match cells with
  | cell :: _ => cellToIr load cell
  | [] => throw (.boc "W5_EMPTY_BOC" (js "no root cell in BoC"))

end

/-! ## What is kept -/

/-- Two bodies with the same members, in whatever order. -/
def SameBody : Json → Json → Prop
  | .obj m, .obj m' => ∀ k, OrderedMap.get k m = OrderedMap.get k m'
  | b, b' => b = b'

/-- Two actions that do the same. The master of a jetton is not sent. -/
structure SameAction (a b : SendAction) : Prop where
  mode : a.mode = b.mode
  dest : a.msg.dest = b.msg.dest
  value : a.msg.valueNano = b.msg.valueNano
  body : SameBody a.msg.body b.msg.body

def SameRequest (a b : InnerRequest) : Prop :=
  a.extended = b.extended ∧ List.Forall₂ SameAction a.outActions b.outActions

/-- A body that a cell can hold: an empty one, a comment, or a token transfer without payloads. -/
def Kept (body : Json) : Prop :=
  body = .null ∨ (∃ s, SameBody body (commentBody s)) ∨
    (∃ q n d r f, SameBody body (jettonBody q n d r f .null)) ∨
    ∃ q o r f, SameBody body (nftBody q o r f .null)

/-- The addresses in a body. -/
def addressesOf (body : Json) : List (Option Json) :=
  if names "jetton_transfer" body then
    [body.read (js "destination"), body.read (js "response_destination")]
  else if names "nft_transfer" body then
    [body.read (js "new_owner"), body.read (js "response_destination")]
  else []

/-- The addresses of an action are in their canonical raw form. -/
def RawAddresses (a : SendAction) : Prop :=
  IsRawAddress a.msg.dest ∧ ∀ v ∈ addressesOf a.msg.body, ∀ s, v = some (.str s) → IsRawAddress s

theorem SameBody.read {b b' : Json} (h : SameBody b b') (k : Str) : b.read k = b'.read k := by
  unfold SameBody at h
  split at h
  · simp only [Json.read, h k]
  · rw [h]

/-- What has the members of an object is an object. -/
theorem SameBody.exists_obj {b : Json} {m : List (Str × Json)} (h : SameBody b (.obj m)) :
    ∃ m', b = .obj m' := by
  cases b with
  | obj m' => exact ⟨m', rfl⟩
  | _ => cases h

section Codec

variable {core : TonCore} {load : TonLoad core}

/-- The cell of a body depends on its members only. -/
theorem bodyToCell_congr {b : Json} {m : List (Str × Json)} (h : SameBody b (.obj m)) :
    bodyToCell core b = bodyToCell core (.obj m) := by
  obtain ⟨m', rfl⟩ := h.exists_obj
  simp only [bodyToCell, Json.isNull, isJetton, isNft, isKind, jettonBodyToCell, nftBodyToCell,
    commentToCell, h.read]
  rfl

/-- The op of a cell says how the rest is read. -/
theorem cellToBody_of_op {op : ℕ} (hop : op < 2 ^ 32) (rest : List Bool) (refs : List Cell) :
    cellToBody load (.mk (uintBits op 32 ++ rest) refs) =
      if op = 0 then do
        let comment ← load.loadStringTail (.mk rest refs)
        pure (commentBody comment)
      else if op = JETTON_TRANSFER_OP then
        cellToJettonBody load (.mk (uintBits op 32 ++ rest) refs)
      else if op = NFT_TRANSFER_OP then cellToNftBody load (.mk (uintBits op 32 ++ rest) refs)
      else unknownBody := by
  have hlength : 32 ≤ (Cell.mk (uintBits op 32 ++ rest) refs).bits.length := by
    simp only [Cell.bits, List.length_append, length_uintBits]
    omega
  have hne : ¬((Cell.mk (uintBits op 32 ++ rest) refs).bits.length = 0 ∧
      (Cell.mk (uintBits op 32 ++ rest) refs).refs.length = 0) := by
    omega
  have hload := load.loadUint_store op 32 (uintBits op 32) rest refs (core.storeUint_nat op 32 hop)
  rw [cellToBody, if_neg hne, if_pos hlength]
  simp only [hload, ok_bind, Nat.cast_inj, Int.natCast_eq_zero]

theorem cellToBody_jetton {q n f : ℤ} {d r : Str} {payload : Json} {c : Cell} (hd : IsRawAddress d)
    (hr : IsRawAddress r) (h : bodyToCell core (jettonBody q n d r f payload) = .ok c) :
    cellToBody load c = .ok (jettonBody q n d r f .null) := by
  replace h : jettonBodyToCell core (jettonBody q n d r f payload) = .ok c := h
  simp only [jettonBodyToCell, storeRawAddress, bind_eq_ok, pure_eq_ok] at h
  obtain ⟨-, -, -, -, op, hop, q', hq, n', hn, sd, ⟨da, hda, rfl⟩, sr, ⟨ra, hra, rfl⟩, f', hf, h⟩ := h
  replace hq : core.storeUint (some (.int q)) 64 = .ok q' := hq
  replace hn : core.storeCoins (some (.int n)) = .ok n' := hn
  replace hf : core.storeCoins (some (.int f)) = .ok f' := hf
  replace hda : core.parseRaw (some (.str d)) = .ok da := hda
  replace hra : core.parseRaw (some (.str r)) = .ok ra := hra
  have hcell : c = .mk (uintBits JETTON_TRANSFER_OP 32 ++ (q' ++ (n' ++ (core.storeAddress da ++
      (core.storeAddress ra ++ (false :: (f' ++ [false]))))))) [] := by
    rw [endCell_eq_ok h, storeUint_op (by decide) hop]
    simp only [List.append_assoc, List.cons_append, List.nil_append]
  rw [hcell, cellToBody_of_op (by decide), if_neg (by decide), if_pos rfl]
  -- the fields are loaded in the order in which they were stored
  have hopload := load.loadUint_store JETTON_TRANSFER_OP 32 (uintBits JETTON_TRANSFER_OP 32) (q' ++ (n' ++
    (core.storeAddress da ++ (core.storeAddress ra ++ (false :: (f' ++ [false])))))) []
    (core.storeUint_nat _ 32 (by decide))
  simp only [cellToJettonBody, hopload, ok_bind, load.loadUint_store _ _ _ _ _ hq,
    load.loadCoins_store _ _ _ _ hn, (load.loadAddress_store _ _ _ _ hd hda).1,
    (load.loadAddress_store _ _ _ _ hr hra).1]
  have hmaybe : loadMaybeRef (.mk (false :: (f' ++ [false])) []) = .ok (none, .mk (f' ++ [false]) []) := rfl
  simp only [hmaybe, ok_bind, load.loadCoins_store _ _ _ _ hf,
    (load.loadAddress_store _ _ [] [] hd hda).2, (load.loadAddress_store _ _ [] [] hr hra).2]
  rfl

theorem cellToBody_nft {q f : ℤ} {o r : Str} {payload : Json} {c : Cell} (ho : IsRawAddress o)
    (hr : IsRawAddress r) (h : bodyToCell core (nftBody q o r f payload) = .ok c) :
    cellToBody load c = .ok (nftBody q o r f .null) := by
  replace h : nftBodyToCell core (nftBody q o r f payload) = .ok c := h
  simp only [nftBodyToCell, storeRawAddress, bind_eq_ok, pure_eq_ok] at h
  obtain ⟨op, hop, q', hq, so, ⟨oa, hoa, rfl⟩, sr, ⟨ra, hra, rfl⟩, f', hf, h⟩ := h
  replace hq : core.storeUint (some (.int q)) 64 = .ok q' := hq
  replace hf : core.storeCoins (some (.int f)) = .ok f' := hf
  replace hoa : core.parseRaw (some (.str o)) = .ok oa := hoa
  replace hra : core.parseRaw (some (.str r)) = .ok ra := hra
  have hcell : c = .mk (uintBits NFT_TRANSFER_OP 32 ++ (q' ++ (core.storeAddress oa ++
      (core.storeAddress ra ++ (false :: (f' ++ [false])))))) [] := by
    rw [endCell_eq_ok h, storeUint_op (by decide) hop]
    simp only [List.append_assoc, List.cons_append, List.nil_append]
  rw [hcell, cellToBody_of_op (by decide), if_neg (by decide), if_neg (by decide), if_pos rfl]
  have hopload := load.loadUint_store NFT_TRANSFER_OP 32 (uintBits NFT_TRANSFER_OP 32) (q' ++
    (core.storeAddress oa ++ (core.storeAddress ra ++ (false :: (f' ++ [false]))))) []
    (core.storeUint_nat _ 32 (by decide))
  simp only [cellToNftBody, hopload, ok_bind, load.loadUint_store _ _ _ _ _ hq,
    (load.loadAddress_store _ _ _ _ ho hoa).1, (load.loadAddress_store _ _ _ _ hr hra).1]
  have hmaybe : loadMaybeRef (.mk (false :: (f' ++ [false])) []) = .ok (none, .mk (f' ++ [false]) []) := rfl
  simp only [hmaybe, ok_bind, load.loadCoins_store _ _ _ _ hf,
    (load.loadAddress_store _ _ [] [] ho hoa).2, (load.loadAddress_store _ _ [] [] hr hra).2]
  rfl

theorem cellToBody_comment {s : Str} {c : Cell} (h : bodyToCell core (commentBody s) = .ok c) :
    cellToBody load c = .ok (commentBody s) := by
  replace h : commentToCell core (commentBody s) = .ok c := h
  simp only [commentToCell, bind_eq_ok] at h
  obtain ⟨op, hop, ⟨bits, refs⟩, hs, h⟩ := h
  replace hs : core.storeStringTail (some (.str s)) = .ok (bits, refs) := hs
  rw [endCell_eq_ok h, storeUint_op (by decide) hop, cellToBody_of_op (by decide), if_pos rfl,
    load.loadStringTail_store s bits refs hs]
  rfl

/-- What is read from a cell is a body that a cell can hold. -/
theorem kept_of_cellToBody {b body : Json} {c : Cell} (h : cellToBody load c = .ok body)
    (hsame : SameBody b body) : Kept b := by
  unfold cellToBody at h
  split_ifs at h
  · rw [← pure_eq_ok.mp h] at hsame
    cases b with
    | null => exact .inl rfl
    | _ => cases hsame
  · simp only [bind_eq_ok] at h
    obtain ⟨⟨op, s⟩, -, h⟩ := h
    split_ifs at h
    · simp only [bind_eq_ok, pure_eq_ok] at h
      obtain ⟨-, -, comment, -, rfl⟩ := h
      exact .inr (.inl ⟨comment, hsame⟩)
    · simp only [cellToJettonBody, bind_eq_ok, pure_eq_ok] at h
      obtain ⟨-, -, ⟨q, s⟩, -, ⟨n, s⟩, -, ⟨d, s⟩, -, ⟨r, s⟩, -, -, -, -, -, ⟨f, s⟩, -, -, -, -, -, rfl⟩ := h
      exact .inr (.inr (.inl ⟨q, n, _, _, f, hsame⟩))
    · simp only [cellToNftBody, bind_eq_ok, pure_eq_ok] at h
      obtain ⟨-, -, ⟨q, s⟩, -, ⟨o, s⟩, -, ⟨r, s⟩, -, -, -, -, -, ⟨f, s⟩, -, -, -, -, -, rfl⟩ := h
      exact .inr (.inr (.inr ⟨q, _, _, f, hsame⟩))
    · cases h
  · cases h

/-- The addresses of a token transfer. -/
theorem addressesOf_jetton {b : Json} {q n f : ℤ} {d r : Str} (h : SameBody b (jettonBody q n d r f .null)) :
    addressesOf b = [some (.str d), some (.str r)] := by
  simp only [addressesOf, names, h.read]
  rfl

theorem addressesOf_nft {b : Json} {q f : ℤ} {o r : Str} (h : SameBody b (nftBody q o r f .null)) :
    addressesOf b = [some (.str o), some (.str r)] := by
  simp only [addressesOf, names, h.read]
  rfl

/-- A body that a cell can hold is read back. -/
theorem cellToBody_of_kept {b : Json} {c : Cell} (hkept : Kept b)
    (hraw : ∀ v ∈ addressesOf b, ∀ s, v = some (.str s) → IsRawAddress s)
    (h : bodyToCell core b = .ok c) : ∃ body, cellToBody load c = .ok body ∧ SameBody b body := by
  rcases hkept with rfl | ⟨s, hsame⟩ | ⟨q, n, d, r, f, hsame⟩ | ⟨q, o, r, f, hsame⟩
  · replace h : endCell [] [] = .ok c := h
    rw [endCell_eq_ok h]
    exact ⟨.null, rfl, rfl⟩
  · exact ⟨_, cellToBody_comment ((bodyToCell_congr hsame).symm.trans h), hsame⟩
  · rw [addressesOf_jetton hsame] at hraw
    have hd := hraw _ (by simp) d rfl
    have hr := hraw _ (by simp) r rfl
    exact ⟨_, cellToBody_jetton hd hr ((bodyToCell_congr hsame).symm.trans h), hsame⟩
  · rw [addressesOf_nft hsame] at hraw
    have ho := hraw _ (by simp) o rfl
    have hr := hraw _ (by simp) r rfl
    exact ⟨_, cellToBody_nft ho hr ((bodyToCell_congr hsame).symm.trans h), hsame⟩

/-- An action is read back as it was exactly if its body can be held. -/
theorem actionOf_iff {a : SendAction} {m : SendMsg core.Address} (hraw : RawAddresses a)
    (h : sendMsgOf core a = .ok m) :
    (∃ b, actionOf load m = .ok b ∧ SameAction a b) ↔ Kept a.msg.body := by
  simp only [sendMsgOf, bind_eq_ok, pure_eq_ok] at h
  obtain ⟨-, -, -, -, -, -, bounce, -, dest, hdest, c, hc, rfl⟩ := h
  simp only [actionOf, bind_eq_ok, pure_eq_ok]
  constructor
  · rintro ⟨b, ⟨body, hbody, rfl⟩, hsame⟩
    exact kept_of_cellToBody hbody hsame.body
  · intro hkept
    obtain ⟨body, hbody, hsame⟩ : ∃ body, cellToBody load c = .ok body ∧ SameBody a.msg.body body :=
      cellToBody_of_kept hkept hraw.2 hc
    refine ⟨_, ⟨body, hbody, rfl⟩, ?_⟩
    exact {
      mode := rfl
      dest := (load.loadAddress_store _ dest [] [] hraw.1 hdest).2.symm
      value := rfl
      body := hsame }

end Codec

/-! ## Requests -/

section

variable {core : TonCore} {load : TonLoad core}

/-- The messages of a list are read back exactly if the body of each can be held. -/
theorem actionsOf_iff {actions : List SendAction} {msgs : List (SendMsg core.Address)}
    (hraw : ∀ a ∈ actions, RawAddresses a)
    (h : List.Forall₂ (fun a m => sendMsgOf core a = .ok m) actions msgs) :
    (∃ back, msgs.mapM (actionOf load) = .ok back ∧ List.Forall₂ SameAction actions back) ↔
      ∀ a ∈ actions, Kept a.msg.body := by
  induction h with
  | nil => exact ⟨fun _ => nofun, fun _ => ⟨[], rfl, .nil⟩⟩
  | cons ham _ ih =>
    rw [List.forall_mem_cons] at hraw
    have hhead := @actionOf_iff core load _ _ hraw.1 ham
    rw [List.forall_mem_cons, ← hhead, ← ih hraw.2]
    simp only [mapM_ok]
    constructor
    · rintro ⟨back, hback, hsame⟩
      obtain ⟨b, bs, hb, hbs, rfl⟩ := List.forall₂_cons_left_iff.mp hback
      obtain ⟨hab, habs⟩ := List.forall₂_cons.mp hsame
      exact ⟨⟨b, hb, hab⟩, bs, hbs, habs⟩
    · rintro ⟨⟨b, hb, hab⟩, bs, hbs, habs⟩
      exact ⟨b :: bs, .cons hb hbs, .cons hab habs⟩

/-- A serialized request is read back as it was exactly if each of its bodies is empty, a comment and
nothing else, or a token transfer without payloads. -/
theorem codec_keeps_iff {filled : InnerRequest} {boc : load.Boc}
    (hraw : ∀ a ∈ filled.outActions, RawAddresses a) (hboc : irToBoc load filled = .ok boc) :
    (∃ back, bocToIr load boc = .ok back ∧ SameRequest filled back) ↔
      ∀ a ∈ filled.outActions, Kept a.msg.body := by
  simp only [irToBoc, bind_eq_ok] at hboc
  obtain ⟨cell, hcell, hboc⟩ := hboc
  obtain ⟨msgs, hload, hmsgs⟩ := irToCell_messages hcell
  have hother : cell.hasOtherActions = false := irToCell_extended hcell
  have hkeeps := @actionsOf_iff core load _ _ hraw (mapM_ok.mp hmsgs)
  rw [← hkeeps]
  have hextended : filled.extended = [] := List.eq_nil_iff_forall_not_mem.mpr fun e => e.elim
  simp only [bocToIr, load.fromBoc_toBoc cell boc hboc, ok_bind, cellToIr, hother, hload, bind_eq_ok,
    pure_eq_ok, require_eq_ok, true_and, exists_const, SameRequest, hextended]
  constructor
  · rintro ⟨back, ⟨actions, hactions, rfl⟩, -, hsame⟩
    exact ⟨actions, hactions, hsame⟩
  · rintro ⟨actions, hactions, hsame⟩
    exact ⟨_, ⟨actions, hactions, rfl⟩, rfl, hsame⟩

end

/-! ## A library -/

/-- The number that bits spell, the most significant first. -/
def natOfBits : List Bool → ℕ
  | [] => 0
  | b :: bits => b.toNat * 2 ^ bits.length + natOfBits bits

/-- Numbers of `w` bits each, one after the other. -/
def readUints (w : ℕ) : ℕ → List Bool → List ℕ
  | 0, _ => []
  | k + 1, bits => natOfBits (bits.take w) :: readUints w k (bits.drop w)

theorem uintBits_succ (n w : ℕ) : uintBits n (w + 1) = n.testBit w :: uintBits n w := by
  simp [uintBits, List.range_succ]

theorem natOfBits_uintBits (n w : ℕ) : natOfBits (uintBits n w) = n % 2 ^ w := by
  induction w with
  | zero => simp [uintBits, natOfBits, Nat.mod_one]
  | succ w ih =>
    rw [uintBits_succ, natOfBits, ih, length_uintBits, Nat.mod_pow_succ, Nat.toNat_testBit]
    ring

/-- What was written number by number is read number by number. -/
theorem readUints_flatMap {w : ℕ} {l : List ℕ} (h : ∀ n ∈ l, n < 2 ^ w) (rest : List Bool) :
    readUints w l.length (l.flatMap (uintBits · w) ++ rest) = l := by
  induction l with
  | nil => rfl
  | cons n l ih =>
    obtain ⟨hn, hl⟩ := List.forall_mem_cons.mp h
    have hlength := length_uintBits n w
    rw [List.flatMap_cons, List.append_assoc, List.length_cons, readUints, List.take_left' hlength,
      List.drop_left' hlength, ih hl, natOfBits_uintBits, Nat.mod_eq_of_lt hn]

theorem length_flatMap_uintBits (l : List ℕ) (w : ℕ) : (l.flatMap (uintBits · w)).length = l.length * w := by
  induction l with
  | nil => simp
  | cons n l ih =>
    rw [List.flatMap_cons, List.length_append, length_uintBits, ih, List.length_cons]
    ring

theorem hexDigit_hexValue {u : UInt16} (h : isLowerHexDigit u = true) :
    hexDigit (hexValue u) = u ∧ hexValue u < 2 ^ 4 := by
  simp only [isLowerHexDigit, isDigit, Bool.or_eq_true, Bool.and_eq_true, decide_eq_true_eq] at h
  unfold hexDigit hexValue isDigit
  rcases h with ⟨hlow, hhigh⟩ | ⟨hlow, hhigh⟩
  · have hten : u.toNat - 48 < 10 := by omega
    have hback : 48 + (u.toNat - 48) = u.toNat := by omega
    simp only [hlow, hhigh, decide_true, Bool.and_self, if_true, hten, hback, UInt16.ofNat_toNat, true_and]
    omega
  · have hten : ¬u.toNat - 87 < 10 := by omega
    have hback : 87 + (u.toNat - 87) = u.toNat := by omega
    have hnot : ¬u.toNat ≤ 57 := by omega
    simp only [hlow, hnot, decide_false, Bool.and_false, Bool.false_eq_true, if_true, if_false, hten, hback,
      UInt16.ofNat_toNat, true_and]
    omega

namespace Transfer

/-- A text in the cell itself. Here it is in ASCII. -/
def storeStringTail : Option Json → Except W5Throw (List Bool × List Cell)
  | some (.str s) => do
    require ((s.all fun u => u.toNat < 128) = true) .ton
    pure ((s.map UInt16.toNat).flatMap (uintBits · 8), [])
  | _ => throw .ton

def core : TonCore := { Payment.core with storeStringTail := storeStringTail }

def loadUint (w : ℕ) : Cell → Except W5Throw (ℤ × Cell)
  | .mk bits refs => do
    require (w ≤ bits.length) .ton
    pure ((natOfBits (bits.take w) : ℕ), .mk (bits.drop w) refs)

def loadCoins (s : Cell) : Except W5Throw (ℤ × Cell) := do
  let (bytes, s) ← loadUint 4 s
  loadUint (8 * bytes.toNat) s

/-- An address: two bits of its kind, one of its form, the workchain and the hash. -/
def loadAddress : Cell → Except W5Throw (List Bool × Cell)
  | .mk bits refs => do
    require (267 ≤ bits.length) .ton
    pure (bits.take 267, .mk (bits.drop 267) refs)

/-- The spelling of an address of the basechain. -/
def toRawString (a : List Bool) : Str := js "0:" ++ (readUints 4 64 (a.drop 11)).map hexDigit

def loadStringTail : Cell → Except W5Throw Str
  | .mk bits [] => pure ((readUints 8 (bits.length / 8) bits).map UInt16.ofNat)
  | .mk _ (_ :: _) => throw .ton

theorem loadUint_append {n w : ℕ} (h : n < 2 ^ w) (rest : List Bool) (refs : List Cell) :
    loadUint w (.mk (uintBits n w ++ rest) refs) = .ok (n, .mk rest refs) := by
  have hlength := length_uintBits n w
  have hle : w ≤ (uintBits n w ++ rest).length := by
    rw [List.length_append]
    omega
  rw [loadUint, require, if_pos hle, ok_bind, List.take_left' hlength, List.drop_left' hlength,
    natOfBits_uintBits, Nat.mod_eq_of_lt h]
  rfl

theorem loadUint_store {n : ℤ} {w : ℕ} {bits : List Bool} (rest : List Bool) (refs : List Cell)
    (h : Payment.storeUint (some (.int n)) w = .ok bits) :
    loadUint w (.mk (bits ++ rest) refs) = .ok (n, .mk rest refs) := by
  cases n with
  | ofNat n =>
    simp only [Payment.storeUint] at h
    split_ifs at h with hn
    rw [← pure_eq_ok.mp h]
    exact loadUint_append hn rest refs
  | negSucc n => cases h

theorem loadCoins_store {n : ℤ} {bits : List Bool} (rest : List Bool) (refs : List Cell)
    (h : Payment.storeCoins (some (.int n)) = .ok bits) :
    loadCoins (.mk (bits ++ rest) refs) = .ok (n, .mk rest refs) := by
  cases n with
  | ofNat n =>
    simp only [Payment.storeCoins, bind_eq_ok, pure_eq_ok, require_eq_ok] at h
    obtain ⟨_, hbytes, rfl⟩ := h
    -- a number fits into the bytes that its size asks for
    have hfits : n < 2 ^ (8 * ((n.size + 7) / 8)) :=
      Nat.lt_of_lt_of_le (Nat.lt_size_self n) (Nat.pow_le_pow_right (by decide) (by omega))
    rw [loadCoins, List.append_assoc, loadUint_append (by omega), ok_bind]
    exact loadUint_append hfits rest refs
  | negSucc n => cases h

/-- An address in its raw form is 64 digits on the basechain, to this library. -/
theorem parseRaw_eq_ok {s : Str} {a : List Bool} (h : Payment.parseRaw (some (.str s)) = .ok a) :
    ∃ hash : Str, s = js "0:" ++ hash ∧ hash.length = 64 ∧
      a = [true, false, false] ++ uintBits 0 8 ++ (hash.map hexValue).flatMap (uintBits · 4) := by
  unfold Payment.parseRaw at h
  split at h
  · next hash heq =>
    cases heq
    simp only [bind_eq_ok, require_eq_ok, pure_eq_ok] at h
    obtain ⟨_, ⟨hlength, -⟩, rfl⟩ := h
    exact ⟨hash, rfl, hlength, by rw [List.flatMap_map]⟩
  · cases h

theorem loadAddress_store {s : Str} {a : List Bool} (rest : List Bool) (refs : List Cell)
    (hraw : IsRawAddress s) (h : Payment.parseRaw (some (.str s)) = .ok a) :
    loadAddress (.mk (a ++ rest) refs) = .ok (a, .mk rest refs) ∧ toRawString a = s := by
  obtain ⟨hash, rfl, hlength, ha⟩ := parseRaw_eq_ok h
  have hdigits : ∀ u ∈ hash, isLowerHexDigit u = true := by
    have hdrop : (splitSign (js "0:" ++ hash)).2.dropWhile isDigit = 58 :: hash := rfl
    have hshape := isAddressShape_of_canonical hraw.1
    simp only [isAddressShape, hdrop, Bool.and_eq_true, List.all_eq_true] at hshape
    exact hshape.2.1
  have hvalues : ∀ n ∈ hash.map hexValue, n < 2 ^ 4 := by
    intro n hn
    obtain ⟨u, hu, rfl⟩ := List.mem_map.mp hn
    exact (hexDigit_hexValue (hdigits u hu)).2
  have hbits : a.length = 267 := by
    rw [ha]
    simp only [List.length_append, length_uintBits, length_flatMap_uintBits, List.length_map, hlength]
    rfl
  refine ⟨?_, ?_⟩
  · have hle : 267 ≤ (a ++ rest).length := by
      rw [List.length_append]
      omega
    rw [loadAddress, require, if_pos hle, ok_bind, List.take_left' hbits, List.drop_left' hbits]
    rfl
  · have hhead : ([true, false, false] ++ uintBits 0 8).length = 11 := by decide
    have hread := readUints_flatMap hvalues []
    rw [List.append_nil, List.length_map, hlength] at hread
    rw [toRawString, ha, List.drop_left' hhead, hread, List.map_map]
    have hsame : hash.map (hexDigit ∘ hexValue) = hash := by
      conv_rhs => rw [← List.map_id hash]
      exact List.map_congr_left fun u hu => (hexDigit_hexValue (hdigits u hu)).1
    rw [hsame]

theorem loadStringTail_store {s : Str} {bits : List Bool} {refs : List Cell}
    (h : storeStringTail (some (.str s)) = .ok (bits, refs)) : loadStringTail (.mk bits refs) = .ok s := by
  simp only [storeStringTail, bind_eq_ok, require_eq_ok, pure_eq_ok, List.all_eq_true,
    decide_eq_true_eq, Prod.mk.injEq] at h
  obtain ⟨_, hascii, rfl, rfl⟩ := h
  have hunits : ∀ n ∈ s.map UInt16.toNat, n < 2 ^ 8 := by
    intro n hn
    obtain ⟨u, hu, rfl⟩ := List.mem_map.mp hn
    exact Nat.lt_trans (hascii u hu) (by decide)
  have hread := readUints_flatMap hunits []
  rw [List.append_nil] at hread
  rw [loadStringTail, length_flatMap_uintBits, Nat.mul_div_cancel _ (by decide), hread, List.map_map]
  have hsame : s.map (UInt16.ofNat ∘ UInt16.toNat) = s := by
    conv_rhs => rw [← List.map_id s]
    exact List.map_congr_left fun u _ => UInt16.ofNat_toNat
  rw [hsame]
  rfl

/-- What the library loads. A serialized request is its cell. -/
def load : TonLoad core where
  Boc := InnerCell core
  loadUint := loadUint
  loadCoins := loadCoins
  loadAddress := loadAddress
  loadStringTail := loadStringTail
  toRawString := toRawString
  toBoc := pure
  fromBoc c := pure [c]
  loadUint_store n w bits rest refs h := loadUint_store rest refs h
  loadCoins_store n bits rest refs h := loadCoins_store rest refs h
  loadAddress_store s a rest refs hraw h := loadAddress_store rest refs hraw h
  loadStringTail_store s bits refs h := loadStringTail_store h
  fromBoc_toBoc c boc h := by
    rw [← pure_eq_ok.mp h]
    rfl

/-! ### Two requests -/

def address (digit : UInt16) : Str := js "0:" ++ List.replicate 64 digit

/-- A comment, and a transfer of jettons with a payload. Its destination is filled in. -/
def request (payload : Json) : InnerRequest where
  outActions := [
    ⟨SEND_MODE_EXACT, ⟨address 49, 100000000, commentBody (js "rent"), none⟩⟩,
    ⟨SEND_MODE_EXACT, ⟨address 50, JETTON_TRANSFER_TON,
      jettonBody 7 1000 (address 51) (address 52) 0 payload, some (address 53)⟩⟩]
  extended := []

/-- A CAL with one step, which sends jettons with a payload. -/
def calWith (payload : Json) : Json :=
  .obj [(js "agent_id", .str (address 52)),
    (js "steps", .arr [.obj [(js "verb", .str (js "wallet.send_jetton")),
      (js "params", .obj [(js "jetton_master", .str (address 53)), (js "recipient", .str (address 51)),
        (js "amount", .int 1000), (js "query_id", .int 7), (js "forward_payload", payload)])]])]

/-- The request of that CAL, with the destination that it has. -/
def jettonRequest (dest : Str) (payload : Json) : InnerRequest where
  outActions := [⟨SEND_MODE_EXACT, ⟨dest, JETTON_TRANSFER_TON,
    jettonBody 7 1000 (address 51) (address 52) 0 payload, some (address 53)⟩⟩]
  extended := []

end Transfer

theorem codec_keeps_iff_request :
    ∃ boc back, irToBoc Transfer.load (Transfer.request .null) = .ok boc ∧
      bocToIr Transfer.load boc = .ok back ∧ SameRequest (Transfer.request .null) back := by
  have hrun : (irToBoc Transfer.load (Transfer.request .null)).isOk = true := by decide +kernel
  obtain ⟨boc, hboc⟩ := exists_of_isOk hrun
  have hjetton : SameBody (jettonBody 7 1000 (Transfer.address 51) (Transfer.address 52) 0 .null)
      (jettonBody 7 1000 (Transfer.address 51) (Transfer.address 52) 0 .null) := fun _ => rfl
  have hraw : ∀ a ∈ (Transfer.request .null).outActions, RawAddresses a := by
    refine List.forall_mem_cons.mpr ⟨⟨by decide +kernel, nofun⟩,
      List.forall_mem_singleton.mpr ⟨by decide +kernel, ?_⟩⟩
    intro v hv s hs
    rw [addressesOf_jetton hjetton] at hv
    have hcases : s = Transfer.address 51 ∨ s = Transfer.address 52 := by
      subst hs
      simpa using hv
    rcases hcases with rfl | rfl
    · decide +kernel
    · decide +kernel
  have hkept : ∀ a ∈ (Transfer.request .null).outActions, Kept a.msg.body :=
    List.forall_mem_cons.mpr ⟨.inr (.inl ⟨_, fun _ => rfl⟩),
      List.forall_mem_singleton.mpr (.inr (.inr (.inl ⟨_, _, _, _, _, hjetton⟩)))⟩
  obtain ⟨back, hback, hsame⟩ := (codec_keeps_iff hraw hboc).mpr hkept
  exact ⟨boc, back, hboc, hback, hsame⟩

/-- The payload of a transfer is not sent, and nothing fails. -/
theorem payload_lost :
    ¬∀ (core : TonCore) (load : TonLoad core) (cal : Json) (inner filled : InnerRequest) (boc : load.Boc),
      canonicalToInner cal = .ok inner → Filled inner filled →
      (∀ a ∈ filled.outActions, RawAddresses a) → irToBoc load filled = .ok boc →
      ∃ back, bocToIr load boc = .ok back ∧ SameRequest filled back := by
  intro hkept
  let payload : Json := .str (js "invoice")
  let filled := Transfer.jettonRequest (Transfer.address 50) payload
  have hinner : canonicalToInner (Transfer.calWith payload) = .ok (Transfer.jettonRequest [] payload) := rfl
  have hfilled : Filled (Transfer.jettonRequest [] payload) filled :=
    ⟨rfl, .cons ⟨rfl, rfl, rfl, nofun⟩ .nil⟩
  have hraw : ∀ a ∈ filled.outActions, RawAddresses a := by
    refine List.forall_mem_singleton.mpr ⟨by decide +kernel, ?_⟩
    have haddresses : addressesOf (jettonBody 7 1000 (Transfer.address 51) (Transfer.address 52) 0 payload) =
        [some (.str (Transfer.address 51)), some (.str (Transfer.address 52))] := rfl
    intro v hv s hs
    rw [haddresses] at hv
    have hcases : s = Transfer.address 51 ∨ s = Transfer.address 52 := by
      subst hs
      simpa using hv
    rcases hcases with rfl | rfl
    · decide +kernel
    · decide +kernel
  -- what is read back has `null` in the place of the payload
  have hrun : (irToBoc Transfer.load filled >>= bocToIr Transfer.load).toOption.any
      (fun back => back.outActions.all fun a =>
        (a.msg.body.read (js "forward_payload")).any Json.isNull) = true := by decide +kernel
  obtain ⟨back, hback, hnull⟩ := exists_of_any hrun
  obtain ⟨boc, hboc, hload⟩ := bind_eq_ok.mp hback
  obtain ⟨back', hback', -, hsame⟩ := hkept Transfer.core Transfer.load _ _ filled boc hinner hfilled hraw hboc
  rw [hload] at hback'
  cases hback'
  obtain ⟨b, bs, hab, -, hactions⟩ := List.forall₂_cons_left_iff.mp hsame
  rw [hactions] at hnull
  have hb : (b.msg.body.read (js "forward_payload")).any Json.isNull = true :=
    ((Bool.and_eq_true _ _).mp hnull).1
  have hread : (jettonBody 7 1000 (Transfer.address 51) (Transfer.address 52) 0 payload).read
      (js "forward_payload") = b.msg.body.read (js "forward_payload") := hab.body.read _
  rw [← hread] at hb
  exact absurd hb (by decide)

end ParadigmTerra
