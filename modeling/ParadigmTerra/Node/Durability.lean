import ParadigmTerra.Node.Recovery

/-!
# What is durable

The log and the snapshots hold what the codec reads back. `durable_codecs` says what that is: a block
comes back from its line, and a live state from its snapshot, exactly if nothing in it is a function or
looks like a tagged value.

`recovery_equivalence` is the fold cut in two. Recovery from the snapshot after any number of the blocks is
the fold of all blocks exactly if the live state has no function in it at any of the cuts.
-/

namespace ParadigmTerra

open Text OrderedMap Fallible JsonText

variable {H : Host} {g : State} {blocks : List TickBlock}

/-! ## The codecs -/

/-- A tick with a submission whose trace has `before` for the state before it. -/
def traceBefore (before : Json) : TickBlock :=
  ⟨0, [{ submitFeed .atomic with
    trace := { (submitFeed .atomic).trace with stateBefore := before } }]⟩

/-- An object that looks like a tagged number, whose text is no number. -/
def falseTag : Json := .obj [(BIGINT_TAG, .str (js "abc"))]

/-- The snapshot of a live state after the first `k` blocks, whatever its roots. -/
structure SnapshotAt (H : Host) (g : State) (blocks : List TickBlock) (k : ℕ) (body : SnapshotBody) :
    Prop where
  version : body.snapshot_version = SNAPSHOT_VERSION
  tick : body.covered_tick = k
  offset : body.wal_offset = ((walBytes (blocks.take k)).length : ℕ)
  live : LiveAfter H g (blocks.take k) body.incr

/-- Recovery from the text of a snapshot and the log of blocks: the live state and the number of ticks. -/
def recoverAt (H : Host) (g : State) (blocks : List TickBlock) (text : Str) :
    Except Throw (IncrementalState × ℕ) := do
  let body ← decodeSnapshot text
  let node ← openTail H ⟨[], walBytes blocks, [], none⟩ g body
  pure node.live

/-- The fold of all lines of the log of blocks. -/
def refold (H : Host) (g : State) (blocks : List TickBlock) :
    Except Throw (IncrementalState × ℕ) := do
  let node ← openFull H ⟨[], walBytes blocks, [], none⟩ g
  pure node.live

theorem SnapshotAt.covers {k : ℕ} {body : SnapshotBody} (h : SnapshotAt H g blocks k body)
    (hk : k ≤ blocks.length) : Covers H g blocks 0 k body :=
  ⟨h.tick, Nat.zero_le k, hk, h.offset, h.live⟩

theorem live_of_refold {incr : IncrementalState} (hdurable : ∀ b ∈ blocks, b.Durable)
    (h : LiveAfter H g blocks incr) : refold H g blocks = .ok (incr, blocks.length) := by
  obtain ⟨folded, hfold, hincr⟩ := h
  rw [refold, openFull, readBlocks_walBytes hdurable, ok_bind, hfold, ok_bind, ← hincr]
  rfl

theorem logHolds_walBytes (h : ∀ b ∈ blocks, b.Durable) : LogHolds blocks 0 (walBytes blocks) :=
  ⟨h, Nat.zero_le _, rfl⟩

theorem durable_take (h : ∀ b ∈ blocks, b.Durable) (n : ℕ) : ∀ b ∈ blocks.take n, b.Durable :=
  fun b hb => h b (List.mem_of_mem_take hb)

/-- A fold that succeeds succeeds on each part. -/
theorem LiveAfter.take {incr : IncrementalState} (h : LiveAfter H g blocks incr) (n : ℕ) :
    ∃ incr', LiveAfter H g (blocks.take n) incr' := by
  obtain ⟨folded, hfold, -⟩ := h
  rw [← List.take_append_drop n blocks, foldBlocks_append] at hfold
  obtain ⟨first, hfirst, -⟩ := bind_eq_ok.mp hfold
  exact ⟨first.incr, first, hfirst, rfl⟩

theorem SnapshotAt.take {k n : ℕ} {body : SnapshotBody} (h : SnapshotAt H g blocks k body)
    (hk : k ≤ n) : SnapshotAt H g (blocks.take n) k body := by
  have htake : (blocks.take n).take k = blocks.take k := by rw [List.take_take, min_eq_left hk]
  refine ⟨h.version, h.tick, ?_, ?_⟩
  · rw [htake]
    exact h.offset
  · rw [htake]
    exact h.live

/-- Recovery from a snapshot that is read back ends where the fold of all blocks does. -/
theorem recoverAt_eq_refold {k : ℕ} {body : SnapshotBody} {incr : IncrementalState}
    (hdurable : ∀ b ∈ blocks, b.Durable) (hk : k ≤ blocks.length)
    (hbody : SnapshotAt H g blocks k body)
    (hdecode : decodeSnapshot (encodeSnapshot body) = .ok body) (hlive : LiveAfter H g blocks incr) :
    recoverAt H g blocks (encodeSnapshot body) = refold H g blocks := by
  have hopen := @openTail_readOn H g blocks 0 k ⟨[], walBytes blocks, [], none⟩ _ body incr
    (logHolds_walBytes hdurable) (hbody.covers hk) hlive [] (List.append_nil _).symm
  obtain ⟨node, hnode, hnode_live⟩ := map_eq_ok.mp (hopen.trans readOn_nil)
  rw [live_of_refold hdurable hlive, recoverAt, hdecode, ok_bind, hnode, ok_bind, hnode_live]
  rfl

/-- At the end of the log there is nothing to fold: recovery gives back what the snapshot holds. -/
theorem recoverAt_end {k : ℕ} {body : SnapshotBody} {r : IncrementalState × ℕ}
    (hord : body.incr.state.fits ordered = true) (hbody : SnapshotAt H g blocks k body)
    (h : recoverAt H g (blocks.take k) (encodeSnapshot body) = .ok r) :
    ∃ b, decodeSnapshot (encodeSnapshot body) = .ok b ∧ r.1 = b.incr := by
  simp only [recoverAt, bind_eq_ok, pure_eq_ok] at h
  obtain ⟨b, hb, node, hnode, rfl⟩ := h
  refine ⟨b, hb, ?_⟩
  obtain ⟨raw, state, -, -, hstate⟩ := (decodeSnapshot_encode_eq_ok hbody.version hord).mp hb
  have hdrop : (walBytes (blocks.take k)).drop b.wal_offset.toNat = [] := by
    rw [hstate]
    change (walBytes (blocks.take k)).drop body.wal_offset.toNat = []
    rw [hbody.offset, Int.toNat_natCast, List.drop_length]
  have hread : readBlocks (utf8Decode []) = .ok [] := @readBlocks_walBytes [] (fun b hb => by cases hb)
  simp only [openTail, hdrop, hread, ok_bind, foldBlocks_nil, pure_eq_ok] at hnode
  rw [← hnode]
  rfl

/-- The live states at the cuts of blocks. -/
def StatesMeet (H : Host) (g : State) (blocks : List TickBlock) (P : State → Prop) : Prop :=
  ∀ k ≤ blocks.length, ∀ incr, LiveAfter H g (blocks.take k) incr → P incr.state

/-- If recovery at the end of the log is the fold, then the snapshot has no function in its state. -/
theorem functionFree_of_recover {k : ℕ} {body : SnapshotBody} (hg : g.fits ordered = true)
    (hdurable : ∀ b ∈ blocks, b.Durable) (hbody : SnapshotAt H g blocks k body)
    (h : recoverAt H g (blocks.take k) (encodeSnapshot body) = refold H g (blocks.take k)) :
    body.incr.state.fits functionFree = true := by
  have hdurable := durable_take hdurable k
  have hord : body.incr.state.fits ordered = true := by
    obtain ⟨folded, hfold, hincr⟩ := hbody.live
    rw [← hincr]
    exact foldBlocks_ordered hg hdurable hfold
  rw [live_of_refold hdurable hbody.live] at h
  obtain ⟨b, hb, hsame⟩ := recoverAt_end hord hbody h
  obtain ⟨raw, state, -, -, rfl⟩ := (decodeSnapshot_encode_eq_ok hbody.version hord).mp hb
  -- the state that is read is the one that was written
  have hstate : body.incr.state = state := congrArg IncrementalState.state hsame
  have hdecode : decodeSnapshot (encodeSnapshot body) = .ok body := by
    rw [hb, ← hstate]
    rfl
  exact (lossless_iff.mp ((decodeSnapshot_encode hbody.version hord).mp hdecode)).2

/-- Of blocks that the fold applies, recovery from the snapshot after any of them is the fold of all of
them, at each length of the log, exactly if no live state has a function in it. -/
theorem recovery_equivalence (hg : g.fits ordered = true) (hdurable : ∀ b ∈ blocks, b.Durable)
    (hfold : ∃ incr, LiveAfter H g blocks incr)
    (htags : StatesMeet H g blocks fun s => s.fits (tagFree [BIGINT_TAG, BYTES_TAG]) = true) :
    (∀ n ≤ blocks.length, ∀ k ≤ n, ∀ body, SnapshotAt H g blocks k body →
      recoverAt H g (blocks.take n) (encodeSnapshot body) = refold H g (blocks.take n)) ↔
    StatesMeet H g blocks fun s => s.fits functionFree = true := by
  obtain ⟨incr, hlive⟩ := hfold
  have hordered : ∀ k incr, LiveAfter H g (blocks.take k) incr → incr.state.fits ordered = true := by
    rintro k incr ⟨folded, hfold, rfl⟩
    exact foldBlocks_ordered hg (durable_take hdurable k) hfold
  constructor
  · intro hrecover k hk incr hincr
    -- the snapshot after `k` blocks, with the log that ends there
    let body : SnapshotBody := ⟨SNAPSHOT_VERSION, k, (walBytes (blocks.take k)).length, [], [], incr⟩
    have hbody : SnapshotAt H g blocks k body := ⟨rfl, rfl, rfl, hincr⟩
    exact functionFree_of_recover hg hdurable hbody (hrecover k hk k le_rfl body hbody)
  · intro hfree n hn k hk body hbody
    obtain ⟨incr', hlive'⟩ := hlive.take n
    have hlossless := lossless_iff.mpr
      ⟨htags k (hk.trans hn) _ hbody.live, hfree k (hk.trans hn) _ hbody.live⟩
    have hdecode := (decodeSnapshot_encode hbody.version (hordered k _ hbody.live)).mpr hlossless
    have hlength : k ≤ (blocks.take n).length := by
      rw [List.length_take]
      omega
    exact recoverAt_eq_refold (durable_take hdurable n) hlength (hbody.take hk) hdecode hlive'

instance (P : State → Prop) [DecidablePred P] : Decidable (StatesMeet H g blocks P) :=
  have : ∀ k, Decidable (∀ folded, foldBlocks H (initIncremental g) (blocks.take k) = .ok folded →
      P folded.incr.state) := fun k => decideOk _ fun folded => inferInstance
  decidable_of_iff (∀ k < blocks.length + 1, ∀ folded,
      foldBlocks H (initIncremental g) (blocks.take k) = .ok folded → P folded.incr.state) (by
    unfold StatesMeet LiveAfter
    constructor
    · rintro h k hk incr ⟨folded, hfold, rfl⟩
      exact h k (by omega) folded hfold
    · intro h k hk folded hfold
      exact h k (by omega) folded.incr ⟨folded, hfold, rfl⟩)

theorem recovery_equivalence_idle :
    (∀ n ≤ 2, ∀ k ≤ n, ∀ body, SnapshotAt Escape.host genesis [⟨0, []⟩, ⟨1, []⟩] k body →
      recoverAt Escape.host genesis ([⟨0, []⟩, ⟨1, []⟩].take n) (encodeSnapshot body) =
        refold Escape.host genesis ([⟨0, []⟩, ⟨1, []⟩].take n)) ↔
    StatesMeet Escape.host genesis [⟨0, []⟩, ⟨1, []⟩] fun s => s.fits functionFree = true := by
  obtain ⟨folded, hfold⟩ := exists_of_isOk
    (x := foldBlocks Escape.host (initIncremental genesis) [⟨0, []⟩, ⟨1, []⟩]) (by decide +kernel)
  exact recovery_equivalence (by decide +kernel) (by decide +kernel) ⟨folded.incr, folded, hfold, rfl⟩
    (by decide +kernel)

/-- A delta that deletes below a method that every object inherits. The copy that it makes of the state
has the method as a member. -/
def deleteMethod : Json :=
  .obj [(js "ns", .str (js "toString")), (js "op", .str (js "delete")),
    (js "path", .arr [.str (js "x")])]

/-- A tick with a submission whose step has this effect. -/
def deletesMethod : TickBlock :=
  ⟨0, [{ submitFeed .atomic with
    trace := { (submitFeed .atomic).trace with steps := [⟨true, [deleteMethod], none⟩] } }]⟩

/-- A snapshot of a live state with a function in it is not what the fold of the log gives. -/
theorem snapshot_loses_method :
    ¬∀ (H : Host) (g : State) (blocks : List TickBlock), g.fits ordered = true →
      (∀ b ∈ blocks, b.Durable) → (∃ incr, LiveAfter H g blocks incr) →
      (StatesMeet H g blocks fun s => s.fits (tagFree [BIGINT_TAG, BYTES_TAG]) = true) →
      ∀ k ≤ blocks.length, ∀ body, SnapshotAt H g blocks k body →
        recoverAt H g blocks (encodeSnapshot body) = refold H g blocks := by
  intro h
  obtain ⟨folded, hfold, htest⟩ := exists_of_any
    (x := foldBlocks Escape.host (initIncremental feedState) [deletesMethod])
    (p := fun folded => folded.incr.state.fits (tagFree [BIGINT_TAG, BYTES_TAG]) &&
      !folded.incr.state.fits functionFree) (by decide +kernel)
  rw [Bool.and_eq_true, Bool.not_eq_true'] at htest
  obtain ⟨htags, hfunction⟩ := htest
  have hlive : LiveAfter Escape.host feedState [deletesMethod] folded.incr := ⟨folded, hfold, rfl⟩
  have hmeet : StatesMeet Escape.host feedState [deletesMethod]
      fun s => s.fits (tagFree [BIGINT_TAG, BYTES_TAG]) = true := by
    intro k hk incr hincr
    rcases Nat.le_one_iff_eq_zero_or_eq_one.mp hk with rfl | rfl
    · obtain ⟨first, hfirst, rfl⟩ := hincr
      cases hfirst
      decide +kernel
    · rw [hincr.unique hlive]
      exact htags
  have hdurable : ∀ b ∈ [deletesMethod], b.Durable := by decide +kernel
  have hord : feedState.fits ordered = true := by decide +kernel
  let body : SnapshotBody :=
    ⟨SNAPSHOT_VERSION, 1, (walBytes [deletesMethod]).length, [], [], folded.incr⟩
  have hbody : SnapshotAt Escape.host feedState [deletesMethod] 1 body := ⟨rfl, rfl, rfl, hlive⟩
  have heq := h _ _ _ hord hdurable ⟨_, hlive⟩ hmeet 1 le_rfl body hbody
  have hfree : folded.incr.state.fits functionFree = true :=
    functionFree_of_recover hord hdurable hbody heq
  rw [hfunction] at hfree
  cases hfree

end ParadigmTerra
