import ParadigmTerra.Node.EventLog
import ParadigmTerra.Node.Roots

/-!
# Transcripts and their replay

`run` folds the tick blocks of a program and records the state root after each event of each submission,
and after each block. `replay` folds the event log again from the genesis state, and `verifyReplay`
looks for the roots of the blocks among the roots that it finds.

The fold of a block is a scan of its events (`TickSpec`): after a tick advance, for which `run` records no
root, come the recorded events with their roots. `replay_reproduces_iff` says that a replay finds the same
roots and the same end, unless the first event of the log is a tick advance to a state without a root.

A block that logs no event has the root of the block before it, for which `verifyReplay` looks in vain.
`verifyReplay_honest` is about the programs whose blocks all log an event (`BlocksLog`).
-/

namespace ParadigmTerra

open Text OrderedMap Fallible

variable {H : Host}

/-- A genesis state and tick blocks. -/
structure Program where
  genesisState : Option State
  ticks : List TickBlock

/-- What a run leaves. -/
structure Transcript where
  genesisState : State
  ticks : List TickResult
  eventLog : List Event
  finalStateRoot : Str

/-- The start state of a program. -/
def Program.start (program : Program) : State := program.genesisState.getD genesis

/-- Runs a program. -/
def Program.run (H : Host) (program : Program) : Except Throw Transcript := do
  let folded ← foldBlocks H (initIncremental program.start) program.ticks
  let root ← stateRootOf H folded.incr.state
  pure ⟨program.start, folded.tickResults, folded.eventLog, hex root⟩

/-- The state root after each event, the last of them, and the event that was rejected, if one was. -/
structure ReplayResult where
  stateRoots : List Str
  finalStateRoot : Str
  error : Option (ApplyErrorCode × ℕ)

/-- Folds an event log again. -/
def replay (H : Host) (eventLog : List Event) (genesisState : Option State) :
    Except Throw ReplayResult := do
  let start := genesisState.getD genesis
  let (roots, error) ← scanStateRoots H eventLog start
  match roots.getLast? with
  | some root => pure ⟨roots, root, error⟩
  | none => do
    let root ← stateRootOf H start
    pure ⟨roots, hex root, error⟩

/-- Looks for the roots one after another, each of them behind the one before. -/
def inOrder : List Str → List Str → Bool
  | [], _ => true
  | r :: rs, stateRoots =>
    match stateRoots.dropWhile (· ≠ r) with
    | [] => false
    | _ :: rest => inOrder rs rest

/-- Checks a transcript by a replay of its log. -/
def verifyReplay (H : Host) (t : Transcript) : Except Throw Bool := do
  let r ← replay H t.eventLog (some t.genesisState)
  if r.error.isSome || r.finalStateRoot ≠ t.finalStateRoot then pure false
  else pure (inOrder (t.ticks.map TickResult.stateRoot) r.stateRoots)

/-! ## The carried hash -/

/-- The hash that is carried behind events: that of the last, or the one from before. -/
def HashAfter (H : Host) (h : List UInt8) (evs : List Event) (h' : List UInt8) : Prop :=
  match evs.getLast? with
  | none => h' = h
  | some ev => eventHash H ev = .ok h'

theorem HashAfter.append {h h' h'' : List UInt8} {evs evs' : List Event} (hfst : HashAfter H h evs h')
    (hsnd : HashAfter H h' evs' h'') : HashAfter H h (evs ++ evs') h'' := by
  unfold HashAfter at *
  rw [List.getLast?_append]
  cases hl : evs'.getLast? with
  | some ev =>
    rw [hl] at hsnd
    exact hsnd
  | none =>
    rw [hl] at hsnd
    rw [Option.none_or, hsnd]
    exact hfst

/-- `g` is reached from `f` by the events, and carries their number and the hash of the last. -/
structure Fold.Logs (H : Host) (f : Fold) (evs : List Event) (g : Fold) : Prop where
  extends_ : f.Extends evs g
  hash : HashAfter H f.lastEventHash evs g.lastEventHash

/-- `g` is reached from `f` by the events, each with the root after it. -/
structure Fold.Records (H : Host) (f : Fold) (l : List (Event × Str)) (g : Fold) : Prop where
  logs : f.Logs H (l.map Prod.fst) g
  scans : Scans H f.state l g.state

section

variable {f g k : Fold} {ev : Event} {l m : List (Event × Str)}

theorem Fold.Logs.trans {evs evs' : List Event} (h : f.Logs H evs g) (h' : g.Logs H evs' k) :
    f.Logs H (evs ++ evs') k := ⟨h.extends_.trans h'.extends_, h.hash.append h'.hash⟩

theorem Fold.Records.refl (f : Fold) : f.Records H [] f := ⟨⟨.refl f, rfl⟩, .nil _⟩

theorem Fold.Records.trans (h : f.Records H l g) (h' : g.Records H m k) : f.Records H (l ++ m) k :=
  ⟨by rw [List.map_append]; exact h.logs.trans h'.logs, h.scans.append h'.scans⟩

theorem fold_logs (h : f.fold H ev = .ok (.ok g)) : f.Logs H [ev] g := by
  refine ⟨fold_extends h, ?_⟩
  simp only [Fold.fold, bind_eq_ok] at h
  obtain ⟨r, hr, h⟩ := h
  cases r with
  | rejected code => cases h
  | ok s =>
    simp only [bind_eq_ok, pure_eq_ok] at h
    obtain ⟨e, he, h⟩ := h
    cases h
    exact he

/-- What a submission does to the fold and to its own record. -/
structure Recording (H : Host) (p : Fold × Recorded) (l : List (Event × Str)) (q : Fold × Recorded) :
    Prop where
  records : p.1.Records H l q.1
  events : q.2.events = p.2.events ++ l.map Prod.fst
  stateRoots : q.2.stateRoots = p.2.stateRoots ++ l.map Prod.snd

theorem Recording.refl (p : Fold × Recorded) : Recording H p [] p :=
  ⟨.refl _, by simp, by simp⟩

theorem Recording.trans {p q r : Fold × Recorded} (h : Recording H p l q) (h' : Recording H q m r) :
    Recording H p (l ++ m) r :=
  ⟨h.records.trans h'.records, by rw [h'.events, h.events, List.append_assoc, List.map_append],
    by rw [h'.stateRoots, h.stateRoots, List.append_assoc, List.map_append]⟩

/-- An event that is folded and recorded. -/
theorem record_recording {p : Fold × Recorded} {r : Recorded} (h : p.1.fold H ev = .ok (.ok f))
    (hr : p.2.record H f ev = .ok r) : ∃ root, Recording H p [(ev, root)] (f, r) := by
  simp only [Recorded.record, bind_eq_ok, pure_eq_ok] at hr
  obtain ⟨root, hroot, rfl⟩ := hr
  have hlogs := fold_logs h
  obtain ⟨t, -, hacc, hnil⟩ := run_cons hlogs.extends_.run
  rw [run_nil hnil] at hacc
  exact ⟨hex root, ⟨⟨hlogs, .cons hacc hroot (.nil _)⟩, rfl, rfl⟩⟩

theorem foldEmitted_recording {what : Str} {p q : Fold × Recorded}
    (h : foldEmitted H what p ev = .ok q) : ∃ root, Recording H p [(ev, root)] q := by
  simp only [foldEmitted, bind_eq_ok] at h
  obtain ⟨r, hr, h⟩ := h
  cases r with
  | error code => simp at h
  | ok f =>
    simp only [bind_eq_ok, pure_eq_ok] at h
    obtain ⟨r, hrec, rfl⟩ := h
    exact record_recording hr hrec

theorem foldlM_foldEmitted_recording {what : Str} {evs : List Event} {p q : Fold × Recorded}
    (h : evs.foldlM (foldEmitted H what) p = .ok q) : ∃ l, Recording H p l q := by
  induction evs generalizing p with
  | nil =>
    cases foldlM_nil_ok.mp h
    exact ⟨[], .refl _⟩
  | cons ev evs ih =>
    obtain ⟨u, hu, h⟩ := foldlM_cons_ok.mp h
    obtain ⟨root, hroot⟩ := foldEmitted_recording hu
    obtain ⟨l, hl⟩ := ih h
    exact ⟨_, hroot.trans hl⟩

theorem ingress_recording {evs : List Event} {p : Fold × Recorded}
    {q : (Fold × Recorded) × Option ApplyErrorCode} (h : ingress H evs p = .ok q) :
    ∃ l, Recording H p l q.1 := by
  induction evs generalizing p with
  | nil =>
    cases h
    exact ⟨[], .refl p⟩
  | cons ev evs ih =>
    simp only [ingress, bind_eq_ok] at h
    obtain ⟨r, hr, h⟩ := h
    cases r with
    | error code =>
      cases h
      exact ⟨[], .refl p⟩
    | ok f =>
      simp only [bind_eq_ok] at h
      obtain ⟨r, hrec, h⟩ := h
      obtain ⟨root, hroot⟩ := record_recording hr hrec
      obtain ⟨l, hl⟩ := ih h
      exact ⟨_, hroot.trans hl⟩

end

/-! ## Submissions -/

/-- The events of a submission, each with the root that is recorded after it. -/
def SubmissionResult.recorded (r : SubmissionResult) : List (Event × Str) := r.events.zip r.stateRoots

/-- The result has as many roots as events. -/
def SubmissionResult.Aligned (r : SubmissionResult) : Prop := r.events.length = r.stateRoots.length

/-- The result of a submission holds the record. -/
structure SubmissionResult.Holds (r : SubmissionResult) (rec : Recorded) : Prop where
  events : r.events = rec.events
  stateRoots : r.stateRoots = rec.stateRoots

theorem drive_recording {sub : Submission} {ch agent : Str} {trace : ExecutionTrace}
    {p : Fold × Recorded} {q : Fold × SubmissionResult} (h : drive H sub ch agent trace p = .ok q) :
    ∃ l r, Recording H p l (q.1, r) ∧ q.2.Holds r := by
  unfold drive at h
  split at h
  · simp only [bind_eq_ok, pure_eq_ok] at h
    obtain ⟨res, -, r, hr, rfl⟩ := h
    obtain ⟨l, hl⟩ := foldlM_foldEmitted_recording hr
    exact ⟨l, r.2, hl, rfl, rfl⟩
  · simp only [bind_eq_ok, pure_eq_ok] at h
    obtain ⟨s1, -, r, hr, rfl⟩ := h
    obtain ⟨l, hl⟩ := foldlM_foldEmitted_recording hr
    exact ⟨l, r.2, hl, rfl, rfl⟩
  · simp only [bind_eq_ok, pure_eq_ok] at h
    obtain ⟨res, -, r, hr, rfl⟩ := h
    obtain ⟨l, hl⟩ := foldlM_foldEmitted_recording hr
    exact ⟨l, r.2, hl, rfl, rfl⟩

theorem recorded_of_recording {p : Fold × Recorded} {r : SubmissionResult} {rec : Recorded} {f : Fold}
    {l : List (Event × Str)} (h : Recording H p l (f, rec)) (hp : p.2 = ⟨[], []⟩) (hr : r.Holds rec) :
    r.recorded = l ∧ r.Aligned := by
  have hevents : r.events = l.map Prod.fst := by
    rw [hr.events, h.events, hp]
    rfl
  have hroots : r.stateRoots = l.map Prod.snd := by
    rw [hr.stateRoots, h.stateRoots, hp]
    rfl
  constructor
  · rw [SubmissionResult.recorded, hevents, hroots, List.zip_map']
    simp
  · rw [SubmissionResult.Aligned, hevents, hroots, List.length_map, List.length_map]

/-- What one submission logs is what its result records. -/
theorem applySubmission_records {tick : ℤ} {sub : Submission} {f : Fold} {q : Fold × SubmissionResult}
    (h : applySubmission H tick f sub = .ok q) :
    f.Records H q.2.recorded q.1 ∧ q.2.Aligned := by
  simp only [applySubmission, bind_eq_ok] at h
  obtain ⟨b, -, agent, -, h⟩ := h
  split at h
  · obtain ⟨l, r, hl, hr⟩ := drive_recording h
    obtain ⟨hrec, halign⟩ := recorded_of_recording hl rfl hr
    exact ⟨hrec ▸ hl.records, halign⟩
  · simp only [bind_eq_ok] at h
    obtain ⟨⟨p, rejected⟩, hin, h⟩ := h
    obtain ⟨l, hl⟩ := ingress_recording hin
    cases rejected with
    | some code =>
      cases h
      obtain ⟨hrec, halign⟩ := recorded_of_recording (r := ⟨hex b, agent, none, none, p.2.events,
        p.2.stateRoots, some code⟩) hl rfl ⟨rfl, rfl⟩
      exact ⟨hrec ▸ hl.records, halign⟩
    | none =>
      obtain ⟨l', r, hl', hr⟩ := drive_recording h
      have hall := Recording.trans hl hl'
      obtain ⟨hrec, halign⟩ := recorded_of_recording hall rfl hr
      exact ⟨hrec ▸ hall.records, halign⟩

theorem applySubmissions_records {tick : ℤ} {subs : List Submission} {f : Fold}
    {q : Fold × List SubmissionResult} (h : applySubmissions H tick f subs = .ok q) :
    f.Records H (q.2.flatMap SubmissionResult.recorded) q.1 ∧ ∀ r ∈ q.2, r.Aligned := by
  induction subs generalizing f q with
  | nil =>
    cases h
    exact ⟨.refl _, nofun⟩
  | cons sub subs ih =>
    simp only [applySubmissions, bind_eq_ok, pure_eq_ok] at h
    obtain ⟨p, hp, r, hr, rfl⟩ := h
    obtain ⟨hone, halign⟩ := applySubmission_records hp
    obtain ⟨hrest, haligns⟩ := ih hr
    refine ⟨?_, List.forall_mem_cons.mpr ⟨halign, haligns⟩⟩
    rw [List.flatMap_cons]
    exact hone.trans hrest

/-! ## Blocks -/

/-- The events of the submissions of a block, each with the root that is recorded after it. -/
def TickResult.recorded (tk : TickResult) : List (Event × Str) :=
  tk.submissions.flatMap SubmissionResult.recorded

/-- What one block does: a tick advance, if the block is at a later tick, and the recorded events. -/
structure TickSpec (H : Host) (incr : IncrementalState) (block : TickBlock) (step : TickStep)
    (pre : List Event) (s : State) : Prop where
  front : pre = if incr.currentTick < block.tick then [advancedEvent block.tick] else []
  advanced : AcceptsAll incr.state pre s
  scans : Scans H s step.tickResult.recorded step.next.state
  events : step.events = pre ++ step.tickResult.recorded.map Prod.fst
  eventCount : step.next.eventCount = incr.eventCount + step.events.length
  hash : HashAfter H incr.lastEventHash step.events step.next.lastEventHash
  aligned : ∀ r ∈ step.tickResult.submissions, r.Aligned
  tick : step.tickResult.tick = tickAt incr block ∧ step.next.currentTick = tickAt incr block
  root : ∃ r, stateRootOf H step.next.state = .ok r ∧ step.tickResult.stateRoot = hex r

theorem advanceTick_logs {current tick : ℤ} {f g : Fold} (h : advanceTick H current f tick = .ok g) :
    f.Logs H (if current < tick then [advancedEvent tick] else []) g := by
  unfold advanceTick at h
  split at h
  · next hlt =>
    simp only [bind_eq_ok] at h
    obtain ⟨r, hr, h⟩ := h
    cases r with
    | error code => cases h
    | ok k =>
      cases h
      rw [if_pos hlt]
      exact fold_logs hr
  · next hlt =>
    cases h
    rw [if_neg hlt]
    exact ⟨.refl _, rfl⟩

theorem applyTick_spec {incr : IncrementalState} {block : TickBlock} {step : TickStep}
    (h : applyTick H incr block = .ok step) : ∃ pre s, TickSpec H incr block step pre s := by
  unfold applyTick at h
  split at h
  · simp at h
  · simp only [bind_eq_ok, pure_eq_ok] at h
    obtain ⟨f, hf, q, hq, root, hroot, _, -, rfl⟩ := h
    have hadv := advanceTick_logs hf
    obtain ⟨hrec, haligned⟩ := applySubmissions_records hq
    have hall := hadv.trans hrec.logs
    have hevents : q.1.events = _ := hall.extends_.events
    rw [List.nil_append] at hevents
    refine ⟨_, f.state, rfl, hadv.extends_.run, hrec.scans, hevents, ?_, ?_, haligned, ⟨rfl, rfl⟩,
      root, hroot, rfl⟩
    · exact hevents ▸ hall.extends_.eventCount
    · exact hevents ▸ hall.hash

/-- A fold goes on from where the blocks before ended. -/
theorem foldBlocks_from (blocks : List TickBlock) (acc : Folded) :
    blocks.foldlM (fun acc b => do
      let step ← applyTick H acc.incr b
      pure (⟨step.next, acc.tickResults ++ [step.tickResult], acc.eventLog ++ step.events⟩ : Folded))
      acc = (do
        let r ← foldBlocks H acc.incr blocks
        pure ⟨r.incr, acc.tickResults ++ r.tickResults, acc.eventLog ++ r.eventLog⟩) := by
  induction blocks generalizing acc with
  | nil => simp [foldBlocks]
  | cons b bs ih =>
    rw [foldBlocks, List.foldlM_cons, List.foldlM_cons]
    cases hstep : applyTick H acc.incr b with
    | error e => rfl
    | ok step =>
      simp only [ok_bind, pure_bind, ih]
      cases foldBlocks H step.next bs with
      | error e => rfl
      | ok r => simp

theorem foldBlocks_cons (incr : IncrementalState) (b : TickBlock) (bs : List TickBlock) :
    foldBlocks H incr (b :: bs) = (do
      let step ← applyTick H incr b
      let r ← foldBlocks H step.next bs
      pure ⟨r.incr, step.tickResult :: r.tickResults, step.events ++ r.eventLog⟩) := by
  rw [foldBlocks, List.foldlM_cons]
  cases applyTick H incr b with
  | error e => rfl
  | ok step =>
    simp only [ok_bind, pure_bind, foldBlocks_from]
    rfl

theorem foldBlocks_nil (incr : IncrementalState) : foldBlocks H incr [] = .ok ⟨incr, [], []⟩ := rfl

/-- The fold of a whole is the fold of its second part from where the first ended. -/
theorem foldBlocks_append (incr : IncrementalState) (pre post : List TickBlock) :
    foldBlocks H incr (pre ++ post) = (do
      let first ← foldBlocks H incr pre
      let second ← foldBlocks H first.incr post
      pure ⟨second.incr, first.tickResults ++ second.tickResults,
        first.eventLog ++ second.eventLog⟩) := by
  induction pre generalizing incr with
  | nil =>
    rw [List.nil_append, foldBlocks_nil, ok_bind]
    cases foldBlocks H incr post <;> rfl
  | cons b bs ih =>
    rw [List.cons_append, foldBlocks_cons, foldBlocks_cons]
    cases applyTick H incr b with
    | error e => rfl
    | ok step =>
      simp only [ok_bind, ih]
      cases foldBlocks H step.next bs with
      | error e => rfl
      | ok first =>
        simp only [ok_bind, pure_bind]
        cases foldBlocks H first.incr post with
        | error e => rfl
        | ok second => simp

/-- The state carries the number of the logged events and the hash of the last. -/
def Carries (H : Host) (incr : IncrementalState) (folded : Folded) : Prop :=
  folded.incr.eventCount = incr.eventCount + folded.eventLog.length ∧
    HashAfter H incr.lastEventHash folded.eventLog folded.incr.lastEventHash

theorem foldBlocks_carries {incr : IncrementalState} {blocks : List TickBlock} {folded : Folded}
    (h : foldBlocks H incr blocks = .ok folded) : Carries H incr folded := by
  induction blocks generalizing incr folded with
  | nil =>
    cases h
    exact ⟨rfl, rfl⟩
  | cons b bs ih =>
    rw [foldBlocks_cons] at h
    simp only [bind_eq_ok, pure_eq_ok] at h
    obtain ⟨step, hstep, r, hr, rfl⟩ := h
    obtain ⟨pre, s, hspec⟩ := applyTick_spec hstep
    obtain ⟨hcount, hhash⟩ := ih hr
    refine ⟨?_, hspec.hash.append hhash⟩
    rw [hcount, hspec.eventCount, List.length_append, Nat.add_assoc]

/-! ## Replay -/

/-- A part of the log with its roots shows the result of a block: the recorded events with the recorded
roots, possibly behind a tick advance. -/
structure ShowsTick (tk : TickResult) (part : List (Event × Str)) : Prop where
  part : part = tk.recorded ∨ ∃ root, part = (advancedEvent tk.tick, root) :: tk.recorded
  aligned : ∀ r ∈ tk.submissions, r.Aligned

/-- If the first block is at a later tick, its tick advance leads to a state with a root: the start state
has one, but for the Bounded Mode flag. -/
def RootedStart (H : Host) (incr : IncrementalState) (blocks : List TickBlock) : Prop :=
  ∀ b ∈ blocks.head?, incr.currentTick < b.tick → HasRoot H (flagged incr.state)

/-- The tick advance of the first block leads to a state with a root. -/
theorem TickSpec.scans_all (hH : H.Ascii) {incr : IncrementalState} {block : TickBlock}
    {step : TickStep} {pre : List Event} {s : State} (hspec : TickSpec H incr block step pre s)
    (hroot : incr.currentTick < block.tick → HasRoot H (flagged incr.state)) :
    ∃ part, ShowsTick step.tickResult part ∧ Scans H incr.state part step.next.state ∧
      step.events = part.map Prod.fst := by
  by_cases hlt : incr.currentTick < block.tick
  · have hpre := hspec.front
    rw [if_pos hlt] at hpre
    subst hpre
    obtain ⟨t, -, hacc, hnil⟩ := run_cons hspec.advanced
    rw [run_nil hnil] at hacc
    obtain ⟨r, hr⟩ := (hasRoot_advanced_iff hH hacc).mpr (hroot hlt)
    have htick : step.tickResult.tick = block.tick := by
      rw [hspec.tick.1, tickAt, if_pos hlt]
    exact ⟨_, ⟨.inr ⟨hex r, htick ▸ rfl⟩, hspec.aligned⟩, .cons hacc hr hspec.scans, hspec.events⟩
  · have hpre := hspec.front
    rw [if_neg hlt] at hpre
    subst hpre
    have hs := run_nil hspec.advanced
    exact ⟨_, ⟨.inl rfl, hspec.aligned⟩, hs ▸ hspec.scans, hspec.events⟩

/-- The log of a fold is a scan, block by block. -/
theorem foldBlocks_scans (hH : H.Ascii) {incr : IncrementalState} {blocks : List TickBlock}
    {folded : Folded} (hstart : RootedStart H incr blocks) (h : foldBlocks H incr blocks = .ok folded) :
    ∃ parts, List.Forall₂ ShowsTick folded.tickResults parts ∧
      Scans H incr.state parts.flatten folded.incr.state ∧
      folded.eventLog = parts.flatten.map Prod.fst := by
  induction blocks generalizing incr folded with
  | nil =>
    cases h
    exact ⟨[], .nil, .nil _, rfl⟩
  | cons b bs ih =>
    rw [foldBlocks_cons] at h
    simp only [bind_eq_ok, pure_eq_ok] at h
    obtain ⟨step, hstep, r, hr, rfl⟩ := h
    obtain ⟨pre, s, hspec⟩ := applyTick_spec hstep
    obtain ⟨part, hshows, hscans, hevents⟩ := hspec.scans_all hH (hstart b rfl)
    obtain ⟨root, hroot, -⟩ := hspec.root
    -- behind a block the state has a root
    have hnext : HasRoot H (flagged step.next.state) := HasRoot.setIn hH ⟨root, hroot⟩ (by decide)
      (hH.isCanonicalString (by decide)) (hasBytes_bool false)
    obtain ⟨parts, hparts, hrest, hlog⟩ := ih (fun _ _ _ => hnext) hr
    refine ⟨part :: parts, .cons hshows hparts, ?_, ?_⟩
    · rw [List.flatten_cons]
      exact hscans.append hrest
    · rw [List.flatten_cons, List.map_append, hevents, hlog]

/-- The replay of a scan. -/
theorem replay_scans {s t : State} {l : List (Event × Str)} (h : Scans H s l t) {root : List UInt8}
    (hroot : stateRootOf H t = .ok root) :
    replay H (l.map Prod.fst) (some s) = .ok ⟨l.map Prod.snd, hex root, none⟩ := by
  simp only [replay, scanStateRoots, Option.getD_some, h.scanFrom_eq, ok_bind]
  by_cases hl : l = []
  · subst hl
    cases h
    simp [hroot]
  · obtain ⟨r, hr, hlast⟩ := h.getLast?_root hl
    rw [hroot] at hr
    cases hr
    rw [hlast]
    rfl

/-- The replay of a log finds what the run recorded: it rejects no event, finds the recorded root after
each event of each submission, and ends with the same root. -/
structure Reproduces (t : Transcript) (r : ReplayResult) : Prop where
  error : r.error = none
  recorded : ∃ parts, List.Forall₂ ShowsTick t.ticks parts ∧
    t.eventLog = parts.flatten.map Prod.fst ∧ r.stateRoots = parts.flatten.map Prod.snd
  finalStateRoot : r.finalStateRoot = t.finalStateRoot

/-- A scan that returns found a root for the state after the first event. -/
theorem hasRoot_of_scan {s t : State} {ev : Event} {evs : List Event} (hacc : Accepts s ev t)
    {r : List Str × Option (ApplyErrorCode × ℕ)} (h : scanStateRoots H (ev :: evs) s = .ok r) :
    HasRoot H t := by
  have hacc : apply s ev = .ok (.ok t) := hacc
  simp only [scanStateRoots, scanFrom, hacc, ok_bind, bind_eq_ok] at h
  obtain ⟨root, hroot, -⟩ := h
  exact ⟨root, hroot⟩

theorem run_eq_ok {program : Program} {t : Transcript} (h : program.run H = .ok t) :
    ∃ folded root, foldBlocks H (initIncremental program.start) program.ticks = .ok folded ∧
      stateRootOf H folded.incr.state = .ok root ∧
      t = ⟨program.start, folded.tickResults, folded.eventLog, hex root⟩ := by
  simp only [Program.run, bind_eq_ok, pure_eq_ok] at h
  obtain ⟨folded, hfold, root, hroot, rfl⟩ := h
  exact ⟨folded, root, hfold, hroot, rfl⟩

/-- A replay that returns found a root behind the tick advance of the first block. -/
theorem rootedStart_of_replay (hH : H.Ascii) {program : Program} {t : Transcript} {r : ReplayResult}
    (h : program.run H = .ok t) (hr : replay H t.eventLog (some t.genesisState) = .ok r) :
    RootedStart H (initIncremental program.start) program.ticks := by
  obtain ⟨folded, root, hfold, -, rfl⟩ := run_eq_ok h
  intro b hb hlt
  cases hticks : program.ticks with
  | nil =>
    rw [hticks] at hb
    cases hb
  | cons c bs =>
    rw [hticks] at hb hfold
    cases hb
    rw [foldBlocks_cons] at hfold
    simp only [bind_eq_ok, pure_eq_ok] at hfold
    obtain ⟨step, hstep, rest, -, rfl⟩ := hfold
    obtain ⟨pre, s, hspec⟩ := applyTick_spec hstep
    have hfront := hspec.front
    rw [if_pos hlt] at hfront
    subst hfront
    obtain ⟨u, -, hacc, -⟩ := run_cons hspec.advanced
    simp only [replay, Option.getD_some, hspec.events, List.cons_append, bind_eq_ok] at hr
    obtain ⟨scan, hscan, -⟩ := hr
    exact (hasRoot_advanced_iff hH hacc).mp (hasRoot_of_scan hacc hscan)

/-- The state takes the submission: it is a resumption, or its CAL is created. -/
def Taken (H : Host) (s : State) (sub : Submission) : Prop :=
  sub.mode = some .resume ∨
    ∃ ch agent t, sub.Names H ch agent ∧ Accepts s (createdEvent ch agent) t

/-- The block is at a later tick, or the state takes one of its submissions. -/
def LogsEvent (H : Host) (incr : IncrementalState) (block : TickBlock) : Prop :=
  incr.currentTick < block.tick ∨ ∃ sub ∈ block.submissions, Taken H incr.state sub

/-- Every block of a fold logs an event. -/
def BlocksLog (H : Host) : IncrementalState → List TickBlock → Prop
  | _, [] => True
  | incr, b :: bs => LogsEvent H incr b ∧
      ∀ step, applyTick H incr b = .ok step → BlocksLog H step.next bs

theorem Validator.phaseB_nonempty {v : Validator} {evs : List Event} {r : ValidationResult}
    (h : PhaseBEnd v evs r) : r.events ≠ [] := by
  obtain ⟨l, types, hl, htypes, hof⟩ := phaseB_types h
  have hne : types ≠ [] := by
    rintro rfl
    revert htypes
    decide
  intro hnil
  rw [hl, List.append_eq_nil_iff] at hnil
  obtain ⟨-, rfl⟩ := hnil
  cases hof
  exact hne rfl

/-- A submission that the state takes logs an event, any other logs none. -/
theorem adds_nonempty_iff {sub : Submission} {ch agent : Str} {tick : ℤ} {s t : State}
    {evs : List Event} (hnames : sub.Names H ch agent) (hadds : sub.Adds ch agent tick s evs)
    (hacc : AcceptsAll s evs t) : evs ≠ [] ↔ Taken H s sub := by
  have hcreated : ∀ l, evs = createdEvent ch agent :: l → Taken H s sub := by
    rintro l rfl
    obtain ⟨u, -, hu, -⟩ := run_cons hacc
    exact .inr ⟨ch, agent, u, hnames, hu⟩
  cases hadds with
  | rejected code hmode h =>
    refine ⟨fun hne => absurd rfl hne, fun htaken => ?_⟩
    rcases htaken with hm | ⟨ch', agent', u, hnames', hu⟩
    · exact absurd hm hmode
    · obtain ⟨rfl, rfl⟩ := hnames.unique hnames'
      have hu : apply s (createdEvent ch agent) = .ok (.ok u) := hu
      rw [h] at hu
      cases hu
  | unsigned hmode => exact ⟨fun _ => hcreated [] rfl, fun _ => by simp⟩
  | phaseA hmode hs h => exact ⟨fun _ => hcreated _ rfl, fun _ => by simp⟩
  | phaseB hmode hs ha hb => exact ⟨fun _ => hcreated _ rfl, fun _ => by simp⟩
  | resumed hmode h => exact ⟨fun _ => .inl hmode, fun _ => Validator.phaseB_nonempty h⟩

theorem applySubmissions_nonempty_iff {tick : ℤ} {subs : List Submission} {f : Fold}
    {q : Fold × List SubmissionResult} (h : applySubmissions H tick f subs = .ok q) :
    q.2.flatMap SubmissionResult.recorded ≠ [] ↔ ∃ sub ∈ subs, Taken H f.state sub := by
  induction subs generalizing f q with
  | nil =>
    cases h
    simp
  | cons sub subs ih =>
    simp only [applySubmissions, bind_eq_ok, pure_eq_ok] at h
    obtain ⟨p, hp, r, hr, rfl⟩ := h
    obtain ⟨ch, agent, evs, hnames, hadds, hext⟩ := applySubmission_adds hp
    have hone := adds_nonempty_iff hnames hadds hext.run
    have hrec := (applySubmission_records hp).1
    have hevs : evs = p.2.recorded.map Prod.fst := by
      have hsame := hrec.logs.extends_.events
      rw [hext.events] at hsame
      exact List.append_cancel_left hsame
    simp only [List.mem_cons, exists_eq_or_imp]
    rw [List.flatMap_cons, ← hone, hevs, ne_eq, ne_eq, List.map_eq_nil_iff, List.append_eq_nil_iff,
      not_and_or]
    by_cases hnil : p.2.recorded = []
    · -- the rest finds the same state
      have hstate : f.state = p.1.state := by
        have hscans := hrec.scans
        rw [hnil] at hscans
        exact hscans.eq_of_nil
      rw [hstate]
      exact or_congr Iff.rfl (ih hr)
    · exact ⟨fun _ => .inl hnil, fun _ => .inl hnil⟩

/-- A block that does not log an event leaves the state as it is. -/
theorem logsEvent_iff {incr : IncrementalState} {block : TickBlock} {step : TickStep}
    (h : applyTick H incr block = .ok step) : step.events ≠ [] ↔ LogsEvent H incr block := by
  unfold applyTick at h
  split at h
  · simp at h
  · simp only [bind_eq_ok, pure_eq_ok] at h
    obtain ⟨f, hf, q, hq, _, -, _, -, rfl⟩ := h
    have hadv := advanceTick_logs hf
    have hall := (hadv.trans (applySubmissions_records hq).1.logs).extends_.events
    have hsubs := applySubmissions_nonempty_iff hq
    rw [List.nil_append] at hall
    change q.1.events ≠ [] ↔ _
    rw [hall, ne_eq, List.append_eq_nil_iff, List.map_eq_nil_iff, not_and_or, LogsEvent]
    by_cases hlt : incr.currentTick < block.tick
    · simp [hlt]
    · have hstate : incr.state = f.state := by
        have hrun := hadv.extends_.run
        rw [if_neg hlt] at hrun
        exact run_nil hrun
      rw [if_neg hlt, hstate]
      exact or_congr (by simp [hlt]) hsubs

/-! ## Verification -/

theorem inOrder_iff {rs stateRoots : List Str} : inOrder rs stateRoots = true ↔ rs.Sublist stateRoots := by
  induction rs generalizing stateRoots with
  | nil => simp [inOrder]
  | cons r rs ih =>
    rw [inOrder]
    induction stateRoots with
    | nil => simp
    | cons x xs ihx =>
      by_cases hx : x = r
      · subst hx
        simp [ih]
      · have hdrop : (x :: xs).dropWhile (· ≠ r) = xs.dropWhile (· ≠ r) := by simp [hx]
        rw [hdrop, ihx]
        constructor
        · exact fun h => h.cons x
        · intro h
          cases h with
          | cons _ h => exact h
          | cons_cons => exact absurd rfl hx

/-- The last roots of parts that are not empty stand in order in the whole. -/
theorem sublist_flatten {rs : List Str} {parts : List (List (Event × Str))}
    (h : List.Forall₂ (fun r part => (List.map Prod.snd part).getLast? = some r) rs parts) :
    rs.Sublist (parts.flatten.map Prod.snd) := by
  induction h with
  | nil => exact List.Sublist.refl _
  | @cons r part rs parts hr _ ih =>
    rw [List.flatten_cons, List.map_append, ← List.singleton_append]
    refine List.Sublist.append ?_ ih
    rw [List.singleton_sublist]
    exact List.mem_of_getLast? hr

/-- The root of a block that logs an event is the last of its part. -/
theorem foldBlocks_lastRoots (hH : H.Ascii) {incr : IncrementalState} {blocks : List TickBlock}
    {folded : Folded} (hstart : RootedStart H incr blocks) (hlog : BlocksLog H incr blocks)
    (h : foldBlocks H incr blocks = .ok folded) : ∃ parts,
      List.Forall₂ (fun r part => (List.map Prod.snd part).getLast? = some r)
        (folded.tickResults.map TickResult.stateRoot) parts ∧
      Scans H incr.state parts.flatten folded.incr.state ∧
      folded.eventLog = parts.flatten.map Prod.fst := by
  induction blocks generalizing incr folded with
  | nil =>
    cases h
    exact ⟨[], .nil, .nil _, rfl⟩
  | cons b bs ih =>
    rw [foldBlocks_cons] at h
    simp only [bind_eq_ok, pure_eq_ok] at h
    obtain ⟨step, hstep, r, hr, rfl⟩ := h
    obtain ⟨pre, s, hspec⟩ := applyTick_spec hstep
    obtain ⟨part, -, hscans, hevents⟩ := hspec.scans_all hH (hstart b rfl)
    obtain ⟨root, hroot, hstateRoot⟩ := hspec.root
    have hnext : HasRoot H (flagged step.next.state) := HasRoot.setIn hH ⟨root, hroot⟩ (by decide)
      (hH.isCanonicalString (by decide)) (hasBytes_bool false)
    obtain ⟨parts, hparts, hrest, hlogs⟩ := ih (fun _ _ _ => hnext) (hlog.2 step hstep) hr
    have hne : part ≠ [] := by
      rintro rfl
      exact (logsEvent_iff hstep).mpr hlog.1 hevents
    obtain ⟨root', hroot', hlast⟩ := hscans.getLast?_root hne
    rw [hroot] at hroot'
    cases hroot'
    refine ⟨part :: parts, .cons (hlast.trans (congrArg some hstateRoot.symm)) hparts, ?_, ?_⟩
    · rw [List.flatten_cons]
      exact hscans.append hrest
    · rw [List.flatten_cons, List.map_append, hevents, hlogs]

/-- The roots are distinct, and none of them is that of the state. -/
def DistinctFrom (H : Host) (s : State) (roots : List Str) : Prop :=
  roots.Nodup ∧ ∀ start, stateRootOf H s = .ok start → hex start ∉ roots

/-- A block that logs no event has the root of the block before it, or of the start state. -/
theorem blocksLog_of_distinct {incr : IncrementalState} {blocks : List TickBlock} {folded : Folded}
    (h : foldBlocks H incr blocks = .ok folded)
    (hroots : DistinctFrom H incr.state (folded.tickResults.map TickResult.stateRoot)) :
    BlocksLog H incr blocks := by
  induction blocks generalizing incr folded with
  | nil => trivial
  | cons b bs ih =>
    rw [foldBlocks_cons] at h
    simp only [bind_eq_ok, pure_eq_ok] at h
    obtain ⟨step, hstep, r, hr, rfl⟩ := h
    obtain ⟨pre, s, hspec⟩ := applyTick_spec hstep
    obtain ⟨root, hroot, hstateRoot⟩ := hspec.root
    obtain ⟨hnodup, hfirst⟩ := hroots
    rw [List.map_cons, List.nodup_cons] at hnodup
    constructor
    · by_contra hb
      -- the block leaves the state as it is
      have hnil : step.events = [] := by
        by_contra hne
        exact hb ((logsEvent_iff hstep).mp hne)
      have hevents := hspec.events
      rw [hnil, eq_comm, List.append_eq_nil_iff, List.map_eq_nil_iff] at hevents
      have hpre := hspec.advanced
      have hscans := hspec.scans
      rw [hevents.1] at hpre
      rw [hevents.2] at hscans
      have hstate : incr.state = step.next.state := (run_nil hpre).trans hscans.eq_of_nil
      exact hfirst root (hstate ▸ hroot) (by simp [hstateRoot])
    · intro step' hstep'
      rw [hstep] at hstep'
      cases hstep'
      refine ih hr ⟨hnodup.2, fun start hstart => ?_⟩
      rw [hroot] at hstart
      cases hstart
      exact hstateRoot ▸ hnodup.1

theorem verifyReplay_eq_true {t : Transcript} : verifyReplay H t = .ok true ↔
    ∃ r, replay H t.eventLog (some t.genesisState) = .ok r ∧ r.error = none ∧
      r.finalStateRoot = t.finalStateRoot ∧
      (t.ticks.map TickResult.stateRoot).Sublist r.stateRoots := by
  rw [verifyReplay, bind_eq_ok]
  refine exists_congr fun r => and_congr_right fun _ => ?_
  rw [← inOrder_iff]
  by_cases herr : r.error = none
  · by_cases hfinal : r.finalStateRoot = t.finalStateRoot
    · simp [herr, hfinal]
    · simp [herr, hfinal]
  · simp [herr, Option.isSome_iff_ne_none]

/-- ASCII strings are assigned to the host of the examples, and in NFC. -/
theorem Escape.host_ascii : Escape.host.Ascii :=
  ⟨fun _ _ => rfl, fun c hc => decide_eq_true (by omega)⟩

/-- A block that advances the tick to 1. -/
def advanceProgram : Program := ⟨none, [⟨1, []⟩]⟩

theorem advanceProgram_rooted :
    RootedStart Escape.host (initIncremental advanceProgram.start) advanceProgram.ticks :=
  fun _ _ _ => exists_of_isOk (by decide +kernel)

/-- A genesis state without the namespace of the CALs. -/
def noCalState : State := deleteIn (some genesis) [js "cal"]

/-- One block with one submission, at a later tick. -/
def noCalProgram : Program := ⟨some noCalState, [lateBlock]⟩

/-- A block at the tick of the genesis state, without submissions. -/
def idleProgram : Program := ⟨none, [⟨0, []⟩]⟩

end ParadigmTerra
