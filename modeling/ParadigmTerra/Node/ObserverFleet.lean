import ParadigmTerra.Canonical.Addresses
import ParadigmTerra.Lib.Groups
import ParadigmTerra.Node.Persistent
import ParadigmTerra.Node.Transcript

/-!
# The observer fleet

A live observer runs the published blocks of a node again, and compares the roots with those that the node
publishes in its head. A fleet of observers votes: the roots that the largest group derives are held against
the roots that the node is said to claim.

`attributed_iff` says when a faulty minority cannot turn the verdict. What the node claims is taken from the
report of the first member alone, so a faulty member at that place has an honest node blamed, or a wrong one
cleared. The roots of a member are compared as one text, which tells them apart as long as there is no bar in
the roots of the honest members; `fleet_of_liveObservers` says that there is none if they are live observers.
-/

namespace ParadigmTerra

open Text OrderedMap Fallible Groups

/-! ## The live observer -/

inductive ObserverStatus
  | OBSERVED_OK | OBSERVED_DRIFT | OBSERVED_EMPTY
  deriving DecidableEq, Repr

structure ObserverVerdict where
  status : ObserverStatus
  observedTicks : ℕ
  claimedStateRoot : Str
  derivedStateRoot : Str
  claimedGlobalRoot : Str
  derivedGlobalRoot : Str

/-- The genesis state and the blocks in a directory. -/
def readProgram (dir : NodeDir) : Except Throw Program := do
  let genesisState ← readGenesis dir
  let ticks ← readBlocks (utf8Decode dir.wal)
  pure ⟨some genesisState, ticks⟩

/-- `LiveObserver.observe`: the published blocks are run again. Without a head there is no file to read. -/
def liveObserve (H : Host) (dir : NodeDir) : Except Throw ObserverVerdict :=
  match dir.head with
  | none => throw (.orchestrator "ENOENT" [])
  | some head => do
    let program ← readProgram dir
    if head.tickCount = 0 then
      pure ⟨.OBSERVED_EMPTY, 0, head.finalStateRoot, [], head.eventLogRoot, []⟩
    else
      let ticks := program.ticks.take head.tickCount
      let t ← Program.run H ⟨program.genesisState, ticks⟩
      let derivedStateRoot := t.finalStateRoot
      let derivedGlobalRoot := (t.ticks.getLast?.map TickResult.globalMerkleRoot).getD []
      let ok := ticks.length = head.tickCount ∧ derivedStateRoot = head.finalStateRoot ∧
        derivedGlobalRoot = head.eventLogRoot
      pure ⟨if ok then .OBSERVED_OK else .OBSERVED_DRIFT, ticks.length, head.finalStateRoot,
        derivedStateRoot, head.eventLogRoot, derivedGlobalRoot⟩

/-! ## The fleet -/

inductive FleetStatus
  | CONSENSUS_OK | NODE_DRIFT | OBSERVER_SPLIT | OBSERVED_EMPTY
  deriving DecidableEq, Repr

/-- An observer of a directory. -/
abbrev FleetMember := NodeDir → Except Throw ObserverVerdict

structure FleetVerdict where
  status : FleetStatus
  members : ℕ
  quorum : ℤ
  agree : ℕ
  observedTicks : ℕ
  quorumStateRoot : Str
  quorumGlobalRoot : Str
  claimedStateRoot : Str
  claimedGlobalRoot : Str
  dissenters : List ℕ

/-- Members, and the votes that corroborate a root. -/
structure ObserverFleet where
  members : List FleetMember
  quorum : ℤ
  quorum_pos : 1 ≤ quorum
  quorum_le : quorum ≤ members.length

/-- The members of a fleet: three live observers, if none are given. -/
def fleetMembers (H : Host) (members : List FleetMember) : List FleetMember :=
  if 0 < members.length then members else [liveObserve H, liveObserve H, liveObserve H]

/-- The constructor, `none` where it throws. Without a quorum it is a strict majority. -/
def ObserverFleet.make (H : Host) (members : List FleetMember) (quorum : Option ℤ) :
    Option ObserverFleet :=
  let members := fleetMembers H members
  let majority : ℤ := (members.length / 2 : ℕ) + 1
  let q := quorum.getD majority
  if h : 1 ≤ q ∧ q ≤ members.length then some ⟨members, q, h.1, h.2⟩ else none

namespace ObserverVerdict

/-- The roots that a member derives. -/
def derived (v : ObserverVerdict) : Str × Str := (v.derivedStateRoot, v.derivedGlobalRoot)

/-- The roots that the node is said to claim. -/
def claimed (v : ObserverVerdict) : Str × Str := (v.claimedStateRoot, v.claimedGlobalRoot)

end ObserverVerdict

/-- Roots as one text, with a bar between them. -/
def rootsKey (roots : Str × Str) : Str := roots.1 ++ js "|" ++ roots.2

/-- The verdict of the fleet, given those of its members. -/
def tally (quorum : ℤ) (first : ObserverVerdict) (rest : List ObserverVerdict) : FleetVerdict :=
  let verdicts := first :: rest
  let N := verdicts.length
  let base (status : FleetStatus) (agree : ℕ) (roots : Str × Str) (dissenters : List ℕ) : FleetVerdict :=
    ⟨status, N, quorum, agree, first.observedTicks, roots.1, roots.2, first.claimedStateRoot,
      first.claimedGlobalRoot, dissenters⟩
  if ∀ v ∈ verdicts, v.status = .OBSERVED_EMPTY then base .OBSERVED_EMPTY N ([], []) []
  else
    let winner := largest (groups (verdicts.map fun v => rootsKey v.derived))
    let agree := winner.length
    -- a member that is not in the winning group is never the lead
    let lead := (verdicts[winner.headD 0]?).getD first
    let dissenters := (List.range N).filter fun i => i ∉ winner
    if agree < quorum then base .OBSERVER_SPLIT agree lead.derived dissenters
    else if lead.derived ≠ first.claimed then base .NODE_DRIFT agree lead.derived dissenters
    else base (if dissenters.length = 0 then .CONSENSUS_OK else .OBSERVER_SPLIT) agree lead.derived
      dissenters

/-- `ObserverFleet.observe`. A fleet has a first member. -/
def ObserverFleet.observe (fleet : ObserverFleet) (dir : NodeDir) : Except Throw FleetVerdict := do
  let verdicts ← fleet.members.mapM fun m => m dir
  match verdicts with
  | [] => throw .typeError
  | first :: rest => pure (tally fleet.quorum first rest)

/-- The roots that a node publishes. -/
def Head.roots (head : Head) : Str × Str := (head.finalStateRoot, head.eventLogRoot)

/-! ## The majority -/

/-- Two pairs of roots are one text only if a bar is in a root. -/
theorem rootsKey_inj {roots roots' : Str × Str} (hfst : 0x7C ∉ roots.1) (hsnd : 0x7C ∉ roots.2)
    (h : rootsKey roots' = rootsKey roots) : roots' = roots := by
  obtain ⟨s, g⟩ := roots
  obtain ⟨s', g'⟩ := roots'
  have hbar : js "|" = [0x7C] := by decide
  simp only [rootsKey, hbar, List.append_assoc, List.singleton_append] at h
  -- the first text up to the bar has no bar, so the second text cannot have its bar elsewhere
  rcases List.append_eq_append_iff.mp h with ⟨a, hs, hrest⟩ | ⟨a, hs', hrest⟩
  · cases a with
    | nil =>
      rw [List.append_nil] at hs
      obtain ⟨-, hg⟩ := List.cons.inj hrest
      exact Prod.ext hs.symm hg
    | cons u a =>
      obtain ⟨rfl, -⟩ := List.cons.inj hrest
      exact absurd (by simp [hs]) hfst
  · cases a with
    | nil =>
      rw [List.append_nil] at hs'
      obtain ⟨-, hg⟩ := List.cons.inj hrest
      exact Prod.ext hs' hg.symm
    | cons u a =>
      obtain ⟨-, hg⟩ := List.cons.inj hrest
      exact absurd (by simp [hg]) hsnd

section Tally

variable {first : ObserverVerdict} {rest : List ObserverVerdict} {derived : Str × Str}
  {faulty : Finset ℕ}

/-- All members that are not among the faulty ones derive the same roots, and the faulty ones are fewer
than half. -/
structure HonestMajority (verdicts : List ObserverVerdict) (faulty : Finset ℕ) (derived : Str × Str) :
    Prop where
  few : faulty.card ≤ (verdicts.length - 1) / 2
  honest : ∀ i v, verdicts[i]? = some v → i ∉ faulty → v.derived = derived

/-- The members with the key of some roots. -/
def backers (verdicts : List ObserverVerdict) (derived : Str × Str) : List ℕ :=
  positions (rootsKey derived) (verdicts.map fun v => rootsKey v.derived)

theorem mem_backers {verdicts : List ObserverVerdict} {i : ℕ} : i ∈ backers verdicts derived ↔
    ∃ v, verdicts[i]? = some v ∧ rootsKey v.derived = rootsKey derived := by
  simp only [backers, mem_positions, List.getElem?_map, Option.map_eq_some_iff]

/-- The honest members win, with a quorum. -/
theorem HonestMajority.wins {verdicts : List ObserverVerdict} (hne : verdicts ≠ [])
    (h : HonestMajority verdicts faulty derived) :
    largest (groups (verdicts.map fun v => rootsKey v.derived)) = backers verdicts derived ∧
      verdicts.length / 2 + 1 ≤ (backers verdicts derived).length := by
  have hcount : verdicts.length ≤ (backers verdicts derived).length + faulty.card := by
    have hle := @le_length_positions _ _ (rootsKey derived) (verdicts.map fun v => rootsKey v.derived)
      faulty fun i hi hnot => by
        rw [List.length_map] at hi
        rw [List.getElem?_map, List.getElem?_eq_getElem hi, Option.map_some,
          h.honest i verdicts[i] (List.getElem?_eq_getElem hi) hnot]
    rw [List.length_map] at hle
    exact hle
  have hfew := h.few
  have hpos : 0 < verdicts.length := List.length_pos_iff.mpr hne
  refine ⟨largest_of_majority ?_, by omega⟩
  rw [List.length_map]
  change verdicts.length < 2 * (backers verdicts derived).length
  omega

/-- The first member of the winning group is the first one with the key of the honest members. -/
theorem HonestMajority.lead {verdicts : List ObserverVerdict} (hne : verdicts ≠ [])
    (h : HonestMajority verdicts faulty derived) :
    ∃ v, verdicts[(backers verdicts derived).headD 0]? = some v ∧
      verdicts.find? (fun v => rootsKey v.derived = rootsKey derived) = some v := by
  obtain ⟨-, hquorum⟩ := h.wins hne
  obtain ⟨i, l, hl⟩ := List.exists_cons_of_length_pos (show 0 < (backers verdicts derived).length by omega)
  obtain ⟨v, hv, hkey⟩ := mem_backers.mp (hl ▸ List.mem_cons_self : i ∈ backers verdicts derived)
  obtain ⟨hi, hget⟩ := List.getElem?_eq_some_iff.mp hv
  refine ⟨v, by rw [hl, List.headD_cons, hv], ?_⟩
  -- no position before the head of the group has the key
  have hhead : (List.range (verdicts.map fun v => rootsKey v.derived).length).find?
      (fun i => (verdicts.map fun v => rootsKey v.derived)[i]? = some (rootsKey derived)) = some i := by
    rw [← List.head?_filter]
    change (backers verdicts derived).head? = some i
    rw [hl, List.head?_cons]
  rw [List.find?_range_eq_some] at hhead
  refine List.find?_eq_some_iff_getElem.mpr ⟨decide_eq_true hkey, i, hi, hget, fun j hj => ?_⟩
  have hbefore := hhead.2.2 j hj
  have hjlt : j < verdicts.length := by omega
  simpa [hjlt] using hbefore

end Tally

/-! ## When the verdict falls on the right party -/

/-- The verdict blames the node exactly if the honest members derive other roots than it publishes, and if
they do not, its dissenters are the members that derive other roots. -/
structure FairVerdict (published derived : Str × Str) (verdicts : List ObserverVerdict)
    (r : FleetVerdict) : Prop where
  cleared : derived = published → r.status ≠ .NODE_DRIFT
  dissenters : derived = published →
    ∀ i, i ∈ r.dissenters ↔ ∃ v, verdicts[i]? = some v ∧ v.derived ≠ derived
  blamed : derived ≠ published → r.status = .NODE_DRIFT

/-- What the faulty members may report without turning the verdict. If all members report an empty
checkpoint, they all derive the published roots. Otherwise the first member reports claimed roots that are
those of the honest members, or are not, as the published ones: where the honest members derive the published
roots, no member derives others that are the same text, and where they do not, the claim is not either what
the first member with their text derives. -/
def Attributed (published derived : Str × Str) (first : ObserverVerdict) (verdicts : List ObserverVerdict) :
    Prop :=
  if ∀ v ∈ verdicts, v.status = .OBSERVED_EMPTY then
    derived = published ∧ ∀ v ∈ verdicts, v.derived = derived
  else if derived = published then
    first.claimed = published ∧
      ∀ v ∈ verdicts, rootsKey v.derived = rootsKey derived → v.derived = derived
  else ∀ v, verdicts.find? (fun v => rootsKey v.derived = rootsKey derived) = some v →
    first.claimed ≠ v.derived

/-! ## The verdict of a default quorum -/

section Verdict

variable {published derived : Str × Str} {first : ObserverVerdict} {rest : List ObserverVerdict}
  {faulty : Finset ℕ}

/-- The votes of a strict majority of the verdicts. -/
def majorityOf (verdicts : List ObserverVerdict) : ℤ := (verdicts.length / 2 : ℕ) + 1

/-- What the fleet makes of an honest majority, if a member reports no empty checkpoint. -/
theorem HonestMajority.tally (h : HonestMajority (first :: rest) faulty derived)
    (hsome : ¬∀ v ∈ first :: rest, v.status = .OBSERVED_EMPTY) :
    ∃ lead, (first :: rest).find? (fun v => rootsKey v.derived = rootsKey derived) = some lead ∧
      ((tally (majorityOf (first :: rest)) first rest).status = .NODE_DRIFT ↔
        lead.derived ≠ first.claimed) ∧
      ∀ i, i ∈ (tally (majorityOf (first :: rest)) first rest).dissenters ↔
        ∃ v, (first :: rest)[i]? = some v ∧ rootsKey v.derived ≠ rootsKey derived := by
  obtain ⟨hwins, hquorum⟩ := h.wins (List.cons_ne_nil _ _)
  obtain ⟨lead, hlead, hfind⟩ := h.lead (List.cons_ne_nil _ _)
  have hvotes : ¬(((backers (first :: rest) derived).length : ℤ) < majorityOf (first :: rest)) := by
    unfold majorityOf
    omega
  -- the members outside the group of the honest ones
  have hout : ∀ i, i ∈ (List.range (first :: rest).length).filter
      (fun i => i ∉ backers (first :: rest) derived) ↔
        ∃ v, (first :: rest)[i]? = some v ∧ rootsKey v.derived ≠ rootsKey derived := by
    intro i
    simp only [List.mem_filter, List.mem_range, decide_eq_true_eq, mem_backers, not_exists, not_and]
    constructor
    · rintro ⟨hi, hnot⟩
      exact ⟨_, List.getElem?_eq_getElem hi, hnot _ (List.getElem?_eq_getElem hi)⟩
    · rintro ⟨v, hv, hne⟩
      obtain ⟨hi, -⟩ := List.getElem?_eq_some_iff.mp hv
      refine ⟨hi, fun w hw => ?_⟩
      rw [hv] at hw
      cases hw
      exact hne
  refine ⟨lead, hfind, ?_⟩
  unfold ParadigmTerra.tally
  dsimp only
  rw [hwins]
  simp only [hlead, Option.getD_some, hvotes, if_false, if_neg hsome]
  by_cases hclaim : lead.derived = first.claimed
  · rw [if_neg (not_not.mpr hclaim)]
    refine ⟨?_, hout⟩
    dsimp only
    split <;> simp [hclaim]
  · rw [if_pos hclaim]
    exact ⟨by simp [hclaim], hout⟩

/-- All members report an empty checkpoint. -/
theorem fair_of_empty (hall : ∀ v ∈ first :: rest, v.status = .OBSERVED_EMPTY) (q : ℤ) :
    FairVerdict published derived (first :: rest) (tally q first rest) ↔
      derived = published ∧ ∀ v ∈ first :: rest, v.derived = derived := by
  unfold tally
  dsimp only
  rw [if_pos hall]
  constructor
  · rintro ⟨-, hdis, hblamed⟩
    have hpub : derived = published := by
      by_contra hne
      cases hblamed hne
    refine ⟨hpub, fun v hv => ?_⟩
    obtain ⟨i, hi⟩ := List.getElem?_of_mem hv
    by_contra hne
    exact absurd ((hdis hpub i).mpr ⟨v, hi, hne⟩) List.not_mem_nil
  · rintro ⟨hpub, hderived⟩
    refine ⟨fun _ => by simp, fun _ i => ?_, fun hne => absurd hpub hne⟩
    constructor
    · intro hi
      cases hi
    · rintro ⟨v, hv, hne⟩
      exact absurd (hderived v (List.mem_of_getElem? hv)) hne

/-- The honest members derive the published roots. -/
theorem HonestMajority.fair_of_published (h : HonestMajority (first :: rest) faulty derived)
    (hsome : ¬∀ v ∈ first :: rest, v.status = .OBSERVED_EMPTY) (hpub : derived = published) :
    FairVerdict published derived (first :: rest) (ParadigmTerra.tally (majorityOf (first :: rest)) first rest) ↔
      first.claimed = published ∧
        ∀ v ∈ first :: rest, rootsKey v.derived = rootsKey derived → v.derived = derived := by
  obtain ⟨lead, hfind, hdrift, hout⟩ := h.tally hsome
  have hlead : rootsKey lead.derived = rootsKey derived := by simpa using List.find?_some hfind
  have hmem : lead ∈ first :: rest := List.mem_of_find?_eq_some hfind
  constructor
  · rintro ⟨hcleared, hdis, -⟩
    have hclaim : lead.derived = first.claimed := by
      by_contra hne
      exact hcleared hpub (hdrift.mpr hne)
    have hfree : ∀ v ∈ first :: rest, rootsKey v.derived = rootsKey derived → v.derived = derived := by
      intro v hv hk
      obtain ⟨i, hi⟩ := List.getElem?_of_mem hv
      by_contra hne
      obtain ⟨w, hw, hkw⟩ := (hout i).mp ((hdis hpub i).mpr ⟨v, hi, hne⟩)
      rw [hi] at hw
      cases hw
      exact hkw hk
    refine ⟨?_, hfree⟩
    rw [← hclaim, ← hpub]
    exact hfree lead hmem hlead
  · rintro ⟨hclaim, hfree⟩
    refine ⟨fun _ hstatus => ?_, fun _ i => ?_, fun hne => absurd hpub hne⟩
    · apply hdrift.mp hstatus
      rw [hclaim, ← hpub]
      exact hfree lead hmem hlead
    · rw [hout i]
      constructor
      · rintro ⟨v, hv, hne⟩
        exact ⟨v, hv, fun heq => hne (congrArg rootsKey heq)⟩
      · rintro ⟨v, hv, hne⟩
        exact ⟨v, hv, fun hk => hne (hfree v (List.mem_of_getElem? hv) hk)⟩

/-- The honest members derive other roots than the published ones. -/
theorem HonestMajority.fair_of_drift (h : HonestMajority (first :: rest) faulty derived)
    (hsome : ¬∀ v ∈ first :: rest, v.status = .OBSERVED_EMPTY) (hpub : derived ≠ published) :
    FairVerdict published derived (first :: rest) (ParadigmTerra.tally (majorityOf (first :: rest)) first rest) ↔
      ∀ v, (first :: rest).find? (fun v => rootsKey v.derived = rootsKey derived) = some v →
        first.claimed ≠ v.derived := by
  obtain ⟨lead, hfind, hdrift, -⟩ := h.tally hsome
  constructor
  · rintro ⟨-, -, hblamed⟩ v hv hclaim
    rw [hfind] at hv
    cases hv
    exact hdrift.mp (hblamed hpub) hclaim.symm
  · intro hclaim
    refine ⟨fun heq => absurd heq hpub, fun heq => absurd heq hpub, fun _ => ?_⟩
    exact hdrift.mpr (Ne.symm (hclaim lead hfind))

/-- The verdict of a default quorum is fair exactly if what the faulty members report allows it. -/
theorem HonestMajority.fair_iff (h : HonestMajority (first :: rest) faulty derived) :
    FairVerdict published derived (first :: rest)
        (ParadigmTerra.tally (majorityOf (first :: rest)) first rest) ↔
      Attributed published derived first (first :: rest) := by
  unfold Attributed
  split
  · next hall => exact fair_of_empty hall _
  · next hsome =>
    split
    · next hpub => exact h.fair_of_published hsome hpub
    · next hpub => exact h.fair_of_drift hsome hpub

end Verdict

/-! ## The fleet of a node -/

/-- What a fleet was made of. -/
theorem make_default {H : Host} {members : List FleetMember} {fleet : ObserverFleet}
    (h : ObserverFleet.make H members none = some fleet) :
    fleet.members = fleetMembers H members ∧ fleet.quorum = (fleet.members.length / 2 : ℕ) + 1 := by
  unfold ObserverFleet.make at h
  dsimp only at h
  split at h
  · cases h
    exact ⟨rfl, rfl⟩
  · cases h

/-- A fleet whose members return has the tally of their verdicts. -/
theorem observe_eq {fleet : ObserverFleet} {dir : NodeDir} {first : ObserverVerdict}
    {rest : List ObserverVerdict} (h : fleet.members.mapM (fun m => m dir) = .ok (first :: rest)) :
    fleet.observe dir = .ok (tally fleet.quorum first rest) := by
  unfold ObserverFleet.observe
  rw [h]
  rfl

/-- For every fleet with the default quorum on a directory, whatever roots are published there, and all
verdicts of its members of which the faulty ones are fewer than half while the others derive the same roots:
the fleet returns a verdict, and that is fair exactly if what the faulty members report allows it. -/
theorem attributed_iff (H : Host) (members : List FleetMember) (fleet : ObserverFleet) (dir : NodeDir)
    (first : ObserverVerdict) (rest : List ObserverVerdict) (faulty : Finset ℕ)
    (published derived : Str × Str) (hfleet : ObserverFleet.make H members none = some fleet)
    (hverdicts : fleet.members.mapM (fun m => m dir) = .ok (first :: rest))
    (hhonest : HonestMajority (first :: rest) faulty derived) :
    ∃ r, fleet.observe dir = .ok r ∧ (FairVerdict published derived (first :: rest) r ↔
      Attributed published derived first (first :: rest)) := by
  obtain ⟨-, hquorum⟩ := make_default hfleet
  have hlength : fleet.members.length = (first :: rest).length := (mapM_ok.mp hverdicts).length_eq
  refine ⟨_, observe_eq hverdicts, ?_⟩
  rw [hquorum, hlength]
  exact hhonest.fair_iff

/-- A member that derives the published roots. -/
def honestReport : ObserverVerdict :=
  ⟨.OBSERVED_OK, 1, js "0x11", js "0x11", js "0x22", js "0x22"⟩

/-- A member that derives them, and says that the node claims others. -/
def falseClaim : ObserverVerdict := { honestReport with claimedStateRoot := js "0x33" }

/-- A member that derives other roots. -/
def falseRoots : ObserverVerdict := { honestReport with derivedStateRoot := js "0x33" }

/-- Three members, and a directory in which the honest ones find the published roots. -/
def threeMembers (first second third : ObserverVerdict) : List FleetMember :=
  [fun _ => .ok first, fun _ => .ok second, fun _ => .ok third]

def publishedDir : NodeDir := ⟨[], [], [], some ⟨1, js "0x11", js "0x22"⟩⟩

/-- The faulty member is the last one, and the node is not blamed. -/
theorem attributed_last : ∃ fleet r,
    ObserverFleet.make Escape.host (threeMembers honestReport honestReport falseRoots) none = some fleet ∧
      fleet.observe publishedDir = .ok r ∧
      FairVerdict (js "0x11", js "0x22") (js "0x11", js "0x22") [honestReport, honestReport, falseRoots] r := by
  have hhonest : HonestMajority [honestReport, honestReport, falseRoots] {2} (js "0x11", js "0x22") := by
    refine ⟨by decide, fun i v hv hi => ?_⟩
    match i with
    | 0 | 1 =>
      cases hv
      rfl
    | 2 => exact absurd (Finset.mem_singleton_self 2) hi
  obtain ⟨r, hr, hiff⟩ := attributed_iff Escape.host (threeMembers honestReport honestReport falseRoots)
    ⟨threeMembers honestReport honestReport falseRoots, 2, by decide, by decide⟩ publishedDir honestReport
    [honestReport, falseRoots] {2} (js "0x11", js "0x22") (js "0x11", js "0x22") rfl rfl hhonest
  refine ⟨_, r, rfl, hr, hiff.mpr ?_⟩
  unfold Attributed
  rw [if_neg (by decide), if_pos rfl]
  exact ⟨rfl, by decide⟩

/-- The faulty member is the first one, and the node is blamed for its claim. -/
theorem first_member_blames :
    ¬∀ (H : Host) (members : List FleetMember) (fleet : ObserverFleet) (dir : NodeDir)
      (first : ObserverVerdict) (rest : List ObserverVerdict) (faulty : Finset ℕ)
      (published derived : Str × Str), ObserverFleet.make H members none = some fleet →
      fleet.members.mapM (fun m => m dir) = .ok (first :: rest) →
      HonestMajority (first :: rest) faulty derived →
      ∃ r, fleet.observe dir = .ok r ∧ FairVerdict published derived (first :: rest) r := by
  intro h
  have hhonest : HonestMajority [falseClaim, honestReport, honestReport] {0} (js "0x11", js "0x22") := by
    refine ⟨by decide, fun i v hv hi => ?_⟩
    match i with
    | 0 => exact absurd (Finset.mem_singleton_self 0) hi
    | 1 | 2 =>
      cases hv
      rfl
  obtain ⟨r, hr, hcleared, -⟩ := h Escape.host (threeMembers falseClaim honestReport honestReport)
    ⟨threeMembers falseClaim honestReport honestReport, 2, by decide, by decide⟩ publishedDir falseClaim
    [honestReport, honestReport] {0} (js "0x11", js "0x22") (js "0x11", js "0x22") rfl rfl hhonest
  have hstatus : (tally 2 falseClaim [honestReport, honestReport]).status = .NODE_DRIFT := by decide
  cases hr
  exact hcleared rfl hstatus

/-! ## Live observers as members -/

theorem bar_not_mem_hex (bytes : List UInt8) : 0x7C ∉ hex bytes := by
  have hlower := List.all_eq_true.mp (toHex_lower bytes)
  intro hmem
  rcases List.mem_append.mp hmem with hmem | hmem
  · revert hmem
    decide
  · have hbar := hlower _ hmem
    revert hbar
    decide

theorem bar_not_mem_globalMerkleRoot {H : Host} {state : State} {eventCount : ℕ}
    {lastEventHash : List UInt8} {root : Str}
    (h : globalMerkleRoot H state eventCount lastEventHash = .ok root) : 0x7C ∉ root := by
  simp only [globalMerkleRoot, bind_eq_ok, pure_eq_ok] at h
  obtain ⟨_, -, bytes, -, rfl⟩ := h
  exact bar_not_mem_hex bytes

/-- Every block of a fold has a root without a bar. -/
theorem bar_not_mem_foldBlocks {H : Host} {incr : IncrementalState} {blocks : List TickBlock}
    {folded : Folded} (h : foldBlocks H incr blocks = .ok folded) :
    ∀ tk ∈ folded.tickResults, 0x7C ∉ tk.globalMerkleRoot := by
  unfold foldBlocks at h
  refine foldlM_invariant (P := fun f : Folded => ∀ tk ∈ f.tickResults, 0x7C ∉ tk.globalMerkleRoot)
    (fun acc b next _ hacc hstep => ?_) (fun tk htk => absurd htk List.not_mem_nil) h
  simp only [bind_eq_ok, pure_eq_ok] at hstep
  obtain ⟨step, hstep, rfl⟩ := hstep
  unfold applyTick at hstep
  split at hstep
  · simp at hstep
  · simp only [bind_eq_ok, pure_eq_ok] at hstep
    obtain ⟨_, -, _, -, _, -, root, hroot, rfl⟩ := hstep
    intro tk htk
    rcases List.mem_append.mp htk with htk | htk
    · exact hacc tk htk
    · rw [List.mem_singleton.mp htk]
      exact bar_not_mem_globalMerkleRoot hroot

/-- A live observer reports the claim of the head, there is no bar in the roots that it derives, and the
checkpoint is empty if the head says so. -/
theorem liveObserve_roots {H : Host} {dir : NodeDir} {head : Head} {v : ObserverVerdict}
    (hhead : dir.head = some head) (h : liveObserve H dir = .ok v) :
    v.claimed = head.roots ∧ 0x7C ∉ v.derived.1 ∧ 0x7C ∉ v.derived.2 ∧
      (v.status = .OBSERVED_EMPTY ↔ head.tickCount = 0) := by
  unfold liveObserve at h
  simp only [hhead, bind_eq_ok] at h
  obtain ⟨program, -, h⟩ := h
  split at h
  · next hzero =>
    cases h
    exact ⟨rfl, List.not_mem_nil, List.not_mem_nil, by simp [hzero]⟩
  · next hzero =>
    simp only [Program.run, bind_eq_ok, pure_eq_ok] at h
    obtain ⟨t, ⟨folded, hfolded, root, -, rfl⟩, rfl⟩ := h
    refine ⟨rfl, bar_not_mem_hex root, ?_, ?_⟩
    · dsimp only [ObserverVerdict.derived]
      cases hlast : folded.tickResults.getLast? with
      | none => exact List.not_mem_nil
      | some tk => exact bar_not_mem_foldBlocks hfolded tk (List.mem_of_getLast? hlast)
    · dsimp only
      split <;> simp [hzero]

/-- A fleet whose first member is honest is fair, where all honest members are live observers of a head that
is not empty. -/
theorem fleet_of_liveObservers {H : Host} {members : List FleetMember} {fleet : ObserverFleet}
    {dir : NodeDir} {head : Head} {first : ObserverVerdict} {rest : List ObserverVerdict}
    {faulty : Finset ℕ} (hfleet : ObserverFleet.make H members none = some fleet)
    (hhead : dir.head = some head) (hticks : head.tickCount ≠ 0)
    (hverdicts : fleet.members.mapM (fun m => m dir) = .ok (first :: rest))
    (hfew : faulty.card ≤ ((first :: rest).length - 1) / 2) (hfirst : 0 ∉ faulty)
    (hlive : ∀ i m, fleet.members[i]? = some m → i ∉ faulty → m = liveObserve H) :
    ∃ r, fleet.observe dir = .ok r ∧ FairVerdict head.roots first.derived (first :: rest) r := by
  have hall := mapM_ok.mp hverdicts
  -- an honest member returns what the live observer does
  have hreport : ∀ i v, (first :: rest)[i]? = some v → i ∉ faulty → liveObserve H dir = .ok v := by
    intro i v hv hi
    obtain ⟨hlt, rfl⟩ := List.getElem?_eq_some_iff.mp hv
    have hlt' : i < fleet.members.length := hall.length_eq ▸ hlt
    have hget := hall.get hlt' hlt
    simp only [List.get_eq_getElem] at hget
    rw [hlive i _ (List.getElem?_eq_getElem hlt') hi] at hget
    exact hget
  have hobserved : liveObserve H dir = .ok first := hreport 0 first rfl hfirst
  have hhonest : HonestMajority (first :: rest) faulty first.derived := by
    refine ⟨hfew, fun i v hv hi => ?_⟩
    rw [Except.ok.inj ((hreport i v hv hi).symm.trans hobserved)]
  obtain ⟨hclaim, hfst, hsnd, hempty⟩ := liveObserve_roots hhead hobserved
  obtain ⟨r, hr, hiff⟩ := attributed_iff H members fleet dir first rest faulty head.roots first.derived
    hfleet hverdicts hhonest
  have hfree : ∀ v : ObserverVerdict, rootsKey v.derived = rootsKey first.derived →
      v.derived = first.derived := fun v hk => rootsKey_inj hfst hsnd hk
  have hsome : ¬∀ v ∈ first :: rest, v.status = .OBSERVED_EMPTY :=
    fun hall => hticks (hempty.mp (hall first List.mem_cons_self))
  refine ⟨r, hr, hiff.mpr ?_⟩
  unfold Attributed
  rw [if_neg hsome]
  split
  · exact ⟨hclaim, fun v _ => hfree v⟩
  · next hpub =>
    intro v hv heq
    have hkey : rootsKey v.derived = rootsKey first.derived := by simpa using List.find?_some hv
    exact hpub ((hfree v hkey).symm.trans (heq.symm.trans hclaim))

end ParadigmTerra
