import ParadigmTerra.Node.Roots
import ParadigmTerra.Ports.Events

/-!
# Logs in the three languages

`scanStateRoots` folds a log and lists the state roots after its events; each language has it.

`reducers_agree` is about a log of which each event is plain on the state that it finds: at each event the
three reducers reach one state with one text, or reject it with one code, and the three scans list the
same roots and stop at the same event for the same reason. `reducers_part` is a transfer that is not
plain: the recipient's balance would leave the 256-bit integers, which the ports refuse and the reference
implementation does not.
-/

namespace ParadigmTerra.Ports

open Text Fallible

/-- Why a scan stops: an event was rejected, or a state has no root. -/
inductive ScanError
  | rejected (code : ApplyErrorCode)
  | STATE_ROOT
  deriving DecidableEq

/-- The state root after each event from the `i`th on, and why the scan stopped, if it did. -/
def Port.scanFrom (P : Port) (H : Host) : ℕ → State → List Event →
    Except Fault (List (List UInt8) × Option (ScanError × ℕ))
  | _, _, [] => pure ([], none)
  | i, state, ev :: evs =>
    match P.apply state ev with
    | .error (.err code) => pure ([], some (.rejected code, i))
    | .error .panicked => throw .panicked
    | .ok next =>
      match stateRootOf H next with
      | .error _ => pure ([], some (.STATE_ROOT, i))
      | .ok root => do
        let (roots, error) ← P.scanFrom H (i + 1) next evs
        pure (root :: roots, error)

def Port.scanStateRoots (P : Port) (H : Host) (events : List Event) (start : State) :
    Except Fault (List (List UInt8) × Option (ScanError × ℕ)) := P.scanFrom H 0 start events

/-! ## What agrees -/

/-- One state, with one text. -/
def SameText (H : Host) (s t : State) : Prop :=
  s = t ∧ ParadigmTerra.canonicalizeValue H (some s) = canonicalizeValue H t

/-- The scans list one stream of roots, and stop at one event for one reason. Where a state has no
canonical text, the reference implementation throws and the port stops for want of a root. -/
def SameScan (x : Except Throw (List Str × Option (ApplyErrorCode × ℕ)))
    (y : Except Fault (List (List UInt8) × Option (ScanError × ℕ))) : Prop :=
  match x, y with
  | .ok (roots, error), .ok (roots', error') =>
    roots = roots'.map hex ∧ error' = error.map fun e => (.rejected e.1, e.2)
  | .error _, .ok (_, some (.STATE_ROOT, _)) => True
  | _, _ => False

/-- Each event of the log is plain on the state that it finds. -/
def PlainLog : State → List Event → Prop
  | _, [] => True
  | s, ev :: evs => Plain s ev ∧ ∀ t, applyEvent s ev = .ok t → PlainLog t evs

def decidePlainLog : (evs : List Event) → (s : State) → Decidable (PlainLog s evs)
  | [], _ => .isTrue trivial
  | ev :: evs, s =>
    have := decideOk (applyEvent s ev) fun t => decidePlainLog evs t
    inferInstanceAs (Decidable (Plain s ev ∧ ∀ t, applyEvent s ev = .ok t → PlainLog t evs))

instance (s : State) (evs : List Event) : Decidable (PlainLog s evs) := decidePlainLog evs s

variable {H : Host} {P : Port}

/-- A plain event on a rooted state leads to a rooted one. -/
theorem rooted_of_accepts (hP : P.Lawful) {s t : State} {ev : Event} (hs : Rooted s)
    (hev : Canonical ev) (hplain : Plain s ev) (h : applyEvent s ev = .ok t) : Rooted t := by
  have hagree := agree_apply hP hs hev hplain
  rw [h] at hagree
  generalize P.apply s ev = y at hagree
  cases hagree with
  | ok hsame => exact hsame.2

/-- Along a plain log, the states are rooted and the events plain. -/
theorem PlainLog.at {s t : State} {pre post : List Event} {ev : Event} (hs : Rooted s)
    (hev : ∀ e ∈ pre, Canonical e) (hplain : PlainLog s (pre ++ ev :: post))
    (hrun : AcceptsAll s pre t) : Rooted t ∧ Plain t ev := by
  induction pre generalizing s with
  | nil =>
    cases hrun
    exact ⟨hs, hplain.1⟩
  | cons e pre ih =>
    obtain ⟨u, -, hacc, hrest⟩ := run_cons hrun
    obtain ⟨he, hpre⟩ := List.forall_mem_cons.mp hev
    have hu := accepts_iff.mp hacc
    exact ih (rooted_of_accepts rust_lawful hs he hplain.1 hu) hpre (hplain.2 u hu) hrest

/-- The scans of a plain log are the same. -/
theorem sameScan_of_plain (hP : P.Lawful) {s : State} {evs : List Event} (hs : Rooted s)
    (hev : ∀ ev ∈ evs, Canonical ev) (hplain : PlainLog s evs) (i : ℕ) :
    SameScan (scanFrom H i s evs) (P.scanFrom H i s evs) := by
  induction evs generalizing s i with
  | nil => exact ⟨rfl, rfl⟩
  | cons ev evs ih =>
    obtain ⟨hev, hevs⟩ := List.forall_mem_cons.mp hev
    obtain ⟨hplain, hrest⟩ := hplain
    have hagree := agree_apply hP hs hev hplain
    rw [scanFrom, Port.scanFrom, ParadigmTerra.apply]
    cases hx : applyEvent s ev with
    | error e =>
      rw [hx] at hagree
      generalize P.apply s ev = y at hagree ⊢
      cases hagree with
      | error he =>
        obtain ⟨code, rfl, rfl⟩ := he
        exact ⟨rfl, rfl⟩
    | ok t =>
      rw [hx] at hagree
      generalize P.apply s ev = y at hagree ⊢
      cases hagree with
      | ok hsame =>
        obtain ⟨rfl, ht⟩ := hsame
        simp only [ok_bind, ht.stateRootOf_eq]
        cases hroot : stateRootOf H t with
        | error e => trivial
        | ok root =>
          have hscan := ih ht hevs (hrest t hx) (i + 1)
          simp only [ok_bind]
          generalize scanFrom H (i + 1) t evs = x at hscan ⊢
          generalize P.scanFrom H (i + 1) t evs = y at hscan ⊢
          cases x with
          | error e =>
            cases y with
            | error e' => exact hscan.elim
            | ok q =>
              obtain ⟨roots, stop⟩ := q
              cases stop with
              | none => exact hscan.elim
              | some stop =>
                obtain ⟨reason, j⟩ := stop
                cases reason with
                | rejected code => exact hscan.elim
                | STATE_ROOT => trivial
          | ok p =>
            cases y with
            | error e' => exact hscan.elim
            | ok q =>
              obtain ⟨hroots, hstop⟩ := hscan
              refine ⟨?_, hstop⟩
              rw [List.map_cons, hroots]

/-- The three reducers agree on each event of a plain log, and so do their scans of the log. -/
theorem reducers_agree (H : Host) {s : State} {log : List Event} (hs : Rooted s)
    (hev : ∀ ev ∈ log, Canonical ev) (hplain : PlainLog s log) :
    ∀ P ∈ [rust, go],
      (∀ pre ev post t, log = pre ++ ev :: post → AcceptsAll s pre t →
        Agree (SameText H) (applyEvent t ev) (P.apply t ev)) ∧
      SameScan (scanStateRoots H log s) (P.scanStateRoots H log s) := by
  intro P hmem
  have hP : P.Lawful := by
    simp only [List.mem_cons, List.not_mem_nil, or_false] at hmem
    rcases hmem with rfl | rfl
    · exact rust_lawful
    · exact go_lawful
  constructor
  · rintro pre ev post t rfl hrun
    obtain ⟨ht, hplain⟩ := hplain.at hs (fun e he => hev e (by simp [he])) hrun
    refine (agree_apply hP ht (hev ev (by simp)) hplain).mono ?_
    rintro u _ ⟨rfl, hu⟩
    exact ⟨rfl, canonicalizeValue_eq hu.canonical⟩
  · exact sameScan_of_plain hP hs hev hplain 0

/-- A CAL from its creation to its end, with an effect, after a feed and a tick. -/
theorem reducers_agree_commit :
    let log := Json.obj [(js "event_type", .str (js "tick.advanced")), (js "new_tick", .int 1)] ::
      commitEvents [.obj [(js "ns", .str (js "oracles")), (js "op", .str (js "add")),
        (js "path", .arr [.str (js "feeds"), .str (js "TON")]), (js "value", .int 7)]]
    ∀ P ∈ [rust, go],
      (∀ pre ev post t, log = pre ++ ev :: post → AcceptsAll genesis pre t →
        Agree (SameText ⟨id, fun _ => true⟩) (applyEvent t ev) (P.apply t ev)) ∧
      SameScan (scanStateRoots ⟨id, fun _ => true⟩ log genesis)
        (P.scanStateRoots ⟨id, fun _ => true⟩ log genesis) :=
  reducers_agree _ ⟨by decide +kernel, by decide +kernel⟩ (by decide +kernel) (by decide +kernel)

/-- The genesis state, with one unit at `A` and as many as fit at `B`. -/
def fullBalance : State :=
  setIn (setIn genesis (balancePath (js "A")) (.int 1)) (balancePath (js "B")) (.int UINT256_MAX)

/-- A transfer of one unit from `A` to `B`. -/
def transferEvent : Event := .obj
  [(js "event_type", .str (js "ptra.transferred")), (js "from", .str (js "A")),
    (js "to", .str (js "B")), (js "amount_nano_ptra", .int 1)]

/-- The reducers do not agree on every event: the transfer makes a balance of `2 ^ 256` in the reference
implementation, and the ports reject it. -/
theorem reducers_part : ¬∀ (s : State) (ev : Event), Rooted s → Canonical ev → ∀ P ∈ [rust, go],
    Agree (SameText ⟨id, fun _ => true⟩) (applyEvent s ev) (P.apply s ev) := by
  intro h
  have hrust : rust.apply fullBalance transferEvent = .error (.err .OVERFLOW) := rfl
  obtain ⟨t, ht⟩ : ∃ t, applyEvent fullBalance transferEvent = .ok t :=
    exists_of_isOk (by decide +kernel)
  have hagree := h fullBalance transferEvent ⟨by decide +kernel, by decide +kernel⟩
    (by decide +kernel) rust (by simp)
  rw [hrust, ht] at hagree
  cases hagree

end ParadigmTerra.Ports
