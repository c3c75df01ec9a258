import ParadigmTerra.Reducer.State

/-!
# Deltas

A delta is a mutation of one path of the state, carried by an event: `set`, `delete`, `add` or `sub`.
`applyDeltaJson` checks its shape and applies it. A sum is checked against the largest uint256 and a
difference against zero, the operands not at all; `UintRange.lean` says what follows.

`applyOp_cases` says all that a delta does to the state: it sets its path or deletes it. The
path starts with the delta's namespace, so that `ownIn_applyDeltaJson` leaves every other namespace
as it was.
-/

namespace ParadigmTerra

open Text OrderedMap Fallible

/-- The largest owner set. -/
def MAX_OWNERS : ℕ := 16

/-- The delta operations. -/
inductive DeltaOp
  | set | add | sub | delete
  deriving DecidableEq, Repr

/-- The operation that a string names. -/
def DeltaOp.ofStr? (s : Str) : Option DeltaOp :=
  if s = js "set" then some .set
  else if s = js "delete" then some .delete
  else if s = js "add" then some .add
  else if s = js "sub" then some .sub
  else none

/-- Non-empty strings, each above the one before it. -/
def ascending : Option Str → List Json → Bool
  | _, [] => true
  | prev, .str s :: xs =>
    s ≠ [] && (match prev with | some t => s ≠ t && !strLt s t | none => true) &&
      ascending (some s) xs
  | _, _ :: _ => false

/-- A well-formed owner record: at most `MAX_OWNERS` distinct owners in order, and a threshold that
some set of them meets. -/
def ownerRecordWellFormed (owners threshold : Option Json) : Bool :=
  match owners, threshold with
  | some (.arr os), some (.int t) =>
    decide (1 ≤ os.length) && decide (os.length ≤ MAX_OWNERS) && decide (1 ≤ t) &&
      decide (t ≤ os.length) && ascending none os
  | _, _ => false

/-- The check of an owner record after a delta has set its `owners` or its `threshold`. It waits
until both are there. -/
def enforceOwnerRecord (state : State) (full : List Str) : Except Throw Unit :=
  match full with
  | [r, a, id, f] =>
    if r = js "registry" ∧ a = js "agents" ∧ (f = js "owners" ∨ f = js "threshold") then
      match getIn state [js "registry", js "agents", id] with
      | some rec =>
        if rec.isPlainObject && (rec.read (js "owners")).isSome &&
            (rec.read (js "threshold")).isSome then
          require (ownerRecordWellFormed (rec.read (js "owners")) (rec.read (js "threshold")))
            (.apply .BAD_OWNER_RECORD)
        else pure ()
      | none => pure ()
    else pure ()
  | _ => pure ()

/-- An integer operand. -/
def asBigint (v : Option Json) : Except Throw ℤ :=
  match v with
  | some (.int n) => pure n
  | _ => throw (.apply .BAD_DELTA)

/-- `v ?? d`. -/
def orElse (v : Option Json) (d : Json) : Json :=
  match v with
  | none | some .null => d
  | some w => w

/-- The strings of an array of strings. -/
def strings : List Json → Option (List Str)
  | [] => some []
  | .str s :: xs => (strings xs).map (s :: ·)
  | _ :: _ => none

/-- A string field of a delta. -/
def deltaStr (v : Option Json) : Except Throw Str :=
  match v with
  | some (.str s) => pure s
  | _ => throw (.apply .BAD_DELTA)

/-- The path of a delta below its namespace. -/
def deltaPath (v : Option Json) : Except Throw (List Str) :=
  match v with
  | some (.arr xs) =>
    match strings xs with
    | some p => pure p
    | none => throw (.apply .BAD_DELTA)
  | _ => throw (.apply .BAD_DELTA)

/-- One operation at a path. -/
def applyOp (state : State) (full : List Str) (op : DeltaOp) (value : Option Json) :
    Except Throw State :=
  match op with
  | .set => do
    let next := setIn (some state) full (orElse value .null)
    enforceOwnerRecord next full
    pure next
  | .delete => pure (deleteIn (some state) full)
  | .add => do
    let cur ← asBigint (orElse (getIn state full) (.int 0))
    let v ← asBigint value
    require (¬cur + v > UINT256_MAX) (.apply .OVERFLOW)
    pure (setIn (some state) full (.int (cur + v)))
  | .sub => do
    let cur ← asBigint (orElse (getIn state full) (.int 0))
    let v ← asBigint value
    require (¬cur - v < 0) (.apply .UNDERFLOW)
    pure (setIn (some state) full (.int (cur - v)))

/-- Validates a delta and applies it. -/
def applyDeltaJson (state : State) (d : Json) : Except Throw State := do
  require (d.isPlainObject = true) (.apply .BAD_DELTA)
  let ns ← deltaStr (d.read (js "ns"))
  let op ← deltaStr (d.read (js "op"))
  let path ← deltaPath (d.read (js "path"))
  match DeltaOp.ofStr? op with
  | some o => applyOp state (ns :: path) o (d.read (js "value"))
  | none => throw (.apply .BAD_DELTA)

/-! ## What a delta does -/

/-- The path and the operation that a delta names. -/
def deltaTarget (d : Json) : Option (List Str × DeltaOp) :=
  match d.read (js "ns"), d.read (js "op"), d.read (js "path") with
  | some (.str ns), some (.str op), some (.arr xs) =>
    match DeltaOp.ofStr? op, strings xs with
    | some o, some path => some (ns :: path, o)
    | _, _ => none
  | _, _, _ => none

theorem deltaStr_eq_ok {v : Option Json} {s : Str} (h : deltaStr v = .ok s) : v = some (.str s) := by
  unfold deltaStr at h
  split at h
  · rw [pure_eq_ok.mp h]
  · exact (throw_eq_ok.mp h).elim

theorem deltaPath_eq_ok {v : Option Json} {p : List Str} (h : deltaPath v = .ok p) :
    ∃ xs, v = some (.arr xs) ∧ strings xs = some p := by
  unfold deltaPath at h
  split at h
  · next xs =>
    split at h
    · next hp => exact ⟨xs, rfl, pure_eq_ok.mp h ▸ hp⟩
    · cases h
  · cases h

/-- An applied delta is the operation that it names, at its path. -/
theorem applyDeltaJson_eq_ok {s s' : State} {d : Json} (h : applyDeltaJson s d = .ok s') :
    ∃ ns path op, d.read (js "ns") = some (.str ns) ∧ deltaTarget d = some (ns :: path, op) ∧
      applyOp s (ns :: path) op (d.read (js "value")) = .ok s' := by
  simp only [applyDeltaJson, bind_eq_ok] at h
  obtain ⟨-, -, ns, hns, t, ht, path, hpath, h⟩ := h
  obtain ⟨xs, hxs, hstr⟩ := deltaPath_eq_ok hpath
  have hns := deltaStr_eq_ok hns
  have ht := deltaStr_eq_ok ht
  split at h
  · next op hop => exact ⟨ns, path, op, hns, by simp [deltaTarget, hns, ht, hxs, hop, hstr], h⟩
  · exact (throw_eq_ok.mp h).elim

/-- On another state, an applied delta is the operation that it names. -/
theorem applyDeltaJson_of_applyOp {s s' t t' : State} {d : Json} {full : List Str} {op : DeltaOp}
    (hs : applyDeltaJson s d = .ok s') (htarget : deltaTarget d = some (full, op))
    (h : applyOp t full op (d.read (js "value")) = .ok t') : applyDeltaJson t d = .ok t' := by
  simp only [applyDeltaJson, bind_eq_ok] at hs ⊢
  obtain ⟨u, hu, ns, hns, o, ho, path, hpath, hs⟩ := hs
  refine ⟨u, hu, ns, hns, o, ho, path, hpath, ?_⟩
  obtain ⟨xs, hxs, hstr⟩ := deltaPath_eq_ok hpath
  split at hs
  · next op' hop =>
    simp only [deltaTarget, deltaStr_eq_ok hns, deltaStr_eq_ok ho, hxs, hop, hstr,
      Option.some.injEq, Prod.mk.injEq] at htarget
    obtain ⟨rfl, rfl⟩ := htarget
    exact h
  · cases hs

/-- An operation sets its path or deletes it. -/
theorem applyOp_cases {s s' : State} {full : List Str} {op : DeltaOp} {v : Option Json}
    (h : applyOp s full op v = .ok s') :
    (op = .set ∧ s' = setIn (some s) full (orElse v .null) ∧
      enforceOwnerRecord s' full = .ok ()) ∨
    ((op = .add ∨ op = .sub) ∧ ∃ n, s' = setIn (some s) full (.int n)) ∨
    (op = .delete ∧ s' = deleteIn (some s) full) := by
  cases op with
  | set =>
    simp only [applyOp, bind_eq_ok, pure_eq_ok] at h
    obtain ⟨_, he, rfl⟩ := h
    exact .inl ⟨rfl, rfl, he⟩
  | delete => exact .inr (.inr ⟨rfl, (pure_eq_ok.mp h).symm⟩)
  | add =>
    simp only [applyOp, bind_eq_ok, pure_eq_ok] at h
    obtain ⟨cur, -, x, -, -, -, h⟩ := h
    exact .inr (.inl ⟨.inl rfl, _, h.symm⟩)
  | sub =>
    simp only [applyOp, bind_eq_ok, pure_eq_ok] at h
    obtain ⟨cur, -, x, -, -, -, h⟩ := h
    exact .inr (.inl ⟨.inr rfl, _, h.symm⟩)

/-- A delta leaves every other namespace as it was. -/
theorem ownIn_applyDeltaJson {s s' : State} {d : Json} (h : applyDeltaJson s d = .ok s')
    {n : Str} {p : List Str} (hn : d.read (js "ns") ≠ some (.str n)) :
    ownIn s' (n :: p) = ownIn s (n :: p) := by
  obtain ⟨ns, path, op, hns, -, h⟩ := applyDeltaJson_eq_ok h
  have hne : ns ≠ n := by
    rintro rfl
    exact hn hns
  have hap : Apart (ns :: path) (n :: p) := .inl hne
  rcases applyOp_cases h with ⟨-, rfl, -⟩ | ⟨-, x, rfl⟩ | ⟨-, rfl⟩
  · exact ownIn_setIn_of_apart hap s _
  · exact ownIn_setIn_of_apart hap s _
  · exact ownIn_deleteIn_of_apart hap s

end ParadigmTerra
