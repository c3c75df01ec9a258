import ParadigmTerra.Node.TickRun
import ParadigmTerra.Node.WriteAheadLog

/-!
# The shape of the live state

A tick keeps every closed shape that its submissions have and that allows for inherited values:
`applyTick_fits`. In particular the members of each object of the live state are in order
(`foldBlocks_ordered`), so that the state is a value of the language.
-/

namespace ParadigmTerra

open Text OrderedMap Fallible

variable {S : Shape} {H : Host}

theorem ordered_closed : ordered.Closed where
  nil := by decide
  put := by
    intro k v m _ hm
    exact decide_eq_true
      ((of_decide_eq_true hm : Normal keyBefore m).put keyBefore_trans keyBefore_asymm k v)
  erase := by
    intro k m hm
    exact decide_eq_true ((of_decide_eq_true hm : Normal keyBefore m).erase k)
  ascii := fun _ _ => rfl
  text := fun _ _ _ _ => rfl

/-! ## Events -/

theorem createdEvent_fits (hS : S.Closed) {ch agent : Str} (hch : S.str ch = true)
    (hagent : S.str agent = true) : FieldsFit S (createdEvent ch agent) := by
  intro e he
  simp only [createdEvent, Json.members, List.mem_cons, List.not_mem_nil, or_false] at he
  rcases he with rfl | rfl | rfl
  · exact hS.lit "cal.created" (by decide)
  · exact hch
  · exact hagent

theorem signedEvent_fits (hS : S.Closed) {ch : Str} (hch : S.str ch = true) :
    FieldsFit S (signedEvent ch) := by
  intro e he
  simp only [signedEvent, Json.members, List.mem_cons, List.not_mem_nil, or_false] at he
  rcases he with rfl | rfl
  · exact hS.lit "cal.signed" (by decide)
  · exact hch

theorem advancedEvent_fits (hS : S.Closed) (tick : ℤ) : FieldsFit S (advancedEvent tick) := by
  intro e he
  simp only [advancedEvent, Json.members, List.mem_cons, List.not_mem_nil, or_false] at he
  rcases he with rfl | rfl
  · exact hS.lit "tick.advanced" (by decide)
  · rfl

/-- The fields of all the events that a submission adds have its shape. -/
theorem Submission.Adds.fits (hS : S.Closed) {sub : Submission} {ch agent : Str} {tick : ℤ} {s : State}
    {evs : List Event} (hsub : sub.Fits S) (hnames : sub.Names H ch agent)
    (h : sub.Adds ch agent tick s evs) : ∀ ev ∈ evs, FieldsFit S ev := by
  obtain ⟨b, -, hch⟩ := hnames.hash
  have hhash : S.str ch = true := by
    rw [hch]
    exact hS.ascii _ (isAscii_hex b)
  have hagent : S.str agent = true := by
    have hread := hnames.agent
    unfold strField at hread
    split at hread
    · next a ha =>
      rw [← pure_eq_ok.mp hread]
      exact fits_of_read (.inl hsub.cal) (by decide) ha
    · exact absurd hread (by simp)
  have hcreated := createdEvent_fits hS hhash hagent
  have hingress : ∀ ev ∈ ingressEvents ch agent, FieldsFit S ev :=
    List.forall_mem_cons.mpr ⟨hcreated, List.forall_mem_singleton.mpr (signedEvent_fits hS hhash)⟩
  have hv : ∀ t, (sub.validator ch tick t).Fits S := fun t => ⟨hhash, hsub.cal, hsub.effects⟩
  cases h with
  | rejected code hmode h => nofun
  | unsigned hmode => exact List.forall_mem_singleton.mpr hcreated
  | phaseA hmode hs h =>
    exact List.forall_mem_append.mpr ⟨hingress, Validator.phaseA_fits hS (hv _) h⟩
  | phaseB hmode hs ha hb =>
    exact List.forall_mem_append.mpr ⟨hingress,
      Validator.phaseB_fits hS (hv _) (Validator.phaseA_fits hS (hv _) ha) hb⟩
  | resumed hmode h => exact Validator.phaseB_fits hS (hv _) (by simp) h

/-! ## Ticks -/

/-- A run of the node keeps a closed shape. -/
theorem NodeRun.fits (hS : S.Closed) (hbuiltin : ∀ k, S.builtin k = true) {s₀ s : State}
    {log : List Event} (h : NodeRun H (fun _ _ sub => sub.Fits S) s₀ log s)
    (hs₀ : s₀.fits S = true) : s.fits S = true := by
  induction h with
  | start => exact hs₀
  | advanced _ hacc ih =>
    exact fits_of_accepts hS ih (advancedEvent_fits hS _) (.inl hbuiltin) hacc
  | submitted _ hP hnames hadds hacc ih =>
    exact fits_of_run hS ih (hacc.of_forall fun ev hev _ =>
      ⟨hadds.fits hS hP hnames ev hev, .inl hbuiltin⟩)

theorem applyTick_fits (hS : S.Closed) (hbuiltin : ∀ k, S.builtin k = true)
    {incr : IncrementalState} {block : TickBlock} {step : TickStep}
    (hincr : incr.state.fits S = true) (hsubs : ∀ sub ∈ block.submissions, sub.Fits S)
    (h : applyTick H incr block = .ok step) : step.next.state.fits S = true :=
  (applyTick_run (fun _ _ => submissionsMeet_of_forall hsubs) .start h).fits hS hbuiltin hincr

theorem foldBlocks_fits (hS : S.Closed) (hbuiltin : ∀ k, S.builtin k = true)
    {incr : IncrementalState} {blocks : List TickBlock} {folded : Folded}
    (hincr : incr.state.fits S = true)
    (hblocks : ∀ b ∈ blocks, ∀ sub ∈ b.submissions, sub.Fits S)
    (h : foldBlocks H incr blocks = .ok folded) : folded.incr.state.fits S = true :=
  (foldBlocks_run (blocksMeet_of_forall hblocks) h).fits hS hbuiltin hincr

/-! ## Blocks as objects -/

theorem fitsElements_map {α : Type} {f : α → Json} {l : List α} :
    fitsElements S (l.map f) = true ↔ ∀ a ∈ l, (f a).fits S = true := by
  rw [fitsElements_iff, List.forall_mem_map]

/-- The submissions of a block have the shape of its object. -/
theorem submissions_fit {block : TickBlock} (h : block.toJson.fits S = true) :
    ∀ sub ∈ block.submissions, sub.Fits S := by
  intro sub hsub
  simp only [TickBlock.toJson, TickBlock.members, Json.fits, fitsMembers, Bool.and_eq_true] at h
  have hobj := fitsElements_map.mp h.2.2.1 sub hsub
  simp only [Submission.toJson, Json.fits, List.cons_append, fitsMembers, Bool.and_eq_true] at hobj
  obtain ⟨-, hcal, htrace, -⟩ := hobj
  refine ⟨hcal, ?_⟩
  simp only [ExecutionTrace.toJson, Json.fits, List.cons_append, fitsMembers, Bool.and_eq_true] at htrace
  intro tr htr e he
  have hstep := fitsElements_map.mp htrace.2.2.1 tr htr
  simp only [StepResult.toJson, Json.fits, List.cons_append, fitsMembers, Bool.and_eq_true] at hstep
  exact fitsElements_iff.mp hstep.2.2.1 e he

/-- The state of a fold is a value of the language. -/
theorem foldBlocks_ordered {incr : IncrementalState} {blocks : List TickBlock} {folded : Folded}
    (hincr : incr.state.fits ordered = true) (hblocks : ∀ b ∈ blocks, b.Durable)
    (h : foldBlocks H incr blocks = .ok folded) : folded.incr.state.fits ordered = true :=
  foldBlocks_fits ordered_closed (fun _ => rfl) hincr
    (fun b hb => submissions_fit (hblocks b hb).ordered) h

end ParadigmTerra
