import ParadigmTerra.Dsl.Parse
import ParadigmTerra.Node.ApplyTick
import ParadigmTerra.Node.Codec

/-!
# The write-ahead log

The log has one line for each tick: the JSON text of its block, in the tagged codec. `dec_enc` says which
values come back from their text, and `parseWalLines_lines` that a reader of the log finds the blocks
again, before anything that a crash may have left behind them.
-/

namespace ParadigmTerra

open Text OrderedMap Fallible JsonText

/-! ## Blocks as objects -/

/-- A member that an object has only if there is a value. -/
def optionalMember (k : String) (v : Option Json) : List (Str × Json) :=
  match v with
  | some v => [(js k, v)]
  | none => []

def StepResult.toJson (tr : StepResult) : Json :=
  .obj ([(js "ok", .bool tr.ok), (js "effects", .arr tr.effects)] ++
    optionalMember "errorDetail" (tr.errorDetail.map .str))

def ExecutionTrace.toJson (trace : ExecutionTrace) : Json :=
  .obj ([(js "currentTick", .int trace.currentTick),
    (js "steps", .arr (trace.steps.map StepResult.toJson)),
    (js "stateBefore", trace.stateBefore), (js "stateAfter", trace.stateAfter),
    (js "operatorSigPresent", .bool trace.operatorSigPresent),
    (js "ownerSigPresent", .bool trace.ownerSigPresent)] ++
    (optionalMember "ownerSigners" (trace.ownerSigners.map fun l => .arr (l.map .str)) ++
    optionalMember "pinnedMcpSchemaHash" (trace.pinnedMcpSchemaHash.map .str)))

def SubmissionMode.text : SubmissionMode → Str
  | .atomic => js "atomic"
  | .validateOnly => js "validate-only"
  | .resume => js "resume"

def SubmissionMode.ofText? (s : Str) : Option SubmissionMode :=
  [SubmissionMode.atomic, .validateOnly, .resume].find? fun mode => mode.text = s

def Submission.toJson (sub : Submission) : Json :=
  .obj ([(js "cal", sub.cal), (js "trace", sub.trace.toJson)] ++
    optionalMember "mode" (sub.mode.map fun mode => .str mode.text))

/-- The members of the object of a block. -/
def TickBlock.members (block : TickBlock) : List (Str × Json) :=
  [(js "tick", .int block.tick), (js "submissions", .arr (block.submissions.map Submission.toJson))]

def TickBlock.toJson (block : TickBlock) : Json := .obj block.members

/-! ## Objects as blocks -/

def boolMember (v : Json) (k : String) : Option Bool :=
  match v.read (js k) with
  | some (.bool b) => some b
  | _ => none

def intMember (v : Json) (k : String) : Option ℤ :=
  match v.read (js k) with
  | some (.int n) => some n
  | _ => none

def listMember (v : Json) (k : String) : Option (List Json) :=
  match v.read (js k) with
  | some (.arr xs) => some xs
  | _ => none

/-- A text, or none if the member is absent. -/
def textMember (v : Json) (k : String) : Option (Option Str) :=
  match v.read (js k) with
  | none => some none
  | some (.str s) => some (some s)
  | _ => none

def textOf? : Json → Option Str
  | .str s => some s
  | _ => none

/-- A list of texts, or none if the member is absent. -/
def textsMember (v : Json) (k : String) : Option (Option (List Str)) :=
  match v.read (js k) with
  | none => some none
  | some (.arr xs) => (xs.mapM textOf?).map some
  | _ => none

def StepResult.ofJson? (v : Json) : Option StepResult := do
  let ok ← boolMember v "ok"
  let effects ← listMember v "effects"
  let errorDetail ← textMember v "errorDetail"
  pure ⟨ok, effects, errorDetail⟩

def ExecutionTrace.ofJson? (v : Json) : Option ExecutionTrace := do
  let currentTick ← intMember v "currentTick"
  let steps ← listMember v "steps"
  let steps ← steps.mapM StepResult.ofJson?
  let stateBefore ← v.read (js "stateBefore")
  let stateAfter ← v.read (js "stateAfter")
  let operatorSigPresent ← boolMember v "operatorSigPresent"
  let ownerSigPresent ← boolMember v "ownerSigPresent"
  let ownerSigners ← textsMember v "ownerSigners"
  let pinnedMcpSchemaHash ← textMember v "pinnedMcpSchemaHash"
  pure ⟨currentTick, steps, stateBefore, stateAfter, operatorSigPresent, ownerSigPresent,
    ownerSigners, pinnedMcpSchemaHash⟩

def modeMember (v : Json) : Option (Option SubmissionMode) := do
  match ← textMember v "mode" with
  | none => pure none
  | some s => (SubmissionMode.ofText? s).map some

def Submission.ofJson? (v : Json) : Option Submission := do
  let cal ← v.read (js "cal")
  let trace ← v.read (js "trace")
  let trace ← ExecutionTrace.ofJson? trace
  let mode ← modeMember v
  pure ⟨cal, trace, mode⟩

def TickBlock.ofJson? (v : Json) : Option TickBlock := do
  let tick ← intMember v "tick"
  let submissions ← listMember v "submissions"
  let submissions ← submissions.mapM Submission.ofJson?
  pure ⟨tick, submissions⟩

/-- Objects are read back one by one. -/
theorem mapM_map_of {α β : Type} {f : α → β} {g : β → Option α} (h : ∀ a, g (f a) = some a)
    (l : List α) : (l.map f).mapM g = some l := by
  induction l with
  | nil => rfl
  | cons a l ih => simp [h, ih]

theorem StepResult.ofJson?_toJson (tr : StepResult) : ofJson? tr.toJson = some tr := by
  obtain ⟨ok, effects, errorDetail⟩ := tr
  cases errorDetail <;>
    simp [toJson, ofJson?, boolMember, listMember, textMember, optionalMember, Json.read,
      OrderedMap.get, inherited, inheritedNames]

theorem ExecutionTrace.ofJson?_toJson (trace : ExecutionTrace) :
    ofJson? trace.toJson = some trace := by
  obtain ⟨currentTick, steps, stateBefore, stateAfter, operatorSig, ownerSig, signers, hash⟩ := trace
  cases signers <;> cases hash <;>
    simp [toJson, ofJson?, boolMember, intMember, listMember, textMember, textsMember,
      optionalMember, Json.read, OrderedMap.get, inherited, inheritedNames,
      mapM_map_of StepResult.ofJson?_toJson, mapM_map_of (f := Json.str) (g := textOf?) fun _ => rfl]

theorem Submission.ofJson?_toJson (sub : Submission) : ofJson? sub.toJson = some sub := by
  obtain ⟨cal, trace, mode⟩ := sub
  have htrace := ExecutionTrace.ofJson?_toJson trace
  cases mode with
  | none =>
    simp [toJson, ofJson?, modeMember, textMember, optionalMember, Json.read, OrderedMap.get,
      inherited, inheritedNames, htrace]
  | some mode =>
    have hmode : SubmissionMode.ofText? mode.text = some mode := by cases mode <;> decide
    simp [toJson, ofJson?, modeMember, textMember, optionalMember, Json.read, OrderedMap.get,
      inherited, inheritedNames, htrace, hmode]

/-- A block is read back from its object. -/
theorem TickBlock.ofJson?_toJson (block : TickBlock) : ofJson? block.toJson = some block := by
  simp [toJson, members, ofJson?, intMember, listMember, Json.read, OrderedMap.get,
    mapM_map_of Submission.ofJson?_toJson]

/-! ## The text of a value -/

/-- `dec(text)`, with the tags of the reader. -/
def dec (tags : Tags) (text : Str) : Except Throw Js :=
  match parse text with
  | some raw => revive tags raw
  | none => throw .syntaxError

theorem dec_stringify {tags : Tags} {raw : Raw} (h : raw.Proper) :
    dec tags (stringify raw) = revive tags raw := by
  rw [dec, parse_stringify h]

/-- The writer omits members, and keeps the order of the others. -/
theorem keys_replacerMembers (m : List (Str × Json)) :
    ((replacerMembers m).map Prod.fst).Sublist (m.map Prod.fst) := by
  induction m with
  | nil => exact List.Sublist.slnil
  | cons e m ih =>
    obtain ⟨k, x⟩ := e
    rw [replacerMembers, List.map_cons]
    split
    · exact ih.cons_cons k
    · exact ih.cons k

theorem normal_replacerMembers {m : List (Str × Json)} (h : Normal keyBefore m) :
    Normal keyBefore (replacerMembers m) := by
  have hkeys : (m.map Prod.fst).Pairwise fun k l => k ≠ l ∧ keyBefore l k = false :=
    List.pairwise_map.mpr h
  exact List.pairwise_map.mp (hkeys.sublist (keys_replacerMembers m))

theorem fits_ordered_obj {m : List (Str × Json)} :
    (Json.obj m).fits ordered = true ↔ Normal keyBefore m ∧ fitsMembers ordered m = true := by
  simp [Json.fits, ordered]

mutual

/-- What is written of a value of the language can be read. -/
theorem proper_replacer (v : Json) (hv : v.fits ordered = true) :
    ∀ r, replacer v = some r → r.Proper := by
  intro r hr
  cases v with
  | obj m =>
    obtain ⟨hnormal, hm⟩ := fits_ordered_obj.mp hv
    cases hr
    exact ⟨normal_replacerMembers hnormal, proper_replacerMembers m hm⟩
  | arr xs =>
    cases hr
    exact proper_replacerElements xs hv
  | int n =>
    cases hr
    exact ⟨List.pairwise_singleton _ _, trivial, trivial⟩
  | builtin k =>
    rw [replacer] at hr
    split_ifs at hr
    cases hr
    exact ⟨normal_nil, trivial⟩
  | null => cases hr; trivial
  | bool b => cases hr; trivial
  | str s => cases hr; trivial

theorem proper_replacerElements (xs : List Json) (hxs : fitsElements ordered xs = true) :
    ProperElements (replacerElements xs) := by
  cases xs with
  | nil => trivial
  | cons x xs =>
    rw [fitsElements, Bool.and_eq_true] at hxs
    refine ⟨?_, proper_replacerElements xs hxs.2⟩
    cases hr : replacer x with
    | none => trivial
    | some r => exact proper_replacer x hxs.1 r hr

theorem proper_replacerMembers (m : List (Str × Json)) (hm : fitsMembers ordered m = true) :
    ProperMembers (replacerMembers m) := by
  cases m with
  | nil => trivial
  | cons e m =>
    obtain ⟨k, x⟩ := e
    rw [fitsMembers, Bool.and_eq_true] at hm
    have hrest := proper_replacerMembers m hm.2
    rw [replacerMembers]
    split
    · next r hr => exact ⟨proper_replacer x hm.1 r hr, hrest⟩
    · exact hrest

end

/-- A value of the language comes back from its text exactly if the codec loses nothing of it. -/
theorem dec_enc {tags : Tags} (htags : tags.Sound) {v : Json} (hv : v.fits ordered = true) :
    (∃ raw, replacer v = some raw ∧ dec tags (stringify raw) = .ok v.toJs) ↔
      v.fits (lossless (tags.map Prod.fst)) = true := by
  rw [← revive_replacer htags v, RoundTrips]
  constructor
  · rintro ⟨raw, hraw, hdec⟩
    rw [dec_stringify (proper_replacer v hv raw hraw)] at hdec
    exact ⟨raw, hraw, hdec⟩
  · rintro ⟨raw, hraw, hrev⟩
    exact ⟨raw, hraw, (dec_stringify (proper_replacer v hv raw hraw)).trans hrev⟩

/-! ## Lines -/

/-- `enc(block)`, the line of a block without its end. -/
def TickBlock.line (block : TickBlock) : Str := stringify (.obj (replacerMembers block.members))

/-- The log of blocks: a line for each. -/
def linesOf (blocks : List TickBlock) : Str := blocks.flatMap fun b => b.line ++ [0x0A]

/-- The bytes of the log of blocks. -/
def walBytes (blocks : List TickBlock) : List UInt8 :=
  blocks.flatMap fun b => utf8Encode (b.line ++ [0x0A])

/-- What has been read on lines, up to the first that cannot be read. -/
def parseLines : List Str → List Js
  | [] => []
  | l :: ls =>
    let t := trim l
    if t = [] then parseLines ls
    else
      match dec walTags t with
      | .ok v => v :: parseLines ls
      | .error _ => []

def parseWalLines (raw : Str) : List Js := parseLines (splitOn 0x0A raw)

/-- A value that has been read, used as a block. -/
def Js.asBlock (v : Js) : Except Throw TickBlock :=
  match v.toJson?.bind TickBlock.ofJson? with
  | some block => pure block
  | none => throw .typeError

/-- The blocks on the lines of a text. -/
def readBlocks (raw : Str) : Except Throw (List TickBlock) := (parseWalLines raw).mapM Js.asBlock

theorem asBlock_toJs (block : TickBlock) : block.toJson.toJs.asBlock = .ok block := by
  rw [Js.asBlock, toJson?_toJs, Option.bind_some, TickBlock.ofJson?_toJson]
  rfl

/-- A block that is a value of the language and comes back from its line. -/
structure TickBlock.Durable (block : TickBlock) : Prop where
  ordered : block.toJson.fits ordered = true
  lossless : block.toJson.fits (lossless [BIGINT_TAG]) = true

section

variable {block : TickBlock} {blocks : List TickBlock}

theorem proper_line (h : block.toJson.fits ordered = true) :
    (Raw.obj (replacerMembers block.members)).Proper :=
  proper_replacer block.toJson h _ rfl

/-- A block is read back from its line exactly if the codec loses nothing of it. -/
theorem dec_line (h : block.toJson.fits ordered = true) :
    dec walTags block.line = .ok block.toJson.toJs ↔
      block.toJson.fits (lossless [BIGINT_TAG]) = true := by
  have hiff := dec_enc walTags_sound h
  rw [show walTags.map Prod.fst = [BIGINT_TAG] from rfl] at hiff
  rw [← hiff]
  constructor
  · intro hdec
    exact ⟨_, rfl, hdec⟩
  · rintro ⟨raw, hraw, hdec⟩
    cases hraw
    exact hdec

/-- A line is printable, from an opening to a closing brace. -/
theorem printable_line (h : block.toJson.fits ordered = true) : Printable block.line :=
  printable_stringify _ (proper_line h)

theorem line_eq (block : TickBlock) :
    ∃ inner, block.line = 0x7B :: inner ++ [0x7D] := ⟨_, rfl⟩

theorem trim_braces (inner : Str) : trim (0x7B :: inner ++ [0x7D]) = 0x7B :: inner ++ [0x7D] := by
  have hopen : isTrimmed 0x7B = false := by decide
  have hclose : isTrimmed 0x7D = false := by decide
  simp [trim, hopen, hclose]

theorem splitOn_line {s : Str} (h : ∀ c ∈ s, c ≠ 0x0A) (t : Str) :
    splitOn 0x0A (s ++ 0x0A :: t) = s :: splitOn 0x0A t := by
  induction s with
  | nil => simp [splitOn]
  | cons c s ih =>
    obtain ⟨hc, hs⟩ := List.forall_mem_cons.mp h
    rw [List.cons_append, splitOn, if_neg hc, ih hs]

theorem ne_newline_of_printable {s : Str} (h : Printable s) : ∀ c ∈ s, c ≠ 0x0A := by
  intro c hc heq
  have hle := h.2 c hc
  rw [heq] at hle
  exact absurd hle (by decide)

/-- The reader of a log finds the blocks of its lines, and goes on with what follows them. -/
theorem parseWalLines_lines (h : ∀ b ∈ blocks, b.Durable) (t : Str) :
    parseWalLines (linesOf blocks ++ t) =
      blocks.map (fun b => b.toJson.toJs) ++ parseWalLines t := by
  induction blocks with
  | nil => rfl
  | cons b bs ih =>
    obtain ⟨hb, hbs⟩ := List.forall_mem_cons.mp h
    obtain ⟨inner, hline⟩ := line_eq b
    have htrim : trim b.line = b.line := by rw [hline, trim_braces]
    have hne : b.line ≠ [] := by simp [hline]
    have hdec := (dec_line hb.ordered).mpr hb.lossless
    have hsplit := splitOn_line (ne_newline_of_printable (printable_line hb.ordered))
      (linesOf bs ++ t)
    have hih := ih hbs
    rw [parseWalLines] at hih ⊢
    rw [linesOf, List.flatMap_cons, List.append_assoc, List.append_assoc, List.singleton_append,
      ← linesOf, hsplit]
    simp only [parseLines, htrim, if_neg hne, hdec, List.map_cons, List.cons_append, hih]

/-- No block is on no line. -/
theorem parseWalLines_nil : parseWalLines [] = [] := by
  simp [parseWalLines, parseLines, splitOn, trim]

/-- The bytes of a log are read as its lines, in front of any further bytes. -/
theorem utf8Decode_walBytes (h : ∀ b ∈ blocks, b.Durable) (r : List UInt8) :
    utf8Decode (walBytes blocks ++ r) = linesOf blocks ++ utf8Decode r := by
  induction blocks with
  | nil => rfl
  | cons b bs ih =>
    obtain ⟨hb, hbs⟩ := List.forall_mem_cons.mp h
    have hwf : wellFormed (b.line ++ [0x0A]) = true :=
      wellFormed_append (printable_line hb.ordered).1 (by decide)
    rw [walBytes, List.flatMap_cons, List.append_assoc, utf8Decode_encode_append hwf, ← walBytes,
      ih hbs, linesOf, linesOf, List.flatMap_cons]
    simp only [List.append_assoc]

/-- The reader of a log finds its blocks, and goes on with the bytes behind it. -/
theorem readBlocks_append (h : ∀ b ∈ blocks, b.Durable) (r : List UInt8) :
    readBlocks (utf8Decode (walBytes blocks ++ r)) = (do
      let more ← readBlocks (utf8Decode r)
      pure (blocks ++ more)) := by
  have hblocks : (blocks.map fun b => b.toJson.toJs).mapM Js.asBlock = .ok blocks :=
    mapM_ok.mpr (List.forall₂_map_left_iff.mpr (List.forall₂_same.mpr fun b _ => asBlock_toJs b))
  rw [utf8Decode_walBytes h, readBlocks, parseWalLines_lines h, List.mapM_append, hblocks]
  rfl

/-- A log is read back from its bytes. -/
theorem readBlocks_walBytes (h : ∀ b ∈ blocks, b.Durable) :
    readBlocks (utf8Decode (walBytes blocks)) = .ok blocks := by
  have hread := readBlocks_append h []
  have hnil : readBlocks (utf8Decode []) = .ok [] := by
    rw [utf8Decode, readBlocks, parseWalLines_nil]
    rfl
  rw [List.append_nil, hnil, ok_bind, List.append_nil] at hread
  exact hread

end

end ParadigmTerra
