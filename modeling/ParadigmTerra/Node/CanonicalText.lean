import ParadigmTerra.Cal.Schema
import ParadigmTerra.Canonical.Bytes
import ParadigmTerra.Node.Likeness

/-!
# Reading a canonical text back

The canonical text of a value is JSON, and the reader finds the value in it, with its strings in their
NFC form. `read_serialize` says so for every value that is serialized.

`agent_nonce_of_bytes` is what the node needs of it: CALs with the same canonical bytes name the same agent
and the same nonce. The bytes fix the text up to lone surrogates, so the readers of the two texts are alike,
and the agent and the nonce are ASCII.
-/

namespace ParadigmTerra.JsonText

open Text OrderedMap Fallible

variable {H : Host}

/-! ## Strings and numbers -/

/-- The inside of a canonical string literal is read back. -/
theorem readAll_escapeUnits (st : List Frame) (b : Bool) (s t : Str) :
    readAll (st, .string b s) (t.flatMap escapeUnit) = some (st, .string b (s ++ t)) := by
  induction t generalizing s with
  | nil => simp
  | cons u t ih =>
    rw [List.flatMap_cons, readAll_append_of (readAll_escapeUnit st b s u), ih]
    simp

/-- A canonical string literal is a quote, the units and a quote. -/
theorem escapeString_eq_ok {s t : Str} (h : escapeString H s = .ok t) :
    t = 0x22 :: ((H.normalize s).flatMap escapeUnit ++ [0x22]) := by
  simp only [escapeString, bind_eq_ok, pure_eq_ok] at h
  obtain ⟨-, -, -, -, rfl⟩ := h
  rfl

theorem readAll_escaped_tail (st : List Frame) (b : Bool) (s : Str) :
    readAll (st, .string b []) (s.flatMap escapeUnit ++ [0x22]) = some (closeString st b s) := by
  rw [readAll_append_of (readAll_escapeUnits st b [] s)]
  rfl

theorem isNumber_decimal (n : ℤ) : isNumber (decimal n) = true := by
  have hnat := isDecimal_decimalNat n.natAbs
  unfold decimal
  split
  · -- the sign is split off, and the digits are a number
    have hsplit : (splitSign (45 :: decimalNat n.natAbs)).2 = (splitSign (decimalNat n.natAbs)).2 := by
      obtain ⟨hne, hdigits⟩ := decimalNat_digits n.natAbs
      cases hl : decimalNat n.natAbs with
      | nil => exact absurd hl hne
      | cons u l =>
        have hu : u ≠ 45 := by
          rintro rfl
          have := hdigits 45 (by rw [hl]; simp)
          cases this
        unfold splitSign
        split
        · next heq =>
          cases heq
          split
          · next heq => exact absurd (List.cons.inj heq).1 hu
          · rfl
        · next hneg => exact absurd rfl (hneg (u :: l))
    have h := isNumber_of_isDecimal hnat
    unfold isNumber at h ⊢
    rw [hsplit]
    exact h
  · exact isNumber_of_isDecimal hnat

/-- A number is read as its text. -/
theorem readAll_decimal (st : List Frame) (n : ℤ) :
    readAll (st, .value) (decimal n) = some (st, .number (decimal n)) := by
  obtain ⟨hne, hdigits⟩ := decimalNat_digits n.natAbs
  unfold decimal
  split
  · rw [readAll_cons, read]
    have hminus : readValue st 45 = some (st, .number [45]) := rfl
    rw [hminus, Option.bind_some, readAll_number hdigits]
    rfl
  · cases hl : decimalNat n.natAbs with
    | nil => exact absurd hl hne
    | cons u l =>
      rw [hl] at hdigits
      rw [readAll_cons, read, readValue_digit (hdigits u (by simp)), Option.bind_some,
        readAll_number fun w hw => hdigits w (by simp [hw])]
      rfl

/-! ## Values -/

/-- The text is read as the value, wherever a value may stand. -/
structure TextReads (s : Str) (raw : Raw) : Prop where
  reads : ∀ st, readAll (st, .value) s = some (st, raw.after)
  opens : ∃ c t, s = c :: t ∧ isSpace c = false ∧ c ≠ 0x5D
  number : ∀ l, raw = .num l → isNumber l = true

/-- After a value, a unit that no number contains closes it. -/
theorem TextReads.read_after {s : Str} {raw : Raw} (h : TextReads s raw) {st : List Frame}
    {c : UInt16} (hc : isNumberUnit c = false) : read (st, raw.after) c = readAfter st raw c := by
  cases raw with
  | num l => simp [Raw.after, read, hc, h.number l rfl]
  | _ => rfl

/-- The elements of an array, joined. -/
theorem readAll_joined {parts : List Str} {raws : List Raw}
    (h : List.Forall₂ TextReads parts raws) (hne : parts ≠ []) (done : List Raw)
    (st : List Frame) :
    readAll (.arr done :: st, .value) (joinWith (js ",") parts ++ [0x5D]) =
      some (st, .done (.arr (done ++ raws))) := by
  induction h generalizing done with
  | nil => exact absurd rfl hne
  | @cons s raw parts raws hs hrest ih =>
    cases hrest with
    | nil =>
      rw [joinWith, readAll_append_of (hs.reads _), readAll_cons, hs.read_after (by decide)]
      rfl
    | @cons s' raw' parts raws hs' hrest =>
      have ih := ih (by simp) (done ++ [raw])
      have hcomma : js "," = [0x2C] := by decide
      rw [joinWith, List.append_assoc, List.append_assoc, readAll_append_of (hs.reads _), hcomma,
        List.cons_append, List.nil_append, readAll_cons, hs.read_after (by decide)]
      rw [hcomma, List.append_assoc] at ih
      exact ih

/-- A member as it is written: the literal of its key, a colon and its value. -/
structure MemberReads (s : Str) (e : Str × Raw) : Prop where
  split : ∃ t, s = 0x22 :: (e.1.flatMap escapeUnit ++ [0x22]) ++ js ":" ++ t ∧ TextReads t e.2

/-- A member up to what closes it. -/
theorem MemberReads.readAll {s : Str} {e : Str × Raw} (h : MemberReads s e)
    {m : List (Str × Raw)} {mode : Mode} (hmode : mode = .firstKey ∨ mode = .nextKey)
    (st : List Frame) {c : UInt16} (hc : isNumberUnit c = false) (rest : Str) :
    readAll (.key m :: st, mode) (s ++ c :: rest) =
      (readAfter (.field m e.1 :: st) e.2 c).bind fun r => JsonText.readAll r rest := by
  obtain ⟨t, rfl, ht⟩ := h.split
  have hopen : read (.key m :: st, mode) 0x22 = some (.key m :: st, .string true []) := by
    rcases hmode with rfl | rfl <;> rfl
  have hcolon : js ":" = [0x3A] := by decide
  rw [List.append_assoc, List.append_assoc, List.cons_append, readAll_cons, hopen, Option.bind_some,
    readAll_append_of (readAll_escaped_tail (.key m :: st) true e.1), hcolon, List.cons_append,
    List.nil_append, readAll_cons]
  have hfield : read (closeString (.key m :: st) true e.1) 0x3A = some (.field m e.1 :: st, .value) :=
    rfl
  rw [hfield, Option.bind_some, readAll_append_of (ht.reads _), readAll_cons, ht.read_after hc]

/-- The members of an object, joined. -/
theorem readAll_joined_members {parts : List Str} {es : List (Str × Raw)}
    (h : List.Forall₂ MemberReads parts es) (hne : parts ≠ []) (acc : List (Str × Raw)) {mode : Mode}
    (hmode : mode = .firstKey ∨ mode = .nextKey) (st : List Frame) :
    readAll (.key acc :: st, mode) (joinWith (js ",") parts ++ [0x7D]) =
      some (st, .done (.obj (es.foldl (fun a e => put keyBefore e.1 e.2 a) acc))) := by
  induction h generalizing acc mode with
  | nil => exact absurd rfl hne
  | @cons s e parts es hs hrest ih =>
    cases hrest with
    | nil =>
      rw [joinWith, hs.readAll hmode st (by decide)]
      rfl
    | @cons s' e' parts es hs' hrest =>
      have ih := @ih (by simp) (put keyBefore e.1 e.2 acc) .nextKey (.inr rfl)
      have hcomma : js "," = [0x2C] := by decide
      rw [joinWith, List.append_assoc, List.append_assoc, hcomma, List.cons_append, List.nil_append,
        hs.readAll hmode st (by decide)]
      rw [hcomma] at ih
      exact ih

/-- What a value is read as: numbers as their text, strings in their NFC form. -/
structure ReadAs (H : Host) (v : Json) (raw : Raw) : Prop where
  int : ∀ n, v = .int n → raw = .num (decimal n)
  str : ∀ t, v = .str t → raw = .str (H.normalize t)

/-- The text of a value, if it is serialized, is read as the value. -/
def ReadsBack (H : Host) (v : Json) : Prop :=
  ∀ s, serialize H v = .ok s → ∃ raw, TextReads s raw ∧ ReadAs H v raw

/-- The members that the text of an object is read with, next to those that it is the text of. -/
def MembersRead (H : Host) (m : List (Str × Json)) (es : List (Str × Raw)) : Prop :=
  List.Forall₂ (fun e r => r.1 = H.normalize e.1 ∧ ReadAs H e.2 r.2) (sortedMembers H m) es

/-- The text of an object is read as its members, set one after another in sorted order. -/
theorem read_object {m : List (Str × Json)} (hm : ∀ e ∈ m, ReadsBack H e.2) {s : Str}
    (h : serialize H (.obj m) = .ok s) :
    ∃ es, MembersRead H m es ∧
      TextReads s (.obj (es.foldl (fun a e => put keyBefore e.1 e.2 a) [])) := by
  simp only [serialize, bind_eq_ok, pure_eq_ok] at h
  obtain ⟨parts, hparts, rfl⟩ := h
  have hsort : (serializeMembers H m).insertionSort (fun a b => keyLe H a.1 b.1 = true) =
      (sortedMembers H m).map fun e => (e.1, serialize H e.2) := by
    rw [serializeMembers_eq, sortedMembers]
    exact (List.map_insertionSort (fun a b : Str × Json => keyLe H a.1 b.1 = true)
      (fun a b : Str × Except Throw Str => keyLe H a.1 b.1 = true) _ m fun a _ b _ => Iff.rfl).symm
  rw [hsort, mapM_ok, List.forall₂_map_left_iff] at hparts
  have hmem : ∀ e ∈ sortedMembers H m, ReadsBack H e.2 := fun e he =>
    hm e ((List.mem_insertionSort _).mp he)
  -- each part is the text of a member
  have hes : ∃ es, MembersRead H m es ∧ List.Forall₂ MemberReads parts es := by
    unfold MembersRead
    generalize sortedMembers H m = l at hparts hmem
    clear hsort hm
    induction hparts with
    | nil => exact ⟨[], .nil, .nil⟩
    | @cons e s l parts he _ ih =>
      obtain ⟨es, hes, hreads⟩ := ih fun x hx => hmem x (List.mem_cons_of_mem _ hx)
      simp only [bind_eq_ok, pure_eq_ok] at he
      obtain ⟨k, hk, t, ht, rfl⟩ := he
      obtain ⟨raw, htext, hraw⟩ := hmem e (by simp) t ht
      exact ⟨(H.normalize e.1, raw) :: es, .cons ⟨rfl, hraw⟩ hes,
        .cons ⟨t, by rw [escapeString_eq_ok hk], htext⟩ hreads⟩
  obtain ⟨es, hmembers, hreads⟩ := hes
  refine ⟨es, hmembers, ⟨fun st => ?_, ⟨0x7B, _, rfl, by decide, by decide⟩, fun l hl => by cases hl⟩⟩
  have hbrace : js "\x7b" = [0x7B] := by decide
  have hclose : js "\x7d" = [0x7D] := by decide
  rw [hbrace, hclose, List.append_assoc, List.cons_append, List.nil_append, readAll_cons]
  have hopen : read (st, .value) 0x7B = some (.key [] :: st, .firstKey) := rfl
  rw [hopen, Option.bind_some]
  cases hreads with
  | nil => rfl
  | cons hs hrest => exact readAll_joined_members (.cons hs hrest) (by simp) [] (.inl rfl) st

/-- The text of an array is read as its elements. -/
theorem read_array {xs : List Json} (hxs : ∀ x ∈ xs, ReadsBack H x) {s : Str}
    (h : serialize H (.arr xs) = .ok s) : ∃ raws, TextReads s (.arr raws) := by
  simp only [serialize, bind_eq_ok, pure_eq_ok] at h
  obtain ⟨parts, hparts, rfl⟩ := h
  have hraws : ∃ raws, List.Forall₂ TextReads parts raws := by
    induction xs generalizing parts with
    | nil =>
      cases hparts
      exact ⟨[], .nil⟩
    | cons x xs ih =>
      simp only [serializeElements, bind_eq_ok, pure_eq_ok] at hparts
      obtain ⟨t, ht, ts, hts, rfl⟩ := hparts
      obtain ⟨raws, hraws⟩ := ih (fun y hy => hxs y (by simp [hy])) ts hts
      obtain ⟨raw, htext, -⟩ := hxs x (by simp) t ht
      exact ⟨raw :: raws, .cons htext hraws⟩
  obtain ⟨raws, hraws⟩ := hraws
  refine ⟨raws, ⟨fun st => ?_, ⟨0x5B, _, rfl, by decide, by decide⟩, fun l hl => by cases hl⟩⟩
  have hopen : js "[" = [0x5B] := by decide
  have hclose : js "]" = [0x5D] := by decide
  rw [hopen, hclose, List.append_assoc, List.cons_append, List.nil_append, readAll_cons]
  have hread : read (st, .value) 0x5B = some (.arr [] :: st, .firstElement) := rfl
  rw [hread, Option.bind_some]
  cases hraws with
  | nil => rfl
  | @cons s raw parts raws hs hrest =>
    -- the first unit of an element is neither a space nor a closing bracket
    have hfirst : ∀ t, readAll (.arr [] :: st, .firstElement) (s ++ t) =
        readAll (.arr [] :: st, .value) (s ++ t) := by
      intro t
      obtain ⟨c, u, rfl, hspace, hc⟩ := hs.opens
      rw [List.cons_append, readAll_cons, readAll_cons]
      simp [read, hspace, hc]
    have hall := readAll_joined (.cons hs hrest) (by simp) [] st
    cases parts with
    | nil =>
      rw [joinWith, hfirst]
      exact hall
    | cons s' parts =>
      rw [joinWith, List.append_assoc, List.append_assoc] at hall ⊢
      rw [hfirst]
      exact hall

mutual

/-- The text of a value is read as the value. -/
theorem read_serialize (H : Host) (v : Json) : ReadsBack H v := by
  intro s h
  cases v with
  | null =>
    cases h
    exact ⟨.null, ⟨fun st => rfl, ⟨_, _, rfl, by decide, by decide⟩, fun l hl => by cases hl⟩,
      ⟨fun n hn => (by cases hn), fun t ht => (by cases ht)⟩⟩
  | bool b =>
    cases h
    refine ⟨.bool b, ⟨fun st => ?_, ?_, fun l hl => by cases hl⟩,
      ⟨fun n hn => (by cases hn), fun t ht => (by cases ht)⟩⟩
    · cases b <;> rfl
    · cases b <;> exact ⟨_, _, rfl, by decide, by decide⟩
  | int n =>
    cases h
    refine ⟨.num (decimal n), ⟨fun st => readAll_decimal st n, ?_, fun l hl => ?_⟩,
      ⟨fun k hk => (by cases hk; rfl), fun t ht => (by cases ht)⟩⟩
    · -- the sign or the first digit
      have hd := decimalNat_digits n.natAbs
      unfold decimal
      split
      · exact ⟨_, _, rfl, by decide, by decide⟩
      · cases hl : decimalNat n.natAbs with
        | nil => exact absurd hl hd.1
        | cons u l =>
          have hu : isDigit u = true := hd.2 u (by rw [hl]; simp)
          refine ⟨u, l, rfl, ?_, ?_⟩
          · by_contra hs
            have : readValue [] u = some ([], .number [u]) := readValue_digit hu
            rw [readValue, if_pos (by simpa using hs)] at this
            cases this
          · rintro rfl
            cases hu
    · cases hl
      exact isNumber_decimal n
  | str t =>
    rw [escapeString_eq_ok h]
    refine ⟨.str (H.normalize t), ⟨fun st => ?_, ⟨_, _, rfl, by decide, by decide⟩,
      fun l hl => by cases hl⟩, ⟨fun n hn => (by cases hn), fun u hu => (by cases hu; rfl)⟩⟩
    rw [readAll_cons]
    exact readAll_escaped_tail st false (H.normalize t)
  | arr xs =>
    obtain ⟨raws, hraws⟩ := read_array (read_serialize_elements H xs) h
    exact ⟨_, hraws, ⟨fun n hn => (by cases hn), fun t ht => (by cases ht)⟩⟩
  | obj m =>
    obtain ⟨es, -, hes⟩ := read_object (read_serialize_members H m) h
    exact ⟨_, hes, ⟨fun n hn => (by cases hn), fun t ht => (by cases ht)⟩⟩
  | builtin k => cases h

theorem read_serialize_elements (H : Host) (xs : List Json) : ∀ x ∈ xs, ReadsBack H x := by
  intro x hx
  cases xs with
  | nil => cases hx
  | cons y ys =>
    rcases List.mem_cons.mp hx with rfl | hx
    · exact read_serialize H x
    · exact read_serialize_elements H ys x hx

theorem read_serialize_members (H : Host) (m : List (Str × Json)) : ∀ e ∈ m, ReadsBack H e.2 := by
  intro e he
  cases m with
  | nil => cases he
  | cons f m =>
    obtain ⟨k, x⟩ := f
    rcases List.mem_cons.mp he with rfl | he
    · exact read_serialize H x
    · exact read_serialize_members H m e he

end

end ParadigmTerra.JsonText

namespace ParadigmTerra

open Text OrderedMap Fallible JsonText

variable {H : Host}

/-! ## The text of a CAL -/

/-- The text of an object with ASCII names is read as an object with the members that are integers and
strings. -/
theorem read_canonical {m : List (Str × Json)} (hH : H.FixesAscii)
    (hascii : ∀ e ∈ m, isAscii e.1 = true) (hm : (m.map Prod.fst).Nodup) {b : List UInt8}
    (h : canonicalizeValue H (some (.obj m)) = .ok b) :
    ∃ text ms, b = utf8Encode text ∧
      (∀ st, readAll (st, .value) text = some (st, .done (.obj ms))) ∧
      (∀ k n, k ≠ js "__proto__" → get k m = some (.int n) →
        get k ms = some (.num (decimal n))) ∧
      (∀ k s, k ≠ js "__proto__" → get k m = some (.str s) →
        get k ms = some (.str (H.normalize s))) := by
  simp only [canonicalizeValue, coerceToJcsValue, bind_eq_ok, pure_eq_ok] at h
  obtain ⟨-, ⟨m', hm', rfl⟩, text, htext, rfl⟩ := h
  have hco := coerceMembers_eq_ok hm'
  have hkeys := map_fst_forall₂ (R := fun v w => coerceToJcsValue v = .ok w) hco
  generalize hl : m'.foldl (fun out e => assignMember e.1 e.2 out) [] = l at htext
  have hl_nodup : (l.map Prod.fst).Nodup := hl ▸ nodup_foldl_assign m'
  have hl_ascii : ∀ e ∈ l, isAscii e.1 = true := by
    intro e he
    have hmem : e ∈ m' := mem_keys_foldl_assign (hl ▸ he)
    have hfst : e.1 ∈ m.map Prod.fst := hkeys ▸ List.mem_map.mpr ⟨e, hmem, rfl⟩
    obtain ⟨f, hf, hfe⟩ := List.mem_map.mp hfst
    exact hfe ▸ hascii f hf
  obtain ⟨es, hes, hreads⟩ := read_object (read_serialize_members H l) htext
  have hperm : (sortedMembers H l).Perm l := List.perm_insertionSort _ l
  have hsorted : ((sortedMembers H l).map Prod.fst).Nodup :=
    (hperm.map Prod.fst).nodup_iff.mpr hl_nodup
  -- ASCII names are in NFC
  have hes' : List.Forall₂ (fun e r => r.1 = e.1 ∧ ReadAs H e.2 r.2) (sortedMembers H l) es := by
    have hmem : ∀ e ∈ sortedMembers H l, isAscii e.1 = true :=
      fun e he => hl_ascii e (hperm.mem_iff.mp he)
    refine List.Forall₂.imp ?_ ((List.forall₂_and_left (p := fun e : Str × Json => isAscii e.1 = true) _ _).mpr ⟨hmem, hes⟩)
    rintro e r ⟨he, hr, hread⟩
    exact ⟨by rw [hr, hH _ he], hread⟩
  have hes_nodup : (es.map Prod.fst).Nodup := by rw [map_fst_forall₂ (R := ReadAs H) hes']; exact hsorted
  have hget : ∀ k v, k ≠ js "__proto__" → get k m = some v → coerceToJcsValue v = .ok v →
      ∃ raw, get k (es.foldl (fun a e => put keyBefore e.1 e.2 a) []) = some raw ∧
        ReadAs H v raw := by
    intro k v hk hv hself
    obtain ⟨w, hw, hcoerced⟩ := get_forall₂ (R := fun v w => coerceToJcsValue v = .ok w) hco hv
    rw [hself] at hcoerced
    cases hcoerced
    have hlk : get k l = some v := by
      rw [← hl, get_foldl_assign (by rw [hkeys]; exact hm) hk, hw]
    rw [← get_perm hsorted hperm] at hlk
    obtain ⟨raw, hraw, hread⟩ := get_forall₂ (R := ReadAs H) hes' hlk
    exact ⟨raw, by rw [get_foldl_put hes_nodup, hraw]; rfl, hread⟩
  refine ⟨text, _, rfl, hreads.reads, fun k n hk hn => ?_, fun k s hk hs => ?_⟩
  · obtain ⟨raw, hraw, hread⟩ := hget k (.int n) hk hn rfl
    rw [hraw, hread.int n rfl]
  · obtain ⟨w, hw, hcoerced⟩ := get_forall₂ (R := fun v w => coerceToJcsValue v = .ok w) hco hs
    simp only [coerceToJcsValue, bind_eq_ok, pure_eq_ok] at hcoerced
    obtain ⟨u, hu, rfl⟩ := hcoerced
    have hself : coerceToJcsValue (.str s) = .ok (.str s) := by
      simp only [coerceToJcsValue, hu, ok_bind]
      rfl
    obtain ⟨raw, hraw, hread⟩ := hget k (.str s) hk hs hself
    rw [hraw, hread.str s rfl]

/-- The names of the members of an accepted CAL. -/
theorem validateCal_keys {m : List (Str × Json)} {cal : Json} (h : validateCal (.obj m) = .ok cal) :
    ∀ e ∈ m, e.1 ∈ TOP_LEVEL_KEYS := by
  simp only [validateCal, parsedInput, bind_eq_ok, pure_eq_ok] at h
  obtain ⟨v, rfl, o, ho, _, hkeys, -⟩ := h
  obtain ⟨heq, -⟩ := asObject_eq_ok ho
  cases heq
  unfold checkUnexpected at hkeys
  split at hkeys
  · cases hkeys
  · next hnone =>
    intro e he
    have := List.find?_eq_none.mp hnone e he
    simpa using this

theorem isAscii_topLevelKeys : ∀ k ∈ TOP_LEVEL_KEYS, isAscii k = true := by decide

theorem isAscii_of_isDigit {u : UInt16} (h : isDigit u = true) : u.toNat < 0x80 := by
  simp only [isDigit, Bool.and_eq_true, decide_eq_true_eq] at h
  omega

/-- A canonical address is ASCII. -/
theorem isAscii_of_isCanonicalAddress {a : Str} (h : isCanonicalAddress a = true) :
    isAscii a = true := by
  simp only [isCanonicalAddress, Bool.and_eq_true] at h
  have hshape := h.1.1
  unfold isAddressShape at hshape
  simp only [Bool.and_eq_true] at hshape
  obtain ⟨-, hrest⟩ := hshape
  have hsplit : isAscii (splitSign a).2 = true → isAscii a = true := by
    unfold splitSign
    split
    · intro hs
      rw [isAscii, List.all_cons, Bool.and_eq_true]
      exact ⟨by decide, hs⟩
    · exact id
  refine hsplit ?_
  generalize (splitSign a).2 = r at hrest
  -- digits, a colon and hex digits
  rw [← List.takeWhile_append_dropWhile (p := isDigit) (l := r), isAscii, List.all_append,
    Bool.and_eq_true]
  refine ⟨List.all_eq_true.mpr fun u hu => ?_, ?_⟩
  · exact decide_eq_true (isAscii_of_isDigit (List.mem_takeWhile_imp hu))
  · split at hrest
    · next hex heq =>
      rw [heq, List.all_cons, Bool.and_eq_true]
      refine ⟨by decide, List.all_eq_true.mpr fun u hu => decide_eq_true ?_⟩
      rw [Bool.and_eq_true] at hrest
      have hu := List.all_eq_true.mp hrest.1 u hu
      simp only [isLowerHexDigit, Bool.or_eq_true, Bool.and_eq_true, decide_eq_true_eq] at hu
      rcases hu with hu | hu
      · exact isAscii_of_isDigit hu
      · omega
    · cases hrest

theorem decimal_inj {n k : ℤ} (h : decimal n = decimal k) : n = k := by
  have h1 := bigIntOfStr_decimal n
  rw [h, bigIntOfStr_decimal k] at h1
  cases h1
  rfl

/-- The agent and the nonce that a CAL names. -/
structure NamesAgentNonce (cal : Json) (agent : Str) (nonce : ℤ) : Prop where
  agent : getIn cal [js "agent_id"] = some (.str agent)
  nonce : getIn cal [js "nonce"] = some (.int nonce)

theorem getIn_obj {m : List (Str × Json)} {k : Str} (hk : k ∉ inheritedNames) :
    getIn (.obj m) [k] = get k m := by
  rw [getIn_singleton rfl, Json.read_of_not_inherited hk]

/-- The text of an accepted CAL is read as an object with its agent and its nonce. -/
theorem read_cal (hH : H.FixesAscii) {m : List (Str × Json)} {cal : Json}
    (hval : validateCal (.obj m) = .ok cal) (hm : (m.map Prod.fst).Nodup) {b : List UInt8}
    (hb : canonicalUnsignedBytes H (.obj m) = .ok b) {agent : Str} {nonce : ℤ}
    (hnames : NamesAgentNonce (.obj m) agent nonce) :
    ∃ text ms, b = utf8Encode text ∧
      (∀ st, readAll (st, .value) text = some (st, .done (.obj ms))) ∧
      get (js "agent_id") ms = some (.str (H.normalize agent)) ∧
      get (js "nonce") ms = some (.num (decimal nonce)) := by
  simp only [canonicalUnsignedBytes, bind_eq_ok] at hb
  obtain ⟨-, -, hb⟩ := hb
  have hkeys := validateCal_keys hval
  have hfilter : (((Json.obj m).members.filter fun e => e.1 ≠ js "signatures").map Prod.fst).Nodup :=
    hm.sublist (List.filter_sublist.map _)
  have hascii : ∀ e ∈ ((Json.obj m).members.filter fun e => e.1 ≠ js "signatures").foldl
      (fun out e => assignMember e.1 e.2 out) [], isAscii e.1 = true := by
    intro e he
    have hmem := (List.mem_filter.mp (mem_keys_foldl_assign he)).1
    exact isAscii_topLevelKeys _ (hkeys e hmem)
  have hget : ∀ k, k ≠ js "__proto__" → js "signatures" ≠ k →
      get k (((Json.obj m).members.filter fun e => e.1 ≠ js "signatures").foldl
        (fun out e => assignMember e.1 e.2 out) []) = get k m := by
    intro k hk hsig
    rw [get_foldl_assign hfilter hk, get_filter_ne hsig]
    rfl
  obtain ⟨text, ms, hbytes, hreads, hint, hstr⟩ :=
    read_canonical hH hascii (nodup_foldl_assign _) hb
  have hagent := hnames.agent
  have hnonce := hnames.nonce
  rw [getIn_obj (by simp [inheritedNames])] at hagent hnonce
  refine ⟨text, ms, hbytes, hreads, hstr _ _ (by simp) ?_, hint _ _ (by simp) ?_⟩
  · rw [hget _ (by simp) (by simp), hagent]
  · rw [hget _ (by simp) (by simp), hnonce]

/-- CALs with the same canonical bytes name the same agent and the same nonce. -/
theorem agent_nonce_of_bytes (hH : H.FixesAscii) {m m' : List (Str × Json)} {cal cal' : Json}
    (hval : validateCal (.obj m) = .ok cal) (hval' : validateCal (.obj m') = .ok cal')
    (hm : (m.map Prod.fst).Nodup) (hm' : (m'.map Prod.fst).Nodup) {b : List UInt8}
    (hb : canonicalUnsignedBytes H (.obj m) = .ok b)
    (hb' : canonicalUnsignedBytes H (.obj m') = .ok b) {agent agent' : Str} {nonce nonce' : ℤ}
    (h : NamesAgentNonce (.obj m) agent nonce) (h' : NamesAgentNonce (.obj m') agent' nonce') :
    agent = agent' ∧ nonce = nonce' := by
  obtain ⟨text, ms, hbytes, hreads, ha, hn⟩ := read_cal hH hval hm hb h
  obtain ⟨text', ms', hbytes', hreads', ha', hn'⟩ := read_cal hH hval' hm' hb' h'
  have hascii : ∀ {m : List (Str × Json)} {cal : Json} {a : Str}, validateCal (.obj m) = .ok cal →
      getIn (.obj m) [js "agent_id"] = some (.str a) → isAscii a = true := by
    intro m cal a hv ha
    have hspec := validateCal_spec hv
    rw [validateCal_obj hv] at hspec
    obtain ⟨a', ha', hcanon⟩ := hspec.agent
    rw [ha] at ha'
    cases ha'
    exact isAscii_of_isCanonicalAddress hcanon
  have hA := hascii hval h.agent
  have hA' := hascii hval' h'.agent
  rw [hH _ hA] at ha
  rw [hH _ hA'] at ha'
  -- the two texts are alike, so the readers are
  have hstart : Reader.Like ([], .value) ([], .value) := ⟨.nil, .value⟩
  have hlike := readAll_like hstart (mask_of_utf8Encode (hbytes.symm.trans hbytes'))
  rw [hreads, hreads'] at hlike
  cases hlike with
  | some hrel =>
    cases hrel.mode with
    | done hdone =>
      obtain ⟨m'', heq, hmem⟩ := hdone.obj ms rfl
      cases heq
      have h1 := hmem (js "agent_id") (by decide)
      have h2 := hmem (js "nonce") (by decide)
      rw [ha, ha'] at h1
      rw [hn, hn'] at h2
      cases h1 with
      | some h1 =>
        cases h2 with
        | some h2 =>
          have e1 := (h1.str agent hA).mp rfl
          have e2 := (h2.num (decimal nonce)).mp rfl
          rw [Raw.str.injEq] at e1
          rw [Raw.num.injEq] at e2
          exact ⟨e1.symm, decimal_inj e2.symm⟩

end ParadigmTerra
