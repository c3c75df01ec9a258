import ParadigmTerra.Node.JsonText
import ParadigmTerra.Shape

/-!
# Texts that differ outside ASCII

The encoder writes U+FFFD for a lone surrogate, so that two texts can have the same UTF-8 bytes. They are
alike then: they agree on their ASCII units, unit by unit (`mask_of_utf8Encode`). Outside of ASCII a JSON
text has only the units of its strings, so that the reader goes through the same states on both
(`readAll_like`), up to what is not ASCII in these strings.
-/

namespace ParadigmTerra.Text

/-- A string with every unit that is not ASCII replaced by U+FFFD. -/
def mask (s : Str) : Str := s.map fun u => if u.toNat < 0x80 then u else replacement

@[simp] theorem mask_nil : mask [] = [] := rfl

theorem mask_cons (u : UInt16) (s : Str) : mask (u :: s) = mask [u] ++ mask s := rfl

@[simp] theorem mask_append (s t : Str) : mask (s ++ t) = mask s ++ mask t := List.map_append

theorem mask_of_not_ascii {u : UInt16} (h : ¬u.toNat < 0x80) : mask [u] = [replacement] := by
  simp [mask, h]

theorem mask_of_ascii {u : UInt16} (h : u.toNat < 0x80) : mask [u] = [u] := by simp [mask, h]

/-- Units with one mask are equal, or neither is ASCII. -/
theorem mask_singleton {u v : UInt16} (h : mask [u] = mask [v]) :
    u = v ∨ ¬u.toNat < 0x80 ∧ ¬v.toNat < 0x80 := by
  have hrep : ¬replacement.toNat < 0x80 := by decide
  by_cases hu : u.toNat < 0x80 <;> by_cases hv : v.toNat < 0x80
  · rw [mask_of_ascii hu, mask_of_ascii hv] at h
    exact .inl (List.cons.inj h).1
  · rw [mask_of_ascii hu, mask_of_not_ascii hv] at h
    obtain rfl := (List.cons.inj h).1
    exact absurd hu hrep
  · rw [mask_of_not_ascii hu, mask_of_ascii hv] at h
    obtain rfl := (List.cons.inj h).1
    exact absurd hv hrep
  · exact .inr ⟨hu, hv⟩

/-- An ASCII string is the only one with its mask. -/
theorem eq_of_mask {s t : Str} (hs : isAscii s = true) (h : mask s = mask t) : s = t := by
  induction s generalizing t with
  | nil =>
    cases t with
    | nil => rfl
    | cons v t => cases h
  | cons u s ih =>
    cases t with
    | nil => cases h
    | cons v t =>
      rw [isAscii, List.all_cons, Bool.and_eq_true, decide_eq_true_eq] at hs
      rw [mask_cons u, mask_cons v] at h
      obtain ⟨hu, hrest⟩ : mask [u] = mask [v] ∧ mask s = mask t :=
        List.append_inj h rfl
      rcases mask_singleton hu with rfl | ⟨hn, -⟩
      · rw [ih hs.2 hrest]
      · exact absurd hs.1 hn

/-- The bytes of a code point are those of a scalar value whose units have the same mask. -/
theorem utf8CodePoint_scalar (c : ℕ) (hc : c < 0x110000) :
    ∃ d, IsScalar d ∧ utf8CodePoint c = utf8CodePoint d ∧ mask (pointUnits c) = mask (pointUnits d) := by
  by_cases h : 0xD800 ≤ c ∧ c < 0xE000
  · refine ⟨0xFFFD, by unfold IsScalar; omega, ?_, ?_⟩
    · rw [utf8CodePoint, if_neg (by omega), if_neg (by omega), if_pos h]
      decide
    · have hn : ¬(UInt16.ofNat c).toNat < 0x80 := by
        rw [UInt16.toNat_ofNat']
        omega
      rw [pointUnits, if_pos (by omega), mask_of_not_ascii hn]
      decide
  · exact ⟨c, ⟨hc, h⟩, rfl, rfl⟩

/-- A string has the mask of the units of its code points. -/
theorem codePoints_units (s : Str) :
    (codePoints s).flatMap pointUnits = s ∧ ∀ c ∈ codePoints s, c < 0x110000 := by
  induction s using codePoints.induct with
  | case1 => simp [codePoints]
  | case2 u =>
    have hu := u.toNat_lt
    simp [codePoints, pointUnits]
    omega
  | case3 u v s h ih =>
    have hhl := h
    simp only [isHigh, isLow, Bool.and_eq_true, decide_eq_true_eq] at h
    rw [codePoints, if_pos hhl, List.flatMap_cons, ih.1]
    have hp : pointUnits (0x10000 + (u.toNat - 0xD800) * 0x400 + (v.toNat - 0xDC00)) = [u, v] := by
      generalize hc : 0x10000 + (u.toNat - 0xD800) * 0x400 + (v.toNat - 0xDC00) = c
      have hge : ¬c < 0x10000 := by omega
      simp only [pointUnits, hge, if_false, pairUnits, List.cons.injEq, ← UInt16.toNat_inj,
        UInt16.toNat_ofNat']
      exact ⟨by omega, by omega, trivial⟩
    refine ⟨by rw [hp]; rfl, fun c hc => ?_⟩
    rcases List.mem_cons.mp hc with hc | hc
    · omega
    · exact ih.2 c hc
  | case4 u v s h ih =>
    have hu := u.toNat_lt
    rw [codePoints, if_neg h, List.flatMap_cons, ih.1, pointUnits, if_pos (by omega)]
    refine ⟨by simp, fun c hc => ?_⟩
    rcases List.mem_cons.mp hc with rfl | hc
    · omega
    · exact ih.2 c hc

/-- What a reader decodes of the bytes of a string is like the string. -/
theorem mask_decode_encode (s : Str) : mask (utf8Decode (utf8Encode s)) = mask s := by
  obtain ⟨hunits, hrange⟩ := codePoints_units s
  have hscalar : ∀ l : List ℕ, (∀ c ∈ l, c < 0x110000) → ∃ l' : List ℕ, (∀ d ∈ l', IsScalar d) ∧
      l.flatMap utf8CodePoint = l'.flatMap utf8CodePoint ∧
      mask (l.flatMap pointUnits) = mask (l'.flatMap pointUnits) := by
    intro l hl
    induction l with
    | nil => exact ⟨[], by simp, rfl, rfl⟩
    | cons c l ih =>
      obtain ⟨l', hs, hb, hm⟩ := ih fun d hd => hl d (by simp [hd])
      obtain ⟨d, hd, hbd, hmd⟩ := utf8CodePoint_scalar c (hl c (by simp))
      refine ⟨d :: l', List.forall_mem_cons.mpr ⟨hd, hs⟩, ?_, ?_⟩
      · rw [List.flatMap_cons, List.flatMap_cons, hb, hbd]
      · rw [List.flatMap_cons, List.flatMap_cons, mask_append, mask_append, hm, hmd]
  obtain ⟨l', hs, hb, hm⟩ := hscalar (codePoints s) hrange
  have hdec := utf8Decode_flatMap_codePoint hs []
  rw [List.append_nil, utf8Decode, List.append_nil] at hdec
  rw [utf8Encode, hb, hdec, ← hm, hunits]

/-- Strings with the same bytes are alike. -/
theorem mask_of_utf8Encode {s t : Str} (h : utf8Encode s = utf8Encode t) : mask s = mask t := by
  rw [← mask_decode_encode s, h, mask_decode_encode]

end ParadigmTerra.Text

namespace ParadigmTerra.JsonText

open Text OrderedMap

/-! ## The reader on texts that are alike -/

/-- The values are the same number, the same ASCII string, or neither is one. -/
structure Raw.Plain (v w : Raw) : Prop where
  num : ∀ l, v = .num l ↔ w = .num l
  str : ∀ s, isAscii s = true → (v = .str s ↔ w = .str s)

theorem Raw.Plain.refl (v : Raw) : Raw.Plain v v := ⟨fun _ => Iff.rfl, fun _ _ => Iff.rfl⟩

/-- What stands under ASCII names is the same, up to what is no number and no ASCII string. -/
def MembersLike (m m' : List (Str × Raw)) : Prop :=
  ∀ k, isAscii k = true → Option.Rel Raw.Plain (get k m) (get k m')

/-- Values that are read from texts that are alike. -/
structure Raw.Like (v w : Raw) : Prop where
  plain : Raw.Plain v w
  obj : ∀ m, v = .obj m → ∃ m', w = .obj m' ∧ MembersLike m m'

inductive FrameLike : Frame → Frame → Prop
  | arr (xs ys : List Raw) : FrameLike (.arr xs) (.arr ys)
  | key {m m' : List (Str × Raw)} (hm : MembersLike m m') : FrameLike (.key m) (.key m')
  | field {m m' : List (Str × Raw)} {k k' : Str} (hm : MembersLike m m') (hk : mask k = mask k') :
    FrameLike (.field m k) (.field m' k')

inductive ModeLike : Mode → Mode → Prop
  | value : ModeLike .value .value
  | firstElement : ModeLike .firstElement .firstElement
  | firstKey : ModeLike .firstKey .firstKey
  | nextKey : ModeLike .nextKey .nextKey
  | colon {k k' : Str} (hk : mask k = mask k') : ModeLike (.colon k) (.colon k')
  | string (b : Bool) {s s' : Str} (hs : mask s = mask s') : ModeLike (.string b s) (.string b s')
  | escape (b : Bool) {s s' : Str} (hs : mask s = mask s') : ModeLike (.escape b s) (.escape b s')
  | unicode (b : Bool) {s s' : Str} (hs : mask s = mask s') (digits : List UInt16) :
    ModeLike (.unicode b s digits) (.unicode b s' digits)
  | number (l : Str) : ModeLike (.number l) (.number l)
  | word (l : Literal) (n : ℕ) : ModeLike (.word l n) (.word l n)
  | done {v w : Raw} (h : Raw.Like v w) : ModeLike (.done v) (.done w)

/-- Readers at the same place of texts that are alike. -/
structure Reader.Like (r r' : Reader) : Prop where
  stack : List.Forall₂ FrameLike r.1 r'.1
  mode : ModeLike r.2 r'.2

variable {st st' : List Frame} {r r' : Reader} {c c' : UInt16} {v w : Raw}

theorem membersLike_nil : MembersLike [] [] := fun _ _ => .none

/-- Setting members whose names and values are alike. -/
theorem MembersLike.put {m m' : List (Str × Raw)} {k k' : Str} (hm : MembersLike m m')
    (hk : mask k = mask k') (hv : Raw.Plain v w) :
    MembersLike (put keyBefore k v m) (put keyBefore k' w m') := by
  intro j hj
  rw [get_put, get_put]
  by_cases hkj : k = j
  · subst hkj
    rw [if_pos rfl, if_pos (eq_of_mask hj hk).symm]
    exact .some hv
  · have hkj' : k' ≠ j := by
      rintro rfl
      exact hkj (eq_of_mask hj hk.symm).symm
    rw [if_neg hkj, if_neg hkj']
    exact hm j hj

theorem like_of_plain (h : Raw.Plain v w) (hv : ∀ m, v ≠ .obj m) : Raw.Like v w :=
  ⟨h, fun m hm => absurd hm (hv m)⟩

theorem like_str {s s' : Str} (h : mask s = mask s') : Raw.Like (.str s) (.str s') := by
  refine like_of_plain ⟨fun l => by simp, fun t ht => ?_⟩ (fun m hm => by cases hm)
  constructor
  · intro he
    cases he
    rw [eq_of_mask ht h]
  · intro he
    cases he
    rw [eq_of_mask ht h.symm]

theorem like_obj {m m' : List (Str × Raw)} (h : MembersLike m m') :
    Raw.Like (.obj m) (.obj m') :=
  ⟨⟨fun l => by simp, fun s _ => by simp⟩, fun _ he => ⟨m', rfl, by cases he; exact h⟩⟩

theorem like_arr (xs ys : List Raw) : Raw.Like (.arr xs) (.arr ys) :=
  like_of_plain ⟨fun l => by simp, fun s _ => by simp⟩ (fun m hm => by cases hm)

theorem like_refl_of_ne (v : Raw) (hv : ∀ m, v ≠ .obj m) : Raw.Like v v :=
  like_of_plain (.refl v) hv

theorem readValue_like (hst : List.Forall₂ FrameLike st st') (c : UInt16) :
    Option.Rel Reader.Like (readValue st c) (readValue st' c) := by
  unfold readValue
  split_ifs
  · exact .some ⟨hst, .value⟩
  · exact .some ⟨hst, .string false rfl⟩
  · exact .some ⟨.cons (.arr [] []) hst, .firstElement⟩
  · exact .some ⟨.cons (.key membersLike_nil) hst, .firstKey⟩
  · exact .some ⟨hst, .number [c]⟩
  · exact .some ⟨hst, .word .true 1⟩
  · exact .some ⟨hst, .word .false 1⟩
  · exact .some ⟨hst, .word .null 1⟩
  · exact .none

theorem readAfter_like (hst : List.Forall₂ FrameLike st st') (hv : Raw.Like v w) (c : UInt16) :
    Option.Rel Reader.Like (readAfter st v c) (readAfter st' w c) := by
  unfold readAfter
  by_cases hspace : isSpace c = true
  · rw [if_pos hspace, if_pos hspace]
    exact .some ⟨hst, .done hv⟩
  · rw [if_neg hspace, if_neg hspace]
    cases hst with
    | nil => exact .none
    | cons hframe htail =>
      cases hframe with
      | arr xs ys =>
        simp only
        split_ifs
        · exact .some ⟨.cons (.arr _ _) htail, .value⟩
        · exact .some ⟨htail, .done (like_arr _ _)⟩
        · exact .none
      | key hm => exact .none
      | field hm hk =>
        simp only
        split_ifs
        · exact .some ⟨.cons (.key (hm.put hk hv.plain)) htail, .nextKey⟩
        · exact .some ⟨htail, .done (like_obj (hm.put hk hv.plain))⟩
        · exact .none

theorem forall₂_tail (h : List.Forall₂ FrameLike st st') :
    List.Forall₂ FrameLike st.tail st'.tail := by
  cases h with
  | nil => exact .nil
  | cons _ htail => exact htail

/-- One unit that both readers take. -/
theorem read_like_same (h : Reader.Like r r') (c : UInt16) :
    Option.Rel Reader.Like (read r c) (read r' c) := by
  obtain ⟨st, mode⟩ := r
  obtain ⟨st', mode'⟩ := r'
  obtain ⟨hst, hmode⟩ := h
  dsimp only at hst hmode
  cases hmode with
  | value => exact readValue_like hst c
  | firstElement =>
    simp only [read]
    split_ifs
    · exact .some ⟨hst, .firstElement⟩
    · exact .some ⟨forall₂_tail hst, .done (like_arr _ _)⟩
    · exact readValue_like hst c
  | firstKey =>
    simp only [read]
    split_ifs
    · exact .some ⟨hst, .firstKey⟩
    · exact .some ⟨forall₂_tail hst, .done (like_obj membersLike_nil)⟩
    · exact .some ⟨hst, .string true rfl⟩
    · exact .none
  | nextKey =>
    simp only [read]
    split_ifs
    · exact .some ⟨hst, .nextKey⟩
    · exact .some ⟨hst, .string true rfl⟩
    · exact .none
  | colon hk =>
    simp only [read]
    split_ifs
    · exact .some ⟨hst, .colon hk⟩
    · cases hst with
      | nil => exact .none
      | cons hframe htail =>
        cases hframe with
        | arr xs ys => exact .none
        | key hm => exact .some ⟨.cons (.field hm hk) htail, .value⟩
        | field hm hk' => exact .none
    · exact .none
  | string b hs =>
    simp only [read]
    split_ifs
    · refine .some ⟨hst, ?_⟩
      cases b with
      | true => exact .colon hs
      | false => exact .done (like_str hs)
    · exact .some ⟨hst, .escape b hs⟩
    · exact .none
    · exact .some ⟨hst, .string b (by rw [mask_append, mask_append, hs])⟩
  | escape b hs =>
    simp only [read]
    split_ifs
    · exact .some ⟨hst, .unicode b hs []⟩
    · cases simpleEscape c with
      | none => exact .none
      | some u => exact .some ⟨hst, .string b (by rw [mask_append, mask_append, hs])⟩
  | unicode b hs digits =>
    simp only [read]
    split_ifs
    · split
      · exact .some ⟨hst, .string b (by rw [mask_append, mask_append, hs])⟩
      · exact .some ⟨hst, .unicode b hs _⟩
    · exact .none
  | number l =>
    simp only [read]
    split_ifs
    · exact .some ⟨hst, .number _⟩
    · exact readAfter_like hst (like_refl_of_ne _ (fun m hm => by cases hm)) c
    · exact .none
  | word l n =>
    simp only [read]
    split_ifs
    · cases l <;> exact .some ⟨hst, .done (like_refl_of_ne _ (fun m hm => by cases hm))⟩
    · exact .some ⟨hst, .word l _⟩
    · exact .none
  | done hv => exact readAfter_like hst hv c

theorem ne_of_not_ascii (hc : ¬c.toNat < 0x80) {n : UInt16} (hn : n.toNat < 0x80) : c ≠ n := by
  rintro rfl
  exact hc hn

theorem isSpace_of_not_ascii (hc : ¬c.toNat < 0x80) : isSpace c = false := by
  simp (disch := decide) [isSpace, ne_of_not_ascii hc]

theorem isDigit_of_not_ascii (hc : ¬c.toNat < 0x80) : isDigit c = false := by
  simp only [isDigit, Bool.and_eq_false_iff, decide_eq_false_iff_not]
  omega

theorem readValue_of_not_ascii (hc : ¬c.toNat < 0x80) : readValue st c = none := by
  simp (disch := decide) [readValue, isSpace_of_not_ascii hc, isDigit_of_not_ascii hc, ne_of_not_ascii hc]

theorem readAfter_of_not_ascii (hc : ¬c.toNat < 0x80) : readAfter st v c = none := by
  unfold readAfter
  simp only [isSpace_of_not_ascii hc, Bool.false_eq_true, if_false]
  split <;> simp (disch := decide) [ne_of_not_ascii hc]

/-- Only inside a string does the reader take a unit that is not ASCII. -/
theorem read_of_not_ascii (hc : ¬c.toNat < 0x80) (st : List Frame) (mode : Mode) :
    read (st, mode) c =
      match mode with
      | .string b s => some (st, .string b (s ++ [c]))
      | _ => none := by
  have hspace := isSpace_of_not_ascii hc
  have hdigit := isDigit_of_not_ascii hc
  cases mode with
  | value => exact readValue_of_not_ascii hc
  | firstElement => simp (disch := decide) [read, hspace, ne_of_not_ascii hc, readValue_of_not_ascii hc]
  | firstKey => simp (disch := decide) [read, hspace, ne_of_not_ascii hc]
  | nextKey => simp (disch := decide) [read, hspace, ne_of_not_ascii hc]
  | colon k => simp (disch := decide) [read, hspace, ne_of_not_ascii hc]
  | string b s =>
    have h20 : ¬c.toNat < 0x20 := by omega
    simp (disch := decide) [read, ne_of_not_ascii hc, h20]
  | escape b s => simp (disch := decide) [read, ne_of_not_ascii hc, simpleEscape]
  | unicode b s digits =>
    have hhex : isHexDigit c = false := by
      simp only [isHexDigit, hdigit, Bool.false_or, Bool.or_eq_false_iff, Bool.and_eq_false_iff,
        decide_eq_false_iff_not]
      omega
    simp [read, hhex]
  | number l =>
    have hnum : isNumberUnit c = false := by simp (disch := decide) [isNumberUnit, hdigit, ne_of_not_ascii hc]
    simp [read, hnum, readAfter_of_not_ascii hc]
  | word l n =>
    have hword : l.text[n]? ≠ some c := by
      intro h
      have hmem := List.mem_of_getElem? h
      have hall : isAscii l.text = true := by cases l <;> decide
      exact hc (of_decide_eq_true (List.all_eq_true.mp hall c hmem))
    simp [read, hword]
  | done v => exact readAfter_of_not_ascii hc

theorem read_like (h : Reader.Like r r') (hc : mask [c] = mask [c']) :
    Option.Rel Reader.Like (read r c) (read r' c') := by
  rcases mask_singleton hc with rfl | ⟨hn, hn'⟩
  · exact read_like_same h c
  · obtain ⟨st, mode⟩ := r
    obtain ⟨st', mode'⟩ := r'
    obtain ⟨hst, hmode⟩ := h
    dsimp only at hst hmode
    rw [read_of_not_ascii hn, read_of_not_ascii hn']
    cases hmode with
    | string b hs => exact .some ⟨hst, .string b (by rw [mask_append, mask_append, hs, hc])⟩
    | _ => exact .none

/-- The reader goes through like states on texts that are alike. -/
theorem readAll_like {s t : Str} (hr : Reader.Like r r') (h : mask s = mask t) :
    Option.Rel Reader.Like (readAll r s) (readAll r' t) := by
  induction s generalizing t r r' with
  | nil =>
    cases t with
    | nil => exact .some hr
    | cons v t => cases h
  | cons u s ih =>
    cases t with
    | nil => cases h
    | cons v t =>
      rw [mask_cons u, mask_cons v] at h
      obtain ⟨hu, hrest⟩ : mask [u] = mask [v] ∧ mask s = mask t := List.append_inj h rfl
      rw [readAll_cons, readAll_cons]
      have hread := read_like hr hu
      cases hx : read r u with
      | none =>
        rw [hx] at hread
        cases hy : read r' v with
        | none => exact .none
        | some y => rw [hy] at hread; cases hread
      | some x =>
        rw [hx] at hread
        cases hy : read r' v with
        | none => rw [hy] at hread; cases hread
        | some y =>
          rw [hy] at hread
          cases hread with
          | some hxy => exact ih hxy hrest

end ParadigmTerra.JsonText
