import ParadigmTerra.Canonical.Addresses
import ParadigmTerra.Dsl.Evaluate

/-!
# Literals and state values

A string becomes a value in two places: as a literal, where the parser tells its type and the evaluator
checks it again, and as data that a variable is bound to. The parser tells an address by a pattern that is
wider than what an address is.

`classified_alike_iff` says for which strings the two values agree: not for those of the pattern that are no
address, and their comparison does not return for a string whose normal form has no canonical bytes.
-/

namespace ParadigmTerra

open Text Fallible

/-! ## The two values of a string -/

/-- A host that assigns the code points below U+0378 and the byte order mark, which are their own normal
forms here. -/
def Host.small : Host where
  normalize s := s
  isAssignedCodePoint c := c < 888 || c == 0xFEFF

/-- What a literal string is tagged as. -/
def literalOf (s : Str) : ConstValue :=
  if isBytes32 s then .bytes32 (js "0x" ++ (s.drop 2).map lowerHexDigit)
  else if isAddressShape s then .address s
  else .string s

/-- A variable that is bound to a string: its path, and bindings under which it resolves to the string. -/
structure BoundTo (s : Str) where
  path : List Str
  b : Bindings
  scope : Scope
  base : Json
  rest : List Str
  binding : bindingOf path b scope = .ok (some base, rest)
  value : getIn base rest = some (.str s)

/-- The parameter `x`. -/
def BoundTo.param (s : Str) : BoundTo s where
  path := [js "params", js "x"]
  b := { params := some (.obj [(js "x", .str s)]) }
  scope := .gate
  base := .obj [(js "x", .str s)]
  rest := [js "x"]
  binding := by rfl
  value := by rfl

theorem buildConst_str (s : Str) : buildConst (some (.str s)) = .ok (.const (literalOf s)) := by
  simp only [buildConst, literalOf]
  split_ifs <;> rfl

/-- A literal is parsed. -/
theorem parseExpression_const (s : Str) (opts : ParseOptions) :
    parseExpression (constNode (.str s)) opts = .ok (.const (literalOf s)) := by
  have hbuild : (build opts MAX_DEPTH (constNode (.str s))).run ⟨0, 0⟩ =
      .ok (.const (literalOf s), ⟨1, 0⟩) := by
    change (do
      let e ← buildConst (some (.str s))
      pure (e, (⟨1, 0⟩ : Counts))) = _
    rw [buildConst_str]
    rfl
  change Prod.fst <$> (build opts MAX_DEPTH (constNode (.str s))).run ⟨0, 0⟩ = _
  rw [hbuild]
  rfl

theorem resolvePath_boundTo (H : Host) {s : Str} (u : BoundTo s) :
    resolvePath H u.path u.b u.scope = materialize H (.str s) := by
  simp only [resolvePath, u.binding, ok_bind, u.value]

/-! ## Where they agree -/

/-- One value, or two faults of one phase. -/
def SameResult (x y : Except Throw Value) : Prop :=
  (∃ v, x = .ok v ∧ y = .ok v) ∨ ∃ p r r', x = .error (.dsl p r) ∧ y = .error (.dsl p r')

/-- The literal and every variable that is bound to the string have one result, and if that is a value then
their comparison is true. -/
def ClassifiedAlike (H : Host) (s : Str) : Prop :=
  ∀ (opts : ParseOptions) (u : BoundTo s) (raw : Str), ∃ e, parseExpression (constNode (.str s)) opts = .ok e ∧
    SameResult (evalNode H u.b u.scope e) (resolvePath H u.path u.b u.scope) ∧
    ((∃ v, evalNode H u.b u.scope e = .ok v) → (∃ v, resolvePath H u.path u.b u.scope = .ok v) →
      evaluate H (.eq .eq e (.var raw u.path)) u.b u.scope = .ok ⟨.EVALUATION_TRUE, none⟩)

/-- A string that the two classifications agree on: 32 bytes, an address, or a string that has not the
shape of an address, and whose normal form has bytes to compare if it is a value. -/
def Classifiable (H : Host) (s : Str) : Prop :=
  isBytes32 s = true ∨ isCanonicalAddress s = true ∨
    isAddressShape s = false ∧ ((makeString H s).isOk = true → (utf8NfcBytes H (H.normalize s)).isOk = true)

instance (H : Host) (s : Str) : Decidable (Classifiable H s) := by unfold Classifiable; infer_instance

theorem isAddressShape_of_canonical {s : Str} (h : isCanonicalAddress s = true) : isAddressShape s = true := by
  simp only [isCanonicalAddress, Bool.and_eq_true] at h
  exact h.1.1

/-- No address begins with `0x`. -/
theorem not_isAddressShape_of_bytes32 {s : Str} (h : isBytes32 s = true) : isAddressShape s = false := by
  unfold isBytes32 at h
  split at h
  · next t =>
    have hx : isDigit 120 = false := by decide
    have hzero : isDigit 48 = true := by decide
    simp [isAddressShape, splitSign, hx, hzero]
  · cases h

theorem lowerHexDigit_idem {u : UInt16} : lowerHexDigit (lowerHexDigit u) = lowerHexDigit u := by
  unfold lowerHexDigit
  split_ifs with h1 h2
  · -- what was lowered is no upper case letter
    simp only [Bool.and_eq_true, decide_eq_true_eq, UInt16.toNat_add] at h1 h2
    have : (32 : UInt16).toNat = 32 := rfl
    omega
  · rfl
  · rfl

theorem isHexDigit_lower {u : UInt16} (h : isHexDigit u = true) : isHexDigit (lowerHexDigit u) = true := by
  unfold lowerHexDigit
  split_ifs with h1
  · simp only [Bool.and_eq_true, decide_eq_true_eq] at h1
    have h32 : (32 : UInt16).toNat = 32 := rfl
    simp only [isHexDigit, isDigit, Bool.or_eq_true, Bool.and_eq_true, decide_eq_true_eq,
      UInt16.toNat_add, h32]
    omega
  · exact h

/-- Lower-case bytes stay 32 bytes, and are the same value. -/
theorem makeBytes32_lower {s : Str} (h : isBytes32 s = true) :
    makeBytes32 (js "0x" ++ (s.drop 2).map lowerHexDigit) = makeBytes32 s := by
  have hlower : isBytes32 (js "0x" ++ (s.drop 2).map lowerHexDigit) = true := by
    unfold isBytes32 at h
    split at h
    · next t =>
      simp only [Bool.and_eq_true, beq_iff_eq, List.all_eq_true] at h
      have hjs : js "0x" = [48, 120] := by decide
      simp only [hjs, List.cons_append, List.nil_append, List.drop_succ_cons, List.drop_zero, isBytes32,
        List.length_map, h.2, beq_self_eq_true, Bool.and_true, List.all_eq_true]
      intro u hu
      obtain ⟨v, hv, rfl⟩ := List.mem_map.mp hu
      exact isHexDigit_lower (h.1 v hv)
    · cases h
  have hdrop : ((js "0x" ++ (s.drop 2).map lowerHexDigit).drop 2).map lowerHexDigit =
      (s.drop 2).map lowerHexDigit := by
    have hlength : (js "0x").length = 2 := by decide
    rw [List.drop_left' hlength, List.map_map]
    exact List.map_congr_left fun u _ => lowerHexDigit_idem
  rw [makeBytes32, if_pos hlower, hdrop, makeBytes32, if_pos h]

/-- The value of a variable, by the kind of its string. -/
theorem materialize_str (H : Host) {s : Str} : materialize H (.str s) =
    if isCanonicalAddress s then .ok (.address s)
    else if isBytes32 s then makeBytes32 s
    else makeString H s := by
  rw [materialize]
  split_ifs with h
  · rw [makeAddress, if_pos h]
    rfl
  all_goals rfl

theorem evalNode_literal (H : Host) (b : Bindings) (scope : Scope) {s : Str} :
    evalNode H b scope (.const (literalOf s)) =
      if isBytes32 s then makeBytes32 s
      else if isCanonicalAddress s then .ok (.address s)
      else if isAddressShape s then validationError "ADDRESS_NONCANONICAL"
      else makeString H s := by
  rw [evalNode, literalOf]
  by_cases hbytes : isBytes32 s = true
  · rw [if_pos hbytes, if_pos hbytes, constValue, makeBytes32_lower hbytes]
  · rw [if_neg hbytes, if_neg hbytes]
    by_cases haddr : isCanonicalAddress s = true
    · rw [if_pos (isAddressShape_of_canonical haddr), if_pos haddr, constValue, makeAddress, if_pos haddr]
      rfl
    · rw [if_neg haddr]
      by_cases hshape : isAddressShape s = true
      · rw [if_pos hshape, if_pos hshape, constValue, makeAddress, if_neg haddr]
      · rw [if_neg hshape, if_neg hshape, constValue]

/-- A string is a value, or the fault is a runtime fault. -/
theorem makeString_cases (H : Host) (s : Str) :
    makeString H s = .ok (.string (H.normalize s)) ∨ makeString H s = runtimeError "STRING_UNASSIGNED" := by
  unfold makeString
  split
  · exact .inl rfl
  · exact .inr rfl

theorem makeBytes32_eq {s : Str} (h : isBytes32 s = true) : ∃ hex, makeBytes32 s = .ok (.bytes32 hex) :=
  ⟨_, by rw [makeBytes32, if_pos h]; rfl⟩

section Compare

variable {H : Host} {b : Bindings} {scope : Scope} {lhs rhs : Expr} {v : Value}

theorem evaluate_eq (hl : evalNode H b scope lhs = .ok v) (hr : evalNode H b scope rhs = .ok v)
    (h : valuesEqual H v v = .ok true) :
    evaluate H (.eq .eq lhs rhs) b scope = .ok ⟨.EVALUATION_TRUE, none⟩ := by
  simp only [evaluate, evalNode, hl, hr, ok_bind, h]
  rfl

/-- A string is compared by the bytes of its normal form, which it has to have. -/
theorem evaluate_eq_string {t : Str} (hl : evalNode H b scope lhs = .ok (.string t))
    (hr : evalNode H b scope rhs = .ok (.string t)) :
    evaluate H (.eq .eq lhs rhs) b scope = .ok ⟨.EVALUATION_TRUE, none⟩ ↔
      (utf8NfcBytes H t).isOk = true := by
  constructor
  · intro h
    by_contra hnot
    cases hbytes : utf8NfcBytes H t with
    | ok bytes =>
      rw [hbytes] at hnot
      exact hnot rfl
    | error e =>
      -- the fault of the canonical layer is thrown on
      have hequal : valuesEqual H (.string t) (.string t) = .error e := by
        rw [valuesEqual, hbytes]
        rfl
      simp only [evaluate, evalNode, hl, hr, ok_bind, hequal, error_bind] at h
      unfold catchDsl at h
      split at h <;> simp_all [pure, Except.pure]
  · intro h
    obtain ⟨bytes, hbytes⟩ := exists_of_isOk h
    refine evaluate_eq hl hr ?_
    simp [valuesEqual, hbytes]

end Compare

/-- The two classifications agree on a string exactly if it is classifiable. An address is an address to
both. -/
theorem classified_alike_iff (H : Host) (s : Str) :
    (ClassifiedAlike H s ↔ Classifiable H s) ∧
      ∀ p, parseAddress s = .ok p → ∀ (opts : ParseOptions) (u : BoundTo s),
        ∃ e, parseExpression (constNode (.str s)) opts = .ok e ∧
          evalNode H u.b u.scope e = .ok (.address s) ∧
          resolvePath H u.path u.b u.scope = .ok (.address s) := by
  have hbytes_not : isBytes32 s = true → isCanonicalAddress s = false := by
    intro h
    by_contra haddr
    have hshape := isAddressShape_of_canonical (by simpa using haddr)
    rw [not_isAddressShape_of_bytes32 h] at hshape
    cases hshape
  refine ⟨⟨fun h => ?_, fun h opts u raw => ⟨_, parseExpression_const s opts, ?_⟩⟩, fun p hp opts u =>
    ⟨_, parseExpression_const s opts, ?_⟩⟩
  · -- what the two make of a parameter that is bound to the string
    obtain ⟨e, he, hsame, htrue⟩ := h ⟨.gate, .v1_2⟩ (.param s) []
    rw [parseExpression_const, Except.ok.injEq] at he
    subst he
    by_cases hbytes : isBytes32 s = true
    · exact .inl hbytes
    by_cases haddr : isCanonicalAddress s = true
    · exact .inr (.inl haddr)
    have hvar : resolvePath H (BoundTo.param s).path (BoundTo.param s).b (BoundTo.param s).scope =
        makeString H s := by
      rw [resolvePath_boundTo, materialize_str, if_neg haddr, if_neg hbytes]
    have hnode : evalNode H (BoundTo.param s).b (BoundTo.param s).scope
        (.var [] (BoundTo.param s).path) = makeString H s := by
      rw [evalNode]
      exact hvar
    have hlit := evalNode_literal H (BoundTo.param s).b (BoundTo.param s).scope (s := s)
    rw [if_neg hbytes, if_neg haddr] at hlit
    rw [hvar] at hsame htrue
    by_cases hshape : isAddressShape s = true
    · rw [if_pos hshape] at hlit
      rw [hlit] at hsame
      rcases hsame with ⟨v, hv, -⟩ | ⟨p, r, r', hp, hp'⟩
      · cases hv
      · cases hp
        rcases makeString_cases H s with h | h
        · rw [h] at hp'
          cases hp'
        · rw [h] at hp'
          cases hp'
    · rw [if_neg hshape] at hlit
      refine .inr (.inr ⟨by simpa using hshape, fun hok => ?_⟩)
      rcases makeString_cases H s with h | h
      · exact (evaluate_eq_string (hlit.trans h) (hnode.trans h)).mp
          (htrue ⟨_, hlit.trans h⟩ ⟨_, h⟩)
      · rw [h] at hok
        cases hok
  · rw [evalNode_literal, resolvePath_boundTo, materialize_str]
    have hvalue : ∀ v, evalNode H u.b u.scope (.const (literalOf s)) = .ok v →
        evalNode H u.b u.scope (.var raw u.path) = .ok v → valuesEqual H v v = .ok true →
        evaluate H (.eq .eq (.const (literalOf s)) (.var raw u.path)) u.b u.scope =
          .ok ⟨.EVALUATION_TRUE, none⟩ := fun v hl hr h => evaluate_eq hl hr h
    rw [evalNode_literal, evalNode, resolvePath_boundTo, materialize_str] at hvalue
    rcases h with hbytes | haddr | ⟨hshape, hok⟩
    · obtain ⟨hex, hhex⟩ := makeBytes32_eq hbytes
      simp only [hbytes, hbytes_not hbytes, if_true, Bool.false_eq_true, if_false, hhex] at hvalue ⊢
      exact ⟨.inl ⟨_, rfl, rfl⟩, fun _ _ => hvalue _ rfl rfl (by simp [valuesEqual])⟩
    · have hbytes : isBytes32 s = false := by
        by_contra h
        rw [hbytes_not (by simpa using h)] at haddr
        cases haddr
      simp only [hbytes, haddr, if_true, Bool.false_eq_true, if_false] at hvalue ⊢
      exact ⟨.inl ⟨_, rfl, rfl⟩, fun _ _ => hvalue _ rfl rfl (by simp [valuesEqual])⟩
    · by_cases hbytes : isBytes32 s = true
      · obtain ⟨hex, hhex⟩ := makeBytes32_eq hbytes
        simp only [hbytes, hbytes_not hbytes, if_true, Bool.false_eq_true, if_false, hhex] at hvalue ⊢
        exact ⟨.inl ⟨_, rfl, rfl⟩, fun _ _ => hvalue _ rfl rfl (by simp [valuesEqual])⟩
      have haddr : isCanonicalAddress s = false := by
        by_contra h
        rw [isAddressShape_of_canonical (by simpa using h)] at hshape
        cases hshape
      simp only [hbytes, haddr, hshape, Bool.false_eq_true, if_false] at hvalue ⊢
      rcases makeString_cases H s with h | h
      · rw [h] at hok hvalue ⊢
        obtain ⟨bytes, hutf⟩ := exists_of_isOk (hok rfl)
        exact ⟨.inl ⟨_, rfl, rfl⟩, fun _ _ => hvalue _ rfl rfl (by simp [valuesEqual, hutf])⟩
      · rw [h]
        refine ⟨.inr ⟨_, _, _, rfl, rfl⟩, ?_⟩
        rintro ⟨v, hv⟩
        cases hv
  · have haddr : isCanonicalAddress s = true := isCanonicalAddress_iff.mpr ⟨p, hp⟩
    have hbytes : isBytes32 s = false := by
      by_contra h
      rw [hbytes_not (by simpa using h)] at haddr
      cases haddr
    rw [evalNode_literal, resolvePath_boundTo, materialize_str, hbytes, haddr]
    exact ⟨rfl, rfl⟩

/-- The address of 64 zeros on the base workchain is classifiable, and an address to both. -/
theorem classified_alike_iff_zero :
    (ClassifiedAlike Host.small (zeroHash "0") ↔ Classifiable Host.small (zeroHash "0")) ∧
      ∀ (opts : ParseOptions) (u : BoundTo (zeroHash "0")),
        ∃ e, parseExpression (constNode (.str (zeroHash "0"))) opts = .ok e ∧
          evalNode Host.small u.b u.scope e = .ok (.address (zeroHash "0")) ∧
          resolvePath Host.small u.path u.b u.scope = .ok (.address (zeroHash "0")) :=
  ⟨(classified_alike_iff Host.small (zeroHash "0")).1,
    (classified_alike_iff Host.small (zeroHash "0")).2 ⟨0, List.replicate 32 0⟩ (by decide +kernel)⟩

/-- A string of the shape of an address whose workchain is out of range: as a literal it is a fault, and as
data it is a string. A string that begins with a byte order mark is one value to both, but comparing it does
not return. -/
theorem wide_workchain_differs :
    ¬ClassifiedAlike Host.small (zeroHash "128") ∧ ¬ClassifiedAlike Host.small [0xFEFF] := by
  refine ⟨fun h => ?_, fun h => ?_⟩
  · obtain ⟨e, he, hsame, -⟩ := h ⟨.gate, .v1_2⟩ (.param _) []
    rw [parseExpression_const, Except.ok.injEq] at he
    subst he
    rw [evalNode_literal, if_neg (by decide +kernel), if_neg (by decide +kernel),
      if_pos (by decide +kernel)] at hsame
    rw [resolvePath_boundTo, materialize_str, if_neg (by decide +kernel), if_neg (by decide +kernel)] at hsame
    rcases hsame with ⟨v, hv, -⟩ | ⟨p, r, r', hp, hp'⟩
    · cases hv
    · rcases makeString_cases Host.small (zeroHash "128") with h | h
      · rw [h] at hp'
        cases hp'
      · rw [h] at hp'
        cases hp
        cases hp'
  · obtain ⟨e, he, -, htrue⟩ := h ⟨.gate, .v1_2⟩ (.param _) []
    rw [parseExpression_const, Except.ok.injEq] at he
    subst he
    have hlit : evalNode Host.small (BoundTo.param [0xFEFF]).b (BoundTo.param [0xFEFF]).scope
        (.const (literalOf [0xFEFF])) = .ok (.string [0xFEFF]) := by
      rw [evalNode_literal]
      rfl
    have hvar : evalNode Host.small (BoundTo.param [0xFEFF]).b (BoundTo.param [0xFEFF]).scope
        (.var [] (BoundTo.param [0xFEFF]).path) = .ok (.string [0xFEFF]) := by
      rw [evalNode, resolvePath_boundTo, materialize_str]
      rfl
    have hbytes := (evaluate_eq_string hlit hvar).mp (htrue ⟨_, hlit⟩ ⟨_, by
      rw [evalNode] at hvar
      exact hvar⟩)
    revert hbytes
    decide

end ParadigmTerra
