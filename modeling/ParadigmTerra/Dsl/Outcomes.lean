import ParadigmTerra.Canonical.Document
import ParadigmTerra.Validator.Validate

/-!
# Which evaluations have an outcome

An evaluation turns the faults of the language into outcomes and throws everything else on. What else
there is comes from three places: a text that is no canonical document, a comparison that reaches a
string without canonical bytes, and a gate operator whose action is the name of an inherited member.

`Clear` says of an expression that its evaluation meets none of the last two, step by step in the order
of the evaluation. `evalNode_throwsOnly` is the step over the constructors, and `outcome_iff` the result
for `run`, for `evaluate` and for the expressions that the validator evaluates.
-/

namespace ParadigmTerra

open Text Fallible

/-- A fault that an evaluation raises itself. -/
def Throw.IsFault : Throw → Prop
  | .dsl p _ => p ≠ .PARSE_ERROR
  | _ => False

/-- A fault of the language, of any phase. -/
def Throw.IsDsl : Throw → Prop
  | .dsl _ _ => True
  | _ => False

theorem Throw.IsFault.isDsl {t : Throw} (h : t.IsFault) : t.IsDsl := by
  cases t with
  | dsl p reason => trivial
  | _ => exact h

variable {H : Host} {b : Bindings} {scope : Scope}

@[simp] theorem throwsOnly_validationError {α : Type} {reason : String} :
    ThrowsOnly Throw.IsFault (validationError reason : Except Throw α) := by
  simp [validationError, Throw.IsFault]

@[simp] theorem throwsOnly_runtimeError {α : Type} {reason : String} :
    ThrowsOnly Throw.IsFault (runtimeError reason : Except Throw α) := by
  simp [runtimeError, Throw.IsFault]

/-- The condition decides whether the computation throws anything but its faults, and what it throws
then is no fault of the language. -/
structure Judged {α : Type} (C : Prop) (x : Except Throw α) : Prop where
  clear : C → ThrowsOnly Throw.IsFault x
  foreign : ¬C → ∃ t, x = .error t ∧ ¬t.IsDsl

namespace Judged

variable {α β : Type} {C : Prop} {x : Except Throw α}

theorem of_throwsOnly (h : ThrowsOnly Throw.IsFault x) : Judged True x :=
  ⟨fun _ => h, fun hc => (hc trivial).elim⟩

theorem of_ok {a : α} (hx : Judged C x) (h : x = .ok a) : C := by
  by_contra hc
  obtain ⟨t, ht, -⟩ := hx.foreign hc
  rw [h] at ht
  cases ht

theorem of_error {t : Throw} (hx : Judged C x) (h : x = .error t) :
    C ∧ t.IsFault ∨ ¬C ∧ ¬t.IsDsl := by
  by_cases hc : C
  · exact .inl ⟨hc, hx.clear hc t h⟩
  · obtain ⟨t', ht', hforeign⟩ := hx.foreign hc
    rw [h] at ht'
    cases ht'
    exact .inr ⟨hc, hforeign⟩

/-- A sequence is judged by its parts, the later one where the earlier one returns. -/
theorem bind {D : α → Prop} {f : α → Except Throw β} (hx : Judged C x)
    (hf : ∀ a, x = .ok a → Judged (D a) (f a)) :
    Judged (C ∧ ∀ a, x = .ok a → D a) (x >>= f) := by
  constructor
  · rintro ⟨hc, hd⟩
    rw [throwsOnly_bind]
    exact ⟨hx.clear hc, fun a ha => (hf a ha).clear (hd a ha)⟩
  · intro hcd
    by_cases hc : C
    · obtain ⟨a, ha, hd⟩ : ∃ a, x = .ok a ∧ ¬D a := by
        by_contra hall
        push Not at hall
        exact hcd ⟨hc, hall⟩
      obtain ⟨t, ht, hforeign⟩ := (hf a ha).foreign hd
      exact ⟨t, by rw [ha, ok_bind, ht], hforeign⟩
    · obtain ⟨t, rfl, hforeign⟩ := hx.foreign hc
      exact ⟨t, rfl, hforeign⟩

/-- The second part of a sequence is judged without a condition if it raises its faults only. -/
theorem bind_faults {f : α → Except Throw β} (hx : Judged C x)
    (hf : ∀ a, ThrowsOnly Throw.IsFault (f a)) : Judged C (x >>= f) := by
  have h := hx.bind (D := fun _ => True) fun a _ => of_throwsOnly (hf a)
  simpa using h

theorem congr {D : Prop} (h : C ↔ D) (hx : Judged C x) : Judged D x :=
  ⟨fun hd => hx.clear (h.mpr hd), fun hd => hx.foreign fun hc => hd (h.mp hc)⟩

/-- A loop goes on where a test holds. -/
theorem bind_true {D : Prop} {x : Except Throw Bool} {y : Except Throw Bool} (hx : Judged C x)
    (hy : Judged D y) :
    Judged (C ∧ (x = .ok true → D)) (x >>= fun e => if e = true then y else pure false) := by
  have h := hx.bind (D := fun e => e = true → D) (f := fun e => if e = true then y else pure false)
    fun e _ => by
      cases e with
      | true => simpa using hy
      | false => simpa using of_throwsOnly throwsOnly_pure
  refine h.congr (and_congr_right fun _ => ?_)
  constructor
  · intro h hok
    exact h true hok rfl
  · intro h e hok he
    exact h (he ▸ hok)

/-- A check of the first result that raises its faults only. -/
theorem bind_checked {γ : Type} {check : α → Except Throw γ} {D : γ → Prop}
    {f : γ → Except Throw β} (hx : Judged C x) (hcheck : ∀ a, ThrowsOnly Throw.IsFault (check a))
    (hf : ∀ c, Judged (D c) (f c)) :
    Judged (C ∧ ∀ a, x = .ok a → ∀ c, check a = .ok c → D c) (x >>= fun a => check a >>= f) := by
  refine hx.bind fun a _ => ?_
  have h := (of_throwsOnly (hcheck a)).bind fun c _ => hf c
  exact h.congr (by rw [true_and])

/-- What is thrown is a fault of the language exactly if the condition holds. -/
theorem throwsOnly_iff (hx : Judged C x) : ThrowsOnly Throw.IsDsl x ↔ C := by
  constructor
  · intro h
    by_contra hc
    obtain ⟨t, ht, hforeign⟩ := hx.foreign hc
    exact hforeign (h t ht)
  · intro hc t ht
    exact (hx.clear hc t ht).isDsl

end Judged

/-! ## Values -/

theorem throwsOnly_makeString (s : Str) : ThrowsOnly Throw.IsFault (makeString H s) := by
  unfold makeString
  split <;> simp

theorem throwsOnly_makeInt256 (n : ℤ) : ThrowsOnly Throw.IsFault (makeInt256 n) := by
  unfold makeInt256
  split <;> simp

theorem throwsOnly_makeBytes32 (s : Str) : ThrowsOnly Throw.IsFault (makeBytes32 s) := by
  unfold makeBytes32
  split <;> simp

theorem throwsOnly_makeAddress (s : Str) : ThrowsOnly Throw.IsFault (makeAddress s) := by
  unfold makeAddress
  split <;> simp

theorem throwsOnly_constValue (c : ConstValue) : ThrowsOnly Throw.IsFault (constValue H c) := by
  cases c with
  | int256 n => exact throwsOnly_makeInt256 n
  | string s => exact throwsOnly_makeString s
  | bytes32 s => exact throwsOnly_makeBytes32 s
  | address s => exact throwsOnly_makeAddress s
  | bool x => exact throwsOnly_pure
  | null => exact throwsOnly_pure

mutual

theorem throwsOnly_materialize (v : Json) : ThrowsOnly Throw.IsFault (materialize H v) := by
  cases v with
  | int n => exact throwsOnly_makeInt256 n
  | str s =>
    unfold materialize
    split_ifs
    · exact throwsOnly_makeAddress s
    · exact throwsOnly_makeBytes32 s
    · exact throwsOnly_makeString s
  | arr xs =>
    rw [materialize, throwsOnly_bind]
    exact ⟨throwsOnly_materializeElements xs, fun _ _ => throwsOnly_pure⟩
  | obj m =>
    rw [materialize, throwsOnly_bind]
    exact ⟨throwsOnly_materializeMembers m, fun _ _ => throwsOnly_pure⟩
  | builtin k =>
    unfold materialize
    split <;> simp
  | _ => simp [materialize]

theorem throwsOnly_materializeElements (xs : List Json) :
    ThrowsOnly Throw.IsFault (materializeElements H xs) := by
  cases xs with
  | nil => simp [materializeElements]
  | cons x xs =>
    simp only [materializeElements, throwsOnly_bind]
    exact ⟨throwsOnly_materialize x, fun _ _ =>
      ⟨throwsOnly_materializeElements xs, fun _ _ => throwsOnly_pure⟩⟩

theorem throwsOnly_materializeMembers (m : List (Str × Json)) :
    ThrowsOnly Throw.IsFault (materializeMembers H m) := by
  cases m with
  | nil => simp [materializeMembers]
  | cons e m =>
    obtain ⟨k, x⟩ := e
    simp only [materializeMembers, throwsOnly_bind]
    exact ⟨throwsOnly_materialize x, fun _ _ =>
      ⟨throwsOnly_materializeMembers m, fun _ _ => throwsOnly_pure⟩⟩

end

theorem throwsOnly_bindingOf (path : List Str) :
    ThrowsOnly Throw.IsFault (bindingOf path b scope) := by
  unfold bindingOf
  repeat' split
  all_goals simp

theorem throwsOnly_resolvePath (path : List Str) :
    ThrowsOnly Throw.IsFault (resolvePath H path b scope) := by
  unfold resolvePath
  rw [throwsOnly_bind]
  refine ⟨throwsOnly_bindingOf path, fun base _ => ?_⟩
  obtain ⟨base, rest⟩ := base
  cases base with
  | none => exact throwsOnly_runtimeError
  | some base =>
    cases hread : getIn base rest with
    | none => simp [hread]
    | some v => simpa [hread] using throwsOnly_materialize v

/-! ## Comparisons -/

/-- A string that has canonical bytes. -/
def hasBytes (H : Host) (s : Str) : Bool := isCanonicalString H s && wellFormed (H.normalize s)

theorem utf8NfcBytes_eq_ok {s : Str} {bs : List UInt8} :
    utf8NfcBytes H s = .ok bs ↔ hasBytes H s = true ∧ utf8Encode (H.normalize s) = bs := by
  simp only [utf8NfcBytes, assertAssigned, bind_eq_ok, require_eq_ok, pure_eq_ok, hasBytes,
    isCanonicalString, Bool.and_eq_true, decide_eq_true_eq]
  constructor
  · rintro ⟨-, hbom, -, hassigned, -, hwf, rfl⟩
    exact ⟨⟨⟨hbom, hassigned⟩, hwf⟩, rfl⟩
  · rintro ⟨⟨⟨hbom, hassigned⟩, hwf⟩, rfl⟩
    exact ⟨(), hbom, (), hassigned, (), hwf, rfl⟩

theorem not_isDsl_utf8NfcBytes {s : Str} : ThrowsOnly (fun t => ¬t.IsDsl) (utf8NfcBytes H s) := by
  simp [utf8NfcBytes, assertAssigned, Throw.IsDsl]

theorem judged_utf8NfcBytes (s : Str) : Judged (hasBytes H s = true) (utf8NfcBytes H s) := by
  constructor
  · intro hs t ht
    rw [utf8NfcBytes_eq_ok.mpr ⟨hs, rfl⟩] at ht
    cases ht
  · intro hs
    cases h : utf8NfcBytes H s with
    | ok bs => exact (hs (utf8NfcBytes_eq_ok.mp h).1).elim
    | error t => exact ⟨t, rfl, not_isDsl_utf8NfcBytes t h⟩

mutual

/-- The strings that a comparison of the values reaches have canonical bytes. It reaches the elements
of two lists of one length, and the entries of two maps of one size, up to the first difference. -/
def Comparable (H : Host) : Value → Value → Prop
  | .string s, .string t => hasBytes H s = true ∧ hasBytes H t = true
  | .list xs, .list ys => xs.length = ys.length → ItemsComparable H xs ys
  | .map m, .map n => m.length = n.length → EntriesComparable H m n
  | _, _ => True

def ItemsComparable (H : Host) : List Value → List Value → Prop
  | x :: xs, y :: ys =>
    Comparable H x y ∧ (valuesEqual H x y = .ok true → ItemsComparable H xs ys)
  | _, _ => True

def EntriesComparable (H : Host) : List (Str × Value) → List (Str × Value) → Prop
  | [], _ => True
  | (k, v) :: m, n =>
    ∀ w, OrderedMap.get k n = some w →
      Comparable H v w ∧ (valuesEqual H v w = .ok true → EntriesComparable H m n)

end

mutual

theorem judged_valuesEqual (v w : Value) : Judged (Comparable H v w) (valuesEqual H v w) := by
  cases v <;> cases w <;> simp only [valuesEqual, Comparable] <;>
    try exact .of_throwsOnly (by simp)
  case string.string s t =>
    refine ((judged_utf8NfcBytes s).bind fun _ _ =>
      (judged_utf8NfcBytes t).bind_faults fun _ => throwsOnly_pure).congr ?_
    simp only [utf8NfcBytes_eq_ok]
    constructor
    · rintro ⟨hs, ht⟩
      exact ⟨hs, ht _ ⟨hs, rfl⟩⟩
    · rintro ⟨hs, ht⟩
      exact ⟨hs, fun _ _ => ht⟩
  case list.list xs ys =>
    by_cases hlen : xs.length = ys.length
    · simp only [hlen, if_true, true_imp_iff]
      exact judged_itemsEqual xs ys
    · simp only [hlen, if_false, false_imp_iff]
      exact .of_throwsOnly throwsOnly_pure
  case map.map m n =>
    by_cases hlen : m.length = n.length
    · simp only [hlen, if_true, true_imp_iff]
      exact judged_entriesEqual m n
    · simp only [hlen, if_false, false_imp_iff]
      exact .of_throwsOnly throwsOnly_pure

theorem judged_itemsEqual (xs ys : List Value) :
    Judged (ItemsComparable H xs ys) (itemsEqual H xs ys) := by
  cases xs with
  | nil => exact .of_throwsOnly throwsOnly_pure
  | cons x xs =>
    cases ys with
    | nil => exact .of_throwsOnly throwsOnly_pure
    | cons y ys =>
      rw [itemsEqual, ItemsComparable]
      refine ((judged_valuesEqual x y).bind_true (judged_itemsEqual xs ys))

theorem judged_entriesEqual (m n : List (Str × Value)) :
    Judged (EntriesComparable H m n) (entriesEqual H m n) := by
  cases m with
  | nil => exact .of_throwsOnly throwsOnly_pure
  | cons e m =>
    obtain ⟨k, v⟩ := e
    cases hget : OrderedMap.get k n with
    | none =>
      simp only [entriesEqual, EntriesComparable, hget]
      exact (Judged.of_throwsOnly throwsOnly_pure).congr (by simp)
    | some w =>
      simp only [entriesEqual, EntriesComparable, hget, Option.some.injEq, forall_eq']
      exact (judged_valuesEqual v w).bind_true (judged_entriesEqual m n)

end

/-! ## Evaluations -/

mutual

/-- The evaluation of the expression meets no string without canonical bytes in a comparison, and no
inherited name as the action of `requires_scope`. An operand is evaluated where those before it have
returned values that the operator takes. -/
def Clear (H : Host) (b : Bindings) (scope : Scope) : Expr → Prop
  | .const _ | .var _ _ | .action _ => True
  | .eq _ lhs rhs =>
    Clear H b scope lhs ∧ ∀ l, evalNode H b scope lhs = .ok l →
      Clear H b scope rhs ∧ ∀ r, evalNode H b scope rhs = .ok r → Comparable H l r
  | .cmp _ lhs rhs | .arith _ lhs rhs =>
    Clear H b scope lhs ∧ ∀ n, evalNode H b scope lhs = .ok (.int256 n) → Clear H b scope rhs
  | .bool _ args => AllClear H b scope args
  | .not arg | .size arg | .is_owner_required arg => Clear H b scope arg
  | .contains_key map key =>
    Clear H b scope map ∧
      ∀ entries, evalNode H b scope map = .ok (.map entries) → Clear H b scope key
  | .requires_scope action scopeExpr =>
    Clear H b scope action ∧ ∀ a, evalNode H b scope action = .ok (.string a) →
      Clear H b scope scopeExpr ∧
        ∀ s, evalNode H b scope scopeExpr = .ok (.string s) → a ∉ inheritedNames

def AllClear (H : Host) (b : Bindings) (scope : Scope) : List Expr → Prop
  | [] => True
  | a :: as => Clear H b scope a ∧ AllClear H b scope as

end

theorem requireInt_eq_ok {v : Value} {n : ℤ} : requireInt v = .ok n ↔ v = .int256 n := by
  cases v <;> simp [requireInt, runtimeError, validationError]

theorem requireString_eq_ok {v : Value} {s : Str} : requireString v = .ok s ↔ v = .string s := by
  cases v <;> simp [requireString, runtimeError, validationError]

theorem throwsOnly_requireInt (v : Value) : ThrowsOnly Throw.IsFault (requireInt v) := by
  cases v <;> simp [requireInt]

theorem throwsOnly_requireBool (v : Value) : ThrowsOnly Throw.IsFault (requireBool v) := by
  cases v <;> simp [requireBool]

theorem throwsOnly_requireString (v : Value) : ThrowsOnly Throw.IsFault (requireString v) := by
  cases v <;> simp [requireString]

theorem throwsOnly_keyForm (v : Value) : ThrowsOnly Throw.IsFault (keyForm v) := by
  cases v <;> simp [keyForm]

theorem throwsOnly_evalSize (v : Value) : ThrowsOnly Throw.IsFault (evalSize v) := by
  cases v <;> simp [evalSize]

theorem throwsOnly_evalArith (op : ArithOp) (l r : ℤ) :
    ThrowsOnly Throw.IsFault (evalArith op l r) := by
  cases op <;> simp only [evalArith, checkRange] <;> repeat' split
  all_goals simp

theorem judged_requiresScope (a s : Str) : Judged (a ∉ inheritedNames) (requiresScope a s) := by
  unfold requiresScope
  by_cases h : a ∈ inheritedNames
  · rw [if_pos h]
    exact ⟨fun hn => (hn h).elim, fun _ => ⟨.typeError, rfl, id⟩⟩
  · rw [if_neg h]
    exact (Judged.of_throwsOnly throwsOnly_pure).congr (by simpa using h)

/-! ### Boolean operators -/

/-- A result that is a value, or a fault that an evaluation raises. -/
def ArgResult.Raised : ArgResult → Prop
  | .ok _ => True
  | .error e => e.1 ≠ .PARSE_ERROR

/-- Without a runtime fault and without a validation fault there is no fault at all. -/
theorem throwsOnly_combineResults {op : BoolOp} {acc : Bool} {rs : List ArgResult}
    (hraised : ∀ r ∈ rs, ArgResult.Raised r) (herror : firstFault .ERROR rs = none)
    (hvalid : firstFault .VALIDATION_ERROR rs = none) :
    ThrowsOnly Throw.IsFault (combineResults op acc rs) := by
  induction rs generalizing acc with
  | nil => exact throwsOnly_pure
  | cons r rs ih =>
    obtain ⟨hr, htail⟩ := List.forall_mem_cons.mp hraised
    cases r with
    | ok v =>
      simp only [combineResults, throwsOnly_bind]
      exact ⟨throwsOnly_requireBool v, fun _ _ => ih htail herror hvalid⟩
    | error e =>
      obtain ⟨p, reason⟩ := e
      cases p with
      | PARSE_ERROR => exact (hr rfl).elim
      | VALIDATION_ERROR => simp [firstFault] at hvalid
      | ERROR => simp [firstFault] at herror

/-- The first fault of a phase has the phase. -/
theorem firstFault_eq_some {p : Phase} {rs : List ArgResult} {e : Phase × String}
    (h : firstFault p rs = some e) : e.1 = p := by
  induction rs with
  | nil => cases h
  | cons r rs ih =>
    cases r with
    | ok v => exact ih h
    | error f =>
      rw [firstFault] at h
      split at h
      · next hf => exact Option.some.inj h ▸ hf
      · exact ih h

theorem throwsOnly_evalBoolean {op : BoolOp} {rs : List ArgResult}
    (hraised : ∀ r ∈ rs, ArgResult.Raised r) : ThrowsOnly Throw.IsFault (evalBoolean op rs) := by
  unfold evalBoolean
  cases herror : firstFault .ERROR rs with
  | some e =>
    rw [throwsOnly_throw, Throw.IsFault, firstFault_eq_some herror]
    nofun
  | none =>
    cases hvalid : firstFault .VALIDATION_ERROR rs with
    | some e =>
      rw [throwsOnly_throw, Throw.IsFault, firstFault_eq_some hvalid]
      nofun
    | none =>
      simp only [throwsOnly_bind, throwsOnly_pure, implies_true, and_true]
      exact throwsOnly_combineResults hraised herror hvalid

/-! ### Nodes -/

/-- Two operands that must be integers. -/
theorem judged_ints {C D : Prop} {x y : Except Throw Value} {f : ℤ → ℤ → Except Throw Value}
    (hx : Judged C x) (hy : Judged D y) (hf : ∀ l r, ThrowsOnly Throw.IsFault (f l r)) :
    Judged (C ∧ ∀ n, x = .ok (.int256 n) → D) (do
      let v ← x
      let l ← requireInt v
      let w ← y
      let r ← requireInt w
      f l r) := by
  refine (hx.bind_checked throwsOnly_requireInt fun l => hy.bind_faults fun w => ?_).congr ?_
  · rw [throwsOnly_bind]
    exact ⟨throwsOnly_requireInt w, fun r _ => hf l r⟩
  · simp only [requireInt_eq_ok]
    refine and_congr_right fun _ => ⟨fun h n hn => h _ hn n rfl, ?_⟩
    rintro h _ hn n rfl
    exact h n hn

mutual

theorem judged_evalNode (e : Expr) : Judged (Clear H b scope e) (evalNode H b scope e) := by
  cases e with
  | const c => exact .of_throwsOnly (throwsOnly_constValue c)
  | var raw path => exact .of_throwsOnly (throwsOnly_resolvePath path)
  | action a => exact .of_throwsOnly throwsOnly_pure
  | eq op lhs rhs =>
    rw [evalNode, Clear]
    exact (judged_evalNode lhs).bind fun l _ => (judged_evalNode rhs).bind fun r _ =>
      (judged_valuesEqual l r).bind_faults fun _ => throwsOnly_pure
  | cmp op lhs rhs =>
    rw [evalNode, Clear]
    exact judged_ints (judged_evalNode lhs) (judged_evalNode rhs) fun _ _ => throwsOnly_pure
  | arith op lhs rhs =>
    rw [evalNode, Clear]
    exact judged_ints (judged_evalNode lhs) (judged_evalNode rhs) (throwsOnly_evalArith op)
  | bool op args =>
    rw [evalNode, Clear]
    refine ((judged_evalArgs args).bind (D := fun _ => True) fun rs hrs =>
      .of_throwsOnly (throwsOnly_evalBoolean (raised_of_evalArgs args hrs))).congr (by simp)
  | not arg =>
    rw [evalNode, Clear]
    exact (judged_evalNode arg).bind_faults fun v => by simp [throwsOnly_requireBool]
  | contains_key map key =>
    rw [evalNode, Clear]
    refine ((judged_evalNode map).bind (D := fun m => ∀ entries, m = .map entries →
      Clear H b scope key) fun m _ => ?_).congr ?_
    · cases m with
      | map entries =>
        refine ((judged_evalNode key).bind_faults fun v => ?_).congr (by simp)
        simp [throwsOnly_keyForm]
      | _ => exact (Judged.of_throwsOnly (by simp)).congr (by simp)
    · refine and_congr_right fun _ => ⟨fun h entries hm => h _ hm entries rfl, ?_⟩
      rintro h _ hm entries rfl
      exact h entries hm
  | size arg =>
    rw [evalNode, Clear]
    exact (judged_evalNode arg).bind_faults throwsOnly_evalSize
  | requires_scope action scopeExpr =>
    rw [evalNode, Clear]
    refine ((judged_evalNode action).bind_checked throwsOnly_requireString fun a =>
      (judged_evalNode scopeExpr).bind_checked throwsOnly_requireString fun s =>
        (judged_requiresScope a s).bind_faults fun _ => throwsOnly_pure).congr ?_
    simp only [requireString_eq_ok]
    constructor
    · rintro ⟨ha, h⟩
      refine ⟨ha, fun a hok => ?_⟩
      obtain ⟨hs, hname⟩ := h _ hok a rfl
      exact ⟨hs, fun s hok => hname _ hok s rfl⟩
    · rintro ⟨ha, h⟩
      refine ⟨ha, ?_⟩
      rintro _ hok a rfl
      obtain ⟨hs, hname⟩ := h a hok
      refine ⟨hs, ?_⟩
      rintro _ hok s rfl
      exact hname s hok
  | is_owner_required action =>
    rw [evalNode, Clear]
    exact (judged_evalNode action).bind_faults fun v => by simp [throwsOnly_requireString]

theorem judged_evalArgs (args : List Expr) :
    Judged (AllClear H b scope args) (evalArgs H b scope args) := by
  cases args with
  | nil => exact .of_throwsOnly throwsOnly_pure
  | cons a as =>
    have ha := judged_evalNode a
    have has := judged_evalArgs as
    rw [AllClear, evalArgs]
    cases h : evalNode H b scope a with
    | ok v =>
      have hc := ha.of_ok h
      exact (has.bind_faults fun _ => throwsOnly_pure).congr (by simp [hc])
    | error t =>
      rcases ha.of_error h with ⟨hc, hfault⟩ | ⟨hc, hforeign⟩
      · cases t with
        | dsl p reason =>
          exact (has.bind_faults fun _ => throwsOnly_pure).congr (by simp [hc])
        | _ => exact hfault.elim
      · cases t with
        | dsl p reason => exact (hforeign trivial).elim
        | _ => exact ⟨fun hall => (hc hall.1).elim, fun _ => ⟨_, rfl, hforeign⟩⟩

/-- The faults among the results are faults that an evaluation raises. -/
theorem raised_of_evalArgs (args : List Expr) {rs : List ArgResult}
    (h : evalArgs H b scope args = .ok rs) : ∀ r ∈ rs, ArgResult.Raised r := by
  cases args with
  | nil =>
    rw [evalArgs, pure_eq_ok] at h
    subst h
    nofun
  | cons a as =>
    have ha := judged_evalNode a
    rw [evalArgs] at h
    cases hx : evalNode H b scope a with
    | ok v =>
      simp only [hx, bind_eq_ok, pure_eq_ok] at h
      obtain ⟨rs, hrs, rfl⟩ := h
      exact List.forall_mem_cons.mpr ⟨trivial, raised_of_evalArgs as hrs⟩
    | error t =>
      rw [hx] at h
      cases t with
      | dsl p reason =>
        simp only [bind_eq_ok, pure_eq_ok] at h
        obtain ⟨rs, hrs, rfl⟩ := h
        refine List.forall_mem_cons.mpr ⟨?_, raised_of_evalArgs as hrs⟩
        rcases ha.of_error hx with ⟨-, hfault⟩ | ⟨-, hforeign⟩
        · exact hfault
        · exact (hforeign trivial).elim
      | _ => cases h

end

/-! ## Parsing -/

/-- A step of the parser that throws nothing but faults of the language. -/
def Built {α : Type} (x : Build α) : Prop := ∀ c, ThrowsOnly Throw.IsDsl (x c)

section Built

variable {α β : Type} {opts : ParseOptions}

theorem throwsOnly_dsl {p : Phase} {reason : String} :
    ThrowsOnly Throw.IsDsl (throw (.dsl p reason) : Except Throw α) :=
  throwsOnly_throw.mpr trivial

theorem throwsOnly_dsl_parseError {reason : String} :
    ThrowsOnly Throw.IsDsl (parseError reason : Except Throw α) := throwsOnly_dsl

theorem throwsOnly_dsl_validationError {reason : String} :
    ThrowsOnly Throw.IsDsl (validationError reason : Except Throw α) := throwsOnly_dsl

theorem throwsOnly_buildConst (v : Option Json) : ThrowsOnly Throw.IsDsl (buildConst v) := by
  unfold buildConst
  repeat' split
  all_goals first | exact throwsOnly_pure | exact throwsOnly_dsl

theorem throwsOnly_buildAction (v : Option Json) :
    ThrowsOnly Throw.IsDsl (buildAction opts v) := by
  unfold buildAction
  repeat' split
  all_goals first | exact throwsOnly_pure | exact throwsOnly_dsl

theorem throwsOnly_checkRoot (path : List Str) : ThrowsOnly Throw.IsDsl (checkRoot opts path) := by
  unfold checkRoot
  dsimp only
  repeat' split
  all_goals first | exact throwsOnly_pure | exact throwsOnly_dsl

theorem throwsOnly_requireKeys (o : Json) (allowed : List String) :
    ThrowsOnly Throw.IsDsl (requireKeys o allowed) := by
  unfold requireKeys
  split
  · exact throwsOnly_pure
  · exact throwsOnly_dsl

theorem throwsOnly_operand (o : Json) (k : String) : ThrowsOnly Throw.IsDsl (operand o k) := by
  unfold operand
  split
  · exact throwsOnly_pure
  · exact throwsOnly_dsl

theorem throwsOnly_expectArgs (o : Json) (n : ℕ) : ThrowsOnly Throw.IsDsl (expectArgs o n) := by
  unfold expectArgs
  repeat' split
  all_goals first | exact throwsOnly_pure | exact throwsOnly_dsl

theorem throwsOnly_checkGateOp : ThrowsOnly Throw.IsDsl (checkGateOp opts) := by
  unfold checkGateOp
  repeat' split
  all_goals first | exact throwsOnly_pure | exact throwsOnly_dsl

/-- A property of parser steps that the ways in which steps are put together keep. -/
structure BuildRules (Q : ∀ {α : Type}, Build α → Prop) : Prop where
  pure : ∀ {α : Type} {a : α}, Q (pure a : Build α)
  bind : ∀ {α β : Type} {x : Build α} {f : α → Build β}, Q x → (∀ a, Q (f a)) → Q (x >>= f)
  lift : ∀ {α : Type} {x : Except Throw α}, ThrowsOnly Throw.IsDsl x → Q (liftM x : Build α)
  bumpNode : Q bumpNode
  addCost : ∀ n, Q (addCost n)

namespace BuildRules

variable {Q : ∀ {α : Type}, Build α → Prop} (hQ : BuildRules Q)

include hQ

theorem mapM {f : Json → Build β} (hf : ∀ a, Q (f a)) (l : List Json) : Q (l.mapM f) := by
  induction l with
  | nil => exact hQ.pure
  | cons a l ih =>
    rw [List.mapM_cons]
    exact hQ.bind (hf a) fun _ => hQ.bind ih fun _ => hQ.pure

theorem buildVar (raw : Str) : Q (buildVar opts raw) := by
  unfold ParadigmTerra.buildVar
  dsimp only
  repeat' first
    | exact hQ.lift (throwsOnly_checkRoot _)
    | exact hQ.lift throwsOnly_dsl
    | exact hQ.addCost _
    | exact hQ.pure
    | refine hQ.bind ?_ fun _ => ?_
    | split

theorem buildOp {f : Json → Build Expr} (hf : ∀ j, Q (f j)) (o : Json) :
    Q (buildOp opts f o) := by
  unfold ParadigmTerra.buildOp
  repeat' with_reducible first
    | exact hf _
    | exact hQ.lift (throwsOnly_requireKeys _ _)
    | exact hQ.lift (throwsOnly_operand _ _)
    | exact hQ.lift (throwsOnly_expectArgs _ _)
    | exact hQ.lift throwsOnly_checkGateOp
    | exact hQ.lift throwsOnly_dsl_parseError
    | exact hQ.lift throwsOnly_dsl_validationError
    | exact hQ.addCost _
    | exact hQ.mapM hf _
    | exact hQ.pure
    | refine hQ.bind ?_ fun _ => ?_
    | split

/-- The induction over the levels of a node. -/
theorem build (n : ℕ) (j : Json) : Q (build opts n j) := by
  induction n generalizing j with
  | zero => exact hQ.lift throwsOnly_dsl
  | succ n ih =>
    unfold ParadigmTerra.build
    dsimp only
    repeat' with_reducible first
      | exact hQ.bumpNode
      | exact hQ.buildOp ih j
      | exact hQ.buildVar _
      | exact hQ.lift (throwsOnly_buildConst _)
      | exact hQ.lift (throwsOnly_buildAction _)
      | exact hQ.lift throwsOnly_dsl_parseError
      | exact hQ.pure
      | refine hQ.bind ?_ fun _ => ?_
      | split

end BuildRules

/-- No step throws anything but a fault of the language. -/
theorem buildRules_built : BuildRules Built where
  pure := fun _ => throwsOnly_pure
  bind := fun {_ _ x f} hx hf c => by
    change ThrowsOnly Throw.IsDsl (x c >>= fun r => f r.1 r.2)
    rw [throwsOnly_bind]
    exact ⟨hx c, fun r _ => hf r.1 r.2⟩
  lift := fun {_ x} hx c => by
    change ThrowsOnly Throw.IsDsl (x >>= fun a => Pure.pure (a, c))
    rw [throwsOnly_bind]
    exact ⟨hx, fun _ _ => throwsOnly_pure⟩
  bumpNode := fun c => by
    unfold ParadigmTerra.bumpNode
    split
    · exact throwsOnly_dsl
    · exact throwsOnly_pure
  addCost := fun n c => by
    unfold ParadigmTerra.addCost
    split
    · exact throwsOnly_dsl
    · exact throwsOnly_pure

end Built

/-- An error of the canonical layer. -/
def Throw.IsForeign (t : Throw) : Prop := ¬t.IsDsl

@[simp] theorem isForeign_noncanonical {code : String} : (Throw.noncanonical code).IsForeign := id

theorem throwsOnly_jcsString (s : Str) : ThrowsOnly Throw.IsForeign (jcsString s) := by
  fun_induction jcsString s <;> simp_all

theorem throwsOnly_jcsNumber (s : Str) : ThrowsOnly Throw.IsForeign (jcsNumber s) := by
  unfold jcsNumber
  dsimp only
  repeat' split
  all_goals simp

theorem throwsOnly_jcs (n : ℕ) :
    (∀ s, ThrowsOnly Throw.IsForeign (jcsValue n s)) ∧
    (∀ seen out s, ThrowsOnly Throw.IsForeign (jcsMembers n seen out s)) ∧
    ∀ s, ThrowsOnly Throw.IsForeign (jcsElements n s) := by
  induction n with
  | zero =>
    refine ⟨fun s => ?_, fun seen out s => ?_, fun s => ?_⟩
    · exact throwsOnly_throw.mpr id
    · exact throwsOnly_throw.mpr id
    · exact throwsOnly_throw.mpr id
  | succ n ih =>
    obtain ⟨hvalue, hmembers, helements⟩ := ih
    refine ⟨fun s => ?_, fun seen out s => ?_, fun s => ?_⟩
    · unfold jcsValue
      repeat' split
      all_goals
        simp [throwsOnly_jcsString, throwsOnly_jcsNumber, hmembers, helements]
    · unfold jcsMembers
      split
      · simp only [throwsOnly_bind, throwsOnly_jcsString, true_and]
        intro r _
        refine ⟨by simp, fun _ _ => ?_⟩
        split
        · rw [throwsOnly_bind]
          refine ⟨hvalue _, fun v _ => ?_⟩
          split
          · exact hmembers _ _ _
          · exact throwsOnly_pure
          · simp
        · simp
      · simp
    · unfold jcsElements
      rw [throwsOnly_bind]
      refine ⟨hvalue s, fun v _ => ?_⟩
      dsimp only
      split
      · simp [helements]
      · simp
      · simp

theorem throwsOnly_parseCanonical (s : Str) : ThrowsOnly Throw.IsForeign (parseCanonical s) := by
  unfold parseCanonical
  simp [(throwsOnly_jcs _).1]

/-! ## Outcomes -/

/-- A text is read as a canonical document. -/
def TextParses (input : Json) : Prop := ∀ s, input = .str s → ∃ j, parseCanonical s = .ok j

theorem judged_parsedInput (input : Json) :
    ThrowsOnly Throw.IsDsl (parsedInput input) ↔ TextParses input := by
  cases input with
  | str s =>
    simp only [parsedInput, TextParses, Json.str.injEq, forall_eq']
    cases h : parseCanonical s with
    | ok j => simp
    | error t =>
      have hforeign : ¬t.IsDsl := throwsOnly_parseCanonical s t h
      simpa using hforeign
  | _ => simp [parsedInput, TextParses]

theorem throwsOnly_parseExpression_iff {input : Json} {opts : ParseOptions} :
    ThrowsOnly Throw.IsDsl (parseExpression input opts) ↔ TextParses input := by
  rw [parseExpression, throwsOnly_map, buildExpression, throwsOnly_bind, judged_parsedInput]
  exact and_iff_left fun j _ => buildRules_built.build _ j _

theorem catchDsl_returns_iff {x : Except Throw Outcome} :
    (∃ o, catchDsl x = .ok o) ↔ ThrowsOnly Throw.IsDsl x := by
  cases x with
  | ok o => exact ⟨fun _ => throwsOnly_ok, fun _ => ⟨o, rfl⟩⟩
  | error t =>
    rw [throwsOnly_error]
    cases t <;> simp [catchDsl, Throw.IsDsl]

theorem throwsOnly_catchDsl {x : Except Throw Outcome} :
    ThrowsOnly Throw.IsDsl (catchDsl x) ↔ ThrowsOnly Throw.IsDsl x := by
  cases x with
  | ok o => exact Iff.rfl
  | error t => cases t <;> simp [catchDsl, Throw.IsDsl]

theorem throwsOnly_evaluate_iff {e : Expr} :
    ThrowsOnly Throw.IsDsl (evaluate H e b scope) ↔ Clear H b scope e := by
  rw [evaluate, throwsOnly_catchDsl, throwsOnly_bind, (judged_evalNode e).throwsOnly_iff]
  refine and_iff_left fun v _ => ?_
  cases v <;> exact throwsOnly_pure

theorem evaluate_returns_iff {e : Expr} :
    (∃ o, evaluate H e b scope = .ok o) ↔ Clear H b scope e := by
  rw [← throwsOnly_evaluate_iff, evaluate, catchDsl_returns_iff, throwsOnly_catchDsl]

/-- A text is a canonical document, and the evaluation of what it parses to is clear. -/
def RunsClear (H : Host) (input : Json) (opts : ParseOptions) (b : Bindings) : Prop :=
  TextParses input ∧ ∀ e, parseExpression input opts = .ok e → Clear H b opts.scope e

theorem run_returns_iff {input : Json} {opts : ParseOptions} :
    (∃ o, run H input opts b = .ok o) ↔ RunsClear H input opts b := by
  simp only [run, catchDsl_returns_iff, throwsOnly_bind, throwsOnly_parseExpression_iff,
    throwsOnly_evaluate_iff, RunsClear]

/-- An object with a version is an envelope: of a version of the language, and with an expression. -/
def EnvelopeOpens (node : Json) : Prop :=
  node.isPlainObject = true → (node.read (js "dsl_version")).isSome = true →
    (isStr (node.read (js "dsl_version")) (js "1.1") = true ∨
      isStr (node.read (js "dsl_version")) (js "1.2") = true) ∧
    (node.read (js "expr")).isSome = true

theorem parseEnvelope_returns_iff {node : Json} (hobj : node.isPlainObject = true) :
    (∃ env, parseEnvelope node = .ok env) ↔
      (isStr (node.read (js "dsl_version")) (js "1.1") = true ∨
        isStr (node.read (js "dsl_version")) (js "1.2") = true) ∧
      (node.read (js "expr")).isSome = true := by
  unfold parseEnvelope
  by_cases h11 : isStr (node.read (js "dsl_version")) (js "1.1") = true
  · cases hexpr : node.read (js "expr") <;> simp [hobj, h11, parseError]
  · by_cases h12 : isStr (node.read (js "dsl_version")) (js "1.2") = true
    · cases hexpr : node.read (js "expr") <;> simp [hobj, h11, h12, parseError]
    · cases hbig : (node.read (js "dsl_version")).any hasBigint <;>
        simp [hobj, h11, h12, validationError]

theorem openEnvelope_returns_iff {node : Json} :
    (∃ env, openEnvelope node = .ok env) ↔ EnvelopeOpens node := by
  unfold openEnvelope EnvelopeOpens
  by_cases hobj : node.isPlainObject = true
  · by_cases hversion : (node.read (js "dsl_version")).isSome = true
    · rw [hobj, hversion, Bool.and_self, if_pos rfl, parseEnvelope_returns_iff hobj]
      simp
    · simp [hversion]
  · simp [hobj]

theorem evalExpr_returns_iff {node : Json} :
    (∃ o, evalExpr H (some node) scope b = .ok o) ↔
      EnvelopeOpens node ∧ ∀ env, openEnvelope node = .ok env →
        RunsClear H env.expr ⟨scope, env.version⟩ b := by
  simp only [evalExpr, bind_returns_iff, run_returns_iff]
  rw [← openEnvelope_returns_iff]
  constructor
  · rintro ⟨env, henv, hclear⟩
    refine ⟨⟨env, henv⟩, fun env' henv' => ?_⟩
    rw [henv] at henv'
    exact Except.ok.inj henv' ▸ hclear
  · rintro ⟨⟨env, henv⟩, hclear⟩
    exact ⟨env, henv, hclear env henv⟩

end ParadigmTerra
