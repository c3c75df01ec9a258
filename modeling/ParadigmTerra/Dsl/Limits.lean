import ParadigmTerra.Dsl.Form
import ParadigmTerra.Dsl.Internal
import ParadigmTerra.Lib.Budget

/-!
# Limits of an expression

What `parseExpression` accepts, without its counters: the expressions that have the form of a value
(`HasForm`), with bounds on the depth, on the count of the nodes and on the sum of what the nodes cost.

The parser counts nodes and costs while it descends, and gives up at the first excess. `spends_build` says
that it builds the expressions of that form nevertheless, exactly those whose whole expense fits
(`Budget.Spends`); `parseExpression_iff` and `parsed_within_limits` are the results for the whole parser.
-/

namespace ParadigmTerra

open Text Fallible Budget

variable {opts : ParseOptions} {j : Json}

/-! ## Counts as an expense -/

instance : Add Counts := ⟨fun c d => ⟨c.nodes + d.nodes, c.cost + d.cost⟩⟩

instance : Zero Counts := ⟨⟨0, 0⟩⟩

@[ext] theorem Counts.ext {c d : Counts} (hnodes : c.nodes = d.nodes) (hcost : c.cost = d.cost) : c = d := by
  cases c
  cases d
  simp_all

@[simp] theorem Counts.add_nodes (c d : Counts) : (c + d).nodes = c.nodes + d.nodes := rfl

@[simp] theorem Counts.add_cost (c d : Counts) : (c + d).cost = c.cost + d.cost := rfl

@[simp] theorem Counts.zero_nodes : (0 : Counts).nodes = 0 := rfl

@[simp] theorem Counts.zero_cost : (0 : Counts).cost = 0 := rfl

instance : AddMonoid Counts where
  add_assoc c d e := Counts.ext (Nat.add_assoc ..) (Nat.add_assoc ..)
  zero_add c := Counts.ext (Nat.zero_add _) (Nat.zero_add _)
  add_zero c := Counts.ext (Nat.add_zero _) (Nat.add_zero _)
  nsmul := nsmulRec

instance : PartialOrder Counts where
  le c d := c.nodes ≤ d.nodes ∧ c.cost ≤ d.cost
  le_refl c := ⟨le_rfl, le_rfl⟩
  le_trans c d e hcd hde := ⟨hcd.1.trans hde.1, hcd.2.trans hde.2⟩
  le_antisymm c d hcd hdc := Counts.ext (le_antisymm hcd.1 hdc.1) (le_antisymm hcd.2 hdc.2)

theorem Counts.le_iff {c d : Counts} : c ≤ d ↔ c.nodes ≤ d.nodes ∧ c.cost ≤ d.cost := Iff.rfl

instance : CanonicallyOrderedAdd Counts where
  exists_add_of_le {c d} h := by
    refine ⟨⟨d.nodes - c.nodes, d.cost - c.cost⟩, Counts.ext ?_ ?_⟩
    · have hnodes := h.1
      simp only [Counts.add_nodes]
      omega
    · have hcost := h.2
      simp only [Counts.add_cost]
      omega
  le_add_self c d := ⟨Nat.le_add_left .., Nat.le_add_left ..⟩
  le_self_add c d := ⟨Nat.le_add_right .., Nat.le_add_right ..⟩

/-- The most that an expression may spend. -/
def LIMITS : Counts := ⟨MAX_NODES, MAX_EXPRESSION_COST⟩

/-- What an expression spends. -/
def Expr.counts (e : Expr) : Counts := ⟨e.nodes.length, e.cost⟩

def countsAll (es : List Expr) : Counts := ⟨(nodesAll es).length, costOf (nodesAll es)⟩

@[simp] theorem countsAll_nil : countsAll [] = 0 := rfl

@[simp] theorem costOf_append (es fs : List Expr) : costOf (es ++ fs) = costOf es + costOf fs := by
  rw [costOf, List.map_append, List.sum_append]
  rfl

@[simp] theorem costOf_cons (e : Expr) (es : List Expr) : costOf (e :: es) = e.ownCost + costOf es := rfl

@[simp] theorem countsAll_cons (e : Expr) (es : List Expr) : countsAll (e :: es) = e.counts + countsAll es := by
  ext <;> simp [countsAll, Expr.counts, nodesAll, Expr.cost]

/-- A node with two operands below it. -/
theorem counts_binary {e l r : Expr} (h : e.nodes = e :: (l.nodes ++ r.nodes)) :
    e.counts = ⟨1, 0⟩ + (⟨0, e.ownCost⟩ + (l.counts + r.counts)) := by
  unfold Expr.counts Expr.cost
  rw [h]
  ext
  · simp only [List.length_cons, List.length_append, Counts.add_nodes]
    omega
  · simp only [costOf_cons, costOf_append, Counts.add_cost]
    omega

theorem counts_unary {e a : Expr} (h : e.nodes = e :: a.nodes) :
    e.counts = ⟨1, 0⟩ + (⟨0, e.ownCost⟩ + a.counts) := by
  unfold Expr.counts Expr.cost
  rw [h]
  ext
  · simp only [List.length_cons, Counts.add_nodes]
    omega
  · simp only [costOf_cons, Counts.add_cost]
    omega

theorem counts_bool (op : BoolOp) (args : List Expr) :
    (Expr.bool op args).counts = ⟨1, 0⟩ + (⟨0, 1⟩ + countsAll args) := by
  unfold Expr.counts Expr.cost countsAll
  rw [Expr.nodes]
  ext
  · simp only [List.length_cons, Counts.add_nodes]
    omega
  · simp only [costOf_cons, Counts.add_cost, Expr.ownCost]
    omega

theorem spends_bumpNode : Spends LIMITS bumpNode (fun _ d => d = ⟨1, 0⟩) := by
  intro c a c' hc
  have hnodes : c.nodes ≤ MAX_NODES := hc.1
  have hcost : c.cost ≤ MAX_EXPRESSION_COST := hc.2
  unfold bumpNode
  by_cases h : c.nodes + 1 > MAX_NODES
  · rw [if_pos h]
    constructor
    · intro h
      cases h
    · rintro ⟨_, rfl, rfl, hlimit⟩
      have hle : c.nodes + 1 ≤ MAX_NODES := hlimit.1
      omega
  · rw [if_neg h]
    change Except.ok ((), _) = .ok (a, c') ↔ _
    simp only [Except.ok.injEq, Prod.mk.injEq, true_and, exists_eq_left]
    constructor
    · rintro rfl
      exact ⟨rfl, by show c.nodes + 1 ≤ MAX_NODES; omega, hcost⟩
    · rintro ⟨rfl, -⟩
      rfl

theorem spends_addCost (n : ℕ) : Spends LIMITS (addCost n) (fun _ d => d = ⟨0, n⟩) := by
  intro c a c' hc
  have hnodes : c.nodes ≤ MAX_NODES := hc.1
  unfold addCost
  by_cases h : c.cost + n > MAX_EXPRESSION_COST
  · rw [if_pos h]
    constructor
    · intro h
      cases h
    · rintro ⟨_, rfl, rfl, hlimit⟩
      have hle : c.cost + n ≤ MAX_EXPRESSION_COST := hlimit.2
      omega
  · rw [if_neg h]
    change Except.ok ((), _) = .ok (a, c') ↔ _
    simp only [Except.ok.injEq, Prod.mk.injEq, true_and, exists_eq_left]
    constructor
    · rintro rfl
      exact ⟨rfl, hnodes, by show c.cost + n ≤ MAX_EXPRESSION_COST; omega⟩
    · rintro ⟨rfl, -⟩
      rfl

theorem spends_throw {α : Type} {t : Throw} :
    Spends LIMITS (liftM (throw t : Except Throw α) : Build α) (fun _ _ => False) :=
  (Spends.lift _).congr fun a d => by simp

theorem spends_throw_bind {α β : Type} {t : Throw} {f : α → Build β} :
    Spends LIMITS ((liftM (throw t : Except Throw α) : Build α) >>= f) (fun _ _ => False) :=
  Spends.fails fun c r h => by cases h

/-! ## Operator nodes -/

theorem requireKeys_eq_ok {allowed : List String} {u : Unit} :
    requireKeys j allowed = .ok u ↔ ∀ e ∈ j.members, e.1 ∈ allowed.map js := by
  unfold requireKeys
  split
  · next h => simpa using h
  · next h => simpa [validationError] using h

theorem operand_eq_ok {k : String} {v : Json} : operand j k = .ok v ↔ j.read (js k) = some v := by
  unfold operand
  split
  · next w hw => simp [hw]
  · next hnone => simp [hnone, validationError]

theorem expectArgs_eq_ok {n : ℕ} {xs : List Json} :
    expectArgs j n = .ok xs ↔ j.read (js "args") = some (.arr xs) ∧ xs.length = n := by
  unfold expectArgs
  split
  · next args hargs =>
    split_ifs with hlen
    · rw [hargs, pure_eq_ok, Option.some.injEq, Json.arr.injEq]
      constructor
      · rintro rfl
        exact ⟨rfl, hlen⟩
      · rintro ⟨rfl, -⟩
        rfl
    · rw [hargs, Option.some.injEq, Json.arr.injEq]
      constructor
      · intro h
        cases h
      · rintro ⟨rfl, hn⟩
        exact (hlen hn).elim
  · next hne =>
    constructor
    · intro h
      cases h
    · rintro ⟨harr, -⟩
      exact (hne xs harr).elim

theorem checkGateOp_eq_ok {u : Unit} : checkGateOp opts = .ok u ↔ GateOnly opts := by
  unfold checkGateOp GateOnly
  split_ifs with hscope hversion
  · simp [parseError, hscope]
  · simp [validationError, hversion]
  · cases h : opts.version with
    | v1_1 => exact (hversion h).elim
    | v1_2 => simpa using hscope

/-- The operator at the top of an expression is the one that its form names. -/
theorem HasForm.operator {e : Expr} (h : HasForm opts e j) :
    j.read (js "op") = e.operator.map fun o => .str (js o.name) := by
  cases e with
  | const c =>
    obtain ⟨v, rfl, -⟩ := h
    rfl
  | var raw path =>
    obtain ⟨rfl, -⟩ := h
    rfl
  | action a =>
    obtain ⟨rfl, -⟩ := h
    rfl
  | eq op l r =>
    obtain ⟨x, y, hnode, -⟩ := h
    exact hnode.op
  | cmp op l r =>
    obtain ⟨x, y, hnode, -⟩ := h
    exact hnode.op
  | arith op l r =>
    obtain ⟨x, y, hnode, -⟩ := h
    exact hnode.op
  | bool op args =>
    obtain ⟨xs, hnode, -⟩ := h
    exact hnode.op
  | not arg =>
    obtain ⟨x, hnode, -⟩ := h
    exact hnode.op
  | contains_key map key =>
    obtain ⟨x, y, hnode, -⟩ := h
    exact hnode.op
  | size arg =>
    obtain ⟨x, hnode, -⟩ := h
    exact hnode.op
  | requires_scope action scope =>
    obtain ⟨x, y, hnode, -⟩ := h
    exact hnode.op
  | is_owner_required action =>
    obtain ⟨x, hnode, -⟩ := h
    exact hnode.op

theorem HasForm.operator_eq {e : Expr} (h : HasForm opts e j) {o : Operator}
    (hop : j.read (js "op") = some (.str (js o.name))) : e.operator = some o := by
  rw [h.operator, Option.map_eq_some_iff] at hop
  obtain ⟨o', ho', hname⟩ := hop
  rw [ho', Operator.name_injective (Json.str.inj hname)]

/-- What is built from a value with some levels left: the expressions of its form, as deep as that. -/
def ParsedWithin (opts : ParseOptions) (n : ℕ) (j : Json) (e : Expr) (d : Counts) : Prop :=
  HasForm opts e j ∧ e.depth ≤ n ∧ d = e.counts

/-- What is built from an operator node, the node itself not counted. -/
def ParsedNode (opts : ParseOptions) (n : ℕ) (j : Json) (e : Expr) (d : Counts) : Prop :=
  HasForm opts e j ∧ e.depth ≤ n + 1 ∧ e.counts = ⟨1, 0⟩ + d

theorem one_add_injective {c d : Counts} (h : (⟨1, 0⟩ : Counts) + c = ⟨1, 0⟩ + d) : c = d := by
  have hnodes := congrArg Counts.nodes h
  have hcost := congrArg Counts.cost h
  simp only [Counts.add_nodes, Counts.add_cost] at hnodes hcost
  ext <;> omega

section Operators

variable {n : ℕ} {f : Json → Build Expr} (hf : ∀ x, Spends LIMITS (f x) (ParsedWithin opts n x))

include hf

theorem spends_buildBinary {o : Operator} {cost : ℕ} {mk : Expr → Expr → Expr}
    (hobj : j.isPlainObject = true) (hop : j.read (js "op") = some (.str (js o.name)))
    (hforms : ∀ l r, HasForm opts (mk l r) j ↔
      ∃ x y, IsNode j o [("lhs", x), ("rhs", y)] ∧ HasForm opts l x ∧ HasForm opts r y)
    (hnodes : ∀ l r, (mk l r).nodes = mk l r :: (l.nodes ++ r.nodes))
    (hdepth : ∀ l r, (mk l r).depth = 1 + max l.depth r.depth)
    (hcost : ∀ l r, (mk l r).ownCost = cost)
    (honly : ∀ e : Expr, e.operator = some o → ∃ l r, e = mk l r) :
    Spends LIMITS (buildBinary f j cost mk) (ParsedNode opts n j) := by
  refine (Spends.lift_bind fun _ => Spends.lift_bind fun x => Spends.lift_bind fun y =>
    (spends_addCost cost).bind fun _ => (hf x).bind fun l => (hf y).bind fun r =>
      Spends.pure (mk l r)).congr fun e d => ?_
  have hcounts := fun l r => counts_binary (hnodes l r)
  simp only [requireKeys_eq_ok, operand_eq_ok]
  constructor
  · rintro ⟨_, hkeys, x, hx, y, hy, _, _, _, rfl, ⟨l, _, _, ⟨hl, hdl, rfl⟩, ⟨r, _, _, ⟨hr, hdr, rfl⟩,
      ⟨rfl, rfl⟩, rfl⟩, rfl⟩, rfl⟩
    refine ⟨(hforms l r).mpr ⟨x, y, ⟨hobj, hop, ?_, hkeys⟩, hl, hr⟩, ?_, ?_⟩
    · simp [hx, hy]
    · rw [hdepth]
      omega
    · rw [hcounts, hcost, add_zero]
  · rintro ⟨hform, hle, hd⟩
    obtain ⟨l, r, rfl⟩ := honly e (hform.operator_eq hop)
    obtain ⟨x, y, hnode, hl, hr⟩ := (hforms l r).mp hform
    rw [hdepth] at hle
    rw [hcounts, hcost] at hd
    have hx : j.read (js "lhs") = some x := hnode.operands ("lhs", x) (by simp)
    have hy : j.read (js "rhs") = some y := hnode.operands ("rhs", y) (by simp)
    refine ⟨(), hnode.keys, x, hx, y, hy, (), _, _, rfl,
      ⟨l, _, _, ⟨hl, by omega, rfl⟩, ⟨r, _, _, ⟨hr, by omega, rfl⟩, ⟨rfl, rfl⟩, rfl⟩, rfl⟩, ?_⟩
    rw [add_zero]
    exact (one_add_injective hd).symm

theorem spends_buildUnary {o : Operator} {cost : ℕ} {mk : Expr → Expr}
    (hobj : j.isPlainObject = true) (hop : j.read (js "op") = some (.str (js o.name)))
    (hforms : ∀ a, HasForm opts (mk a) j ↔ ∃ x, IsNode j o [("arg", x)] ∧ HasForm opts a x)
    (hnodes : ∀ a, (mk a).nodes = mk a :: a.nodes) (hdepth : ∀ a, (mk a).depth = 1 + a.depth)
    (hcost : ∀ a, (mk a).ownCost = cost)
    (honly : ∀ e : Expr, e.operator = some o → ∃ a, e = mk a) :
    Spends LIMITS (buildUnary f j cost mk) (ParsedNode opts n j) := by
  refine (Spends.lift_bind fun _ => Spends.lift_bind fun x => (spends_addCost cost).bind fun _ =>
    (hf x).bind fun a => Spends.pure (mk a)).congr fun e d => ?_
  have hcounts := fun a => counts_unary (hnodes a)
  simp only [requireKeys_eq_ok, operand_eq_ok]
  constructor
  · rintro ⟨_, hkeys, x, hx, _, _, _, rfl, ⟨a, _, _, ⟨ha, hda, rfl⟩, ⟨rfl, rfl⟩, rfl⟩, rfl⟩
    refine ⟨(hforms a).mpr ⟨x, ⟨hobj, hop, ?_, hkeys⟩, ha⟩, ?_, ?_⟩
    · simp [hx]
    · rw [hdepth]
      omega
    · rw [hcounts, hcost, add_zero]
  · rintro ⟨hform, hle, hd⟩
    obtain ⟨a, rfl⟩ := honly e (hform.operator_eq hop)
    obtain ⟨x, hnode, ha⟩ := (hforms a).mp hform
    rw [hdepth] at hle
    rw [hcounts, hcost] at hd
    have hx : j.read (js "arg") = some x := hnode.operands ("arg", x) (by simp)
    refine ⟨(), hnode.keys, x, hx, (), _, _, rfl,
      ⟨a, _, _, ⟨ha, by omega, rfl⟩, ⟨rfl, rfl⟩, rfl⟩, ?_⟩
    rw [add_zero]
    exact (one_add_injective hd).symm

omit hf in
theorem all_parsedWithin_iff {xs : List Json} {args : List Expr} {d : Counts} :
    All (ParsedWithin opts n) xs args d ↔ HaveForms opts args xs ∧ depthAll args ≤ n ∧ d = countsAll args := by
  induction xs generalizing args d with
  | nil =>
    rw [All.nil_iff]
    constructor
    · rintro ⟨rfl, rfl⟩
      exact ⟨rfl, Nat.zero_le _, rfl⟩
    · rintro ⟨hform, -, hd⟩
      cases args with
      | nil => exact ⟨rfl, hd⟩
      | cons e es =>
        obtain ⟨y, ys, hnil, -⟩ := hform
        cases hnil
  | cons x xs ih =>
    rw [All.cons_iff]
    constructor
    · rintro ⟨e, _, es, _, ⟨he, hde, rfl⟩, hall, rfl, rfl⟩
      obtain ⟨hes, hdes, rfl⟩ := ih.mp hall
      refine ⟨⟨x, xs, rfl, he, hes⟩, max_le hde hdes, ?_⟩
      rw [countsAll_cons]
    · rintro ⟨hform, hdepth, rfl⟩
      cases args with
      | nil => cases hform
      | cons e es =>
        obtain ⟨y, ys, hcons, he, hes⟩ := hform
        cases hcons
        rw [depthAll, max_le_iff] at hdepth
        exact ⟨e, _, es, _, ⟨he, hdepth.1, rfl⟩, ih.mpr ⟨hes, hdepth.2, rfl⟩, rfl, countsAll_cons e es⟩

/-- The arguments of an operator, charged before they are built. -/
theorem spends_args (cost : ℕ) (xs : List Json) {mk : List Expr → Build Expr} {R : List Expr → Expr → Prop}
    (hmk : ∀ args, Spends LIMITS (mk args) (fun e d => R args e ∧ d = 0)) :
    Spends LIMITS (do
      addCost cost
      let built ← xs.mapM f
      mk built : Build Expr)
      (fun e d => ∃ args, HaveForms opts args xs ∧ depthAll args ≤ n ∧ R args e ∧
        d = ⟨0, cost⟩ + countsAll args) := by
  refine ((spends_addCost cost).bind fun _ => (Spends.mapM hf xs).bind hmk).congr fun e d => ?_
  constructor
  · rintro ⟨_, _, _, rfl, ⟨args, _, _, hall, ⟨hR, rfl⟩, rfl⟩, rfl⟩
    obtain ⟨hform, hdepth, rfl⟩ := all_parsedWithin_iff.mp hall
    exact ⟨args, hform, hdepth, hR, by rw [add_zero]⟩
  · rintro ⟨args, hform, hdepth, hR, rfl⟩
    have hall := all_parsedWithin_iff.mpr ⟨hform, hdepth, rfl⟩
    exact ⟨(), _, _, rfl, ⟨args, _, _, hall, ⟨hR, rfl⟩, rfl⟩, by rw [add_zero]⟩

theorem spends_boolArgs (op : BoolOp) :
    Spends LIMITS (match j.read (js "args") with
      | some (.arr args) => do
        if args.length < 2 then validationError "ARITY"
        addCost 1
        let built ← args.mapM f
        pure (.bool op built)
      | _ => validationError "ARITY" : Build Expr)
      (fun e d => ∃ xs args, j.read (js "args") = some (.arr xs) ∧ 2 ≤ xs.length ∧
        HaveForms opts args xs ∧ depthAll args ≤ n ∧ e = .bool op args ∧ d = ⟨0, 1⟩ + countsAll args) := by
  split
  · next xs hxs =>
    by_cases hlen : xs.length < 2
    · simp only [if_pos hlen]
      refine spends_throw_bind.congr fun e d => ⟨False.elim, ?_⟩
      rintro ⟨ys, args, hys, hle, -⟩
      cases hxs.symm.trans hys
      omega
    · simp only [if_neg hlen]
      have hpure : ∀ args, Spends LIMITS (pure (.bool op args) : Build Expr) _ := fun args => Spends.pure _
      refine (spends_args hf 1 xs hpure).congr fun e d => ?_
      constructor
      · rintro ⟨args, hform, hdepth, rfl, rfl⟩
        exact ⟨xs, args, hxs, by omega, hform, hdepth, rfl, rfl⟩
      · rintro ⟨ys, args, hys, -, hform, hdepth, rfl, rfl⟩
        cases hxs.symm.trans hys
        exact ⟨args, hform, hdepth, rfl, rfl⟩
  · next hne =>
    refine spends_throw.congr fun e d => ⟨False.elim, ?_⟩
    rintro ⟨xs, -, hxs, -⟩
    exact hne xs hxs

theorem spends_buildBool {op : BoolOp} (hobj : j.isPlainObject = true)
    (hop : j.read (js "op") = some (.str (js (Operator.bool op).name))) :
    Spends LIMITS (buildBool f j op) (ParsedNode opts n j) := by
  refine (Spends.lift_bind fun _ => spends_boolArgs hf op).congr fun e d => ?_
  simp only [requireKeys_eq_ok]
  constructor
  · rintro ⟨_, hkeys, xs, args, hxs, hlen, hform, hdepth, rfl, rfl⟩
    refine ⟨⟨xs, ⟨hobj, hop, by simpa using hxs, hkeys⟩, hlen, hform⟩, ?_, counts_bool op args⟩
    rw [Expr.depth]
    omega
  · rintro ⟨hform, hle, hd⟩
    have hoperator := hform.operator_eq hop
    cases e with
    | bool op' args =>
      cases hoperator
      obtain ⟨xs, hnode, hlen, hargs⟩ := hform
      have hxs : j.read (js "args") = some (.arr xs) := hnode.operands ("args", .arr xs) (by simp)
      rw [Expr.depth] at hle
      rw [counts_bool] at hd
      exact ⟨(), hnode.keys, xs, args, hxs, hlen, hargs, by omega, rfl, (one_add_injective hd).symm⟩
    | _ => cases hoperator

theorem spends_buildGateOp {o : Operator} {len : ℕ} {mk : List Expr → Option Expr}
    (hobj : j.isPlainObject = true) (hop : j.read (js "op") = some (.str (js o.name)))
    (hforms : ∀ args e, mk args = some e → (HasForm opts e j ↔
      ∃ xs, IsNode j o [("args", .arr xs)] ∧ xs.length = len ∧ GateOnly opts ∧ HaveForms opts args xs))
    (hdepth : ∀ args e, mk args = some e → e.depth = 1 + depthAll args)
    (hcounts : ∀ args e, mk args = some e → e.counts = ⟨1, 0⟩ + (⟨0, 5⟩ + countsAll args))
    (honly : ∀ e : Expr, e.operator = some o → ∃ args, mk args = some e) :
    Spends LIMITS (buildGateOp opts f j len mk) (ParsedNode opts n j) := by
  refine (Spends.lift_bind fun _ => Spends.lift_bind fun _ => Spends.lift_bind fun xs =>
    spends_args (R := fun args e => mk args = some e) hf 5 xs fun args => ?_).congr fun e d => ?_
  · cases mk args with
    | some e =>
      refine (Spends.pure e).congr fun e' d => ?_
      rw [Option.some.injEq, eq_comm]
    | none => exact spends_throw.congr fun e d => by simp
  simp only [checkGateOp_eq_ok, requireKeys_eq_ok, expectArgs_eq_ok]
  constructor
  · rintro ⟨_, hgate, _, hkeys, xs, ⟨hxs, hlen⟩, args, hform, hle, hsome, rfl⟩
    refine ⟨(hforms args e hsome).mpr ⟨xs, ⟨hobj, hop, by simpa using hxs, hkeys⟩, hlen, hgate, hform⟩,
      ?_, hcounts args e hsome⟩
    rw [hdepth args e hsome]
    omega
  · rintro ⟨hform, hle, hd⟩
    obtain ⟨args, hsome⟩ := honly e (hform.operator_eq hop)
    obtain ⟨xs, hnode, hlen, hgate, hargs⟩ := (hforms args e hsome).mp hform
    have hxs : j.read (js "args") = some (.arr xs) := hnode.operands ("args", .arr xs) (by simp)
    rw [hdepth args e hsome] at hle
    rw [hcounts args e hsome] at hd
    exact ⟨(), hgate, (), hnode.keys, xs, ⟨hxs, hlen⟩, args, hargs, by omega, hsome,
      (one_add_injective hd).symm⟩

omit hf in
theorem scopeNode_eq_some {args : List Expr} {e : Expr} :
    scopeNode args = some e ↔ ∃ action scope, args = [action, scope] ∧ e = .requires_scope action scope := by
  unfold scopeNode
  split
  · simp [eq_comm]
  · next hne =>
    constructor
    · intro h
      cases h
    · rintro ⟨action, scope, rfl, -⟩
      exact (hne action scope rfl).elim

omit hf in
theorem ownerNode_eq_some {args : List Expr} {e : Expr} :
    ownerNode args = some e ↔ ∃ action, args = [action] ∧ e = .is_owner_required action := by
  unfold ownerNode
  split
  · simp [eq_comm]
  · next hne =>
    constructor
    · intro h
      cases h
    · rintro ⟨action, rfl, -⟩
      exact (hne action rfl).elim

theorem spends_requiresScope (hobj : j.isPlainObject = true)
    (hop : j.read (js "op") = some (.str (js Operator.requires_scope.name))) :
    Spends LIMITS (buildGateOp opts f j 2 scopeNode) (ParsedNode opts n j) := by
  refine spends_buildGateOp hf hobj hop ?_ ?_ ?_ ?_
  · intro args e h
    obtain ⟨action, scope, rfl, rfl⟩ := scopeNode_eq_some.mp h
    constructor
    · rintro ⟨x, y, hnode, hgate, hx, hy⟩
      exact ⟨[x, y], hnode, rfl, hgate, x, [y], rfl, hx, y, [], rfl, hy, rfl⟩
    · rintro ⟨_, hnode, -, hgate, x, _, rfl, hx, y, _, rfl, hy, rfl⟩
      exact ⟨x, y, hnode, hgate, hx, hy⟩
  · intro args e h
    obtain ⟨action, scope, rfl, rfl⟩ := scopeNode_eq_some.mp h
    simp [Expr.depth, depthAll]
  · intro args e h
    obtain ⟨action, scope, rfl, rfl⟩ := scopeNode_eq_some.mp h
    rw [counts_binary (l := action) (r := scope) (by rw [Expr.nodes]), countsAll_cons, countsAll_cons,
      countsAll_nil, add_zero]
    rfl
  · intro e he
    cases e <;> cases he
    exact ⟨[_, _], rfl⟩

theorem spends_isOwnerRequired (hobj : j.isPlainObject = true)
    (hop : j.read (js "op") = some (.str (js Operator.is_owner_required.name))) :
    Spends LIMITS (buildGateOp opts f j 1 ownerNode) (ParsedNode opts n j) := by
  refine spends_buildGateOp hf hobj hop ?_ ?_ ?_ ?_
  · intro args e h
    obtain ⟨action, rfl, rfl⟩ := ownerNode_eq_some.mp h
    constructor
    · rintro ⟨x, hnode, hgate, hx⟩
      exact ⟨[x], hnode, rfl, hgate, x, [], rfl, hx, rfl⟩
    · rintro ⟨_, hnode, -, hgate, x, _, rfl, hx, rfl⟩
      exact ⟨x, hnode, hgate, hx⟩
  · intro args e h
    obtain ⟨action, rfl, rfl⟩ := ownerNode_eq_some.mp h
    simp [Expr.depth, depthAll]
  · intro args e h
    obtain ⟨action, rfl, rfl⟩ := ownerNode_eq_some.mp h
    rw [counts_unary (a := action) (by rw [Expr.nodes]), countsAll_cons, countsAll_nil, add_zero]
    rfl
  · intro e he
    cases e <;> cases he
    exact ⟨[_], rfl⟩

theorem spends_buildOperator {o : Operator} (hobj : j.isPlainObject = true)
    (hop : j.read (js "op") = some (.str (js o.name))) :
    Spends LIMITS (buildOperator opts f j o) (ParsedNode opts n j) := by
  cases o with
  | arith op =>
    refine spends_buildBinary hf hobj hop (fun _ _ => Iff.rfl) (fun _ _ => by rw [Expr.nodes])
      (fun _ _ => by rw [Expr.depth]) (fun _ _ => rfl) fun e he => ?_
    cases e <;> cases he
    exact ⟨_, _, rfl⟩
  | cmp op =>
    refine spends_buildBinary hf hobj hop (fun _ _ => Iff.rfl) (fun _ _ => by rw [Expr.nodes])
      (fun _ _ => by rw [Expr.depth]) (fun _ _ => rfl) fun e he => ?_
    cases e <;> cases he
    exact ⟨_, _, rfl⟩
  | eq op =>
    refine spends_buildBinary hf hobj hop (fun _ _ => Iff.rfl) (fun _ _ => by rw [Expr.nodes])
      (fun _ _ => by rw [Expr.depth]) (fun _ _ => rfl) fun e he => ?_
    cases e <;> cases he
    exact ⟨_, _, rfl⟩
  | bool op => exact spends_buildBool hf hobj hop
  | not =>
    refine spends_buildUnary hf hobj hop (fun _ => Iff.rfl) (fun _ => by rw [Expr.nodes])
      (fun _ => by rw [Expr.depth]) (fun _ => rfl) fun e he => ?_
    cases e <;> cases he
    exact ⟨_, rfl⟩
  | size =>
    refine spends_buildUnary hf hobj hop (fun _ => Iff.rfl) (fun _ => by rw [Expr.nodes])
      (fun _ => by rw [Expr.depth]) (fun _ => rfl) fun e he => ?_
    cases e <;> cases he
    exact ⟨_, rfl⟩
  | contains_key =>
    refine spends_buildBinary hf hobj hop (fun _ _ => Iff.rfl) (fun _ _ => by rw [Expr.nodes])
      (fun _ _ => by rw [Expr.depth]) (fun _ _ => rfl) fun e he => ?_
    cases e <;> cases he
    exact ⟨_, _, rfl⟩
  | requires_scope => exact spends_requiresScope hf hobj hop
  | is_owner_required => exact spends_isOwnerRequired hf hobj hop

end Operators

/-! ## Leaves -/

theorem buildConst_eq_ok {v : Json} {e : Expr} :
    buildConst (some v) = .ok e ↔ ∃ c, e = .const c ∧ IsLiteral v c := by
  constructor
  · intro h
    unfold buildConst at h
    split at h
    · next n hn =>
      cases hn
      split_ifs at h with hrange
      · exact ⟨.int256 n, (pure_eq_ok.mp h).symm, rfl, hrange⟩
      · cases h
    · next b hb =>
      cases hb
      exact ⟨.bool b, (pure_eq_ok.mp h).symm, rfl⟩
    · next hnull =>
      cases hnull
      exact ⟨.null, (pure_eq_ok.mp h).symm, trivial⟩
    · next s hs =>
      cases hs
      split_ifs at h with hbytes haddress
      · exact ⟨.bytes32 _, (pure_eq_ok.mp h).symm, hbytes, rfl⟩
      · exact ⟨.address s, (pure_eq_ok.mp h).symm, by simpa using hbytes, haddress, rfl⟩
      · exact ⟨.string s, (pure_eq_ok.mp h).symm, by simpa using hbytes, by simpa using haddress, rfl⟩
    · cases h
  · rintro ⟨c, rfl, hc⟩
    cases v <;> cases c <;> try exact hc.elim
    · rfl
    · cases hc
      rfl
    · obtain ⟨rfl, hrange⟩ := hc
      rw [buildConst, if_pos hrange]
      rfl
    · obtain ⟨hbytes, haddress, rfl⟩ := hc
      rw [buildConst, hbytes, haddress]
      rfl
    · obtain ⟨hbytes, rfl⟩ := hc
      rw [buildConst, if_pos hbytes]
      rfl
    · obtain ⟨hbytes, haddress, rfl⟩ := hc
      rw [buildConst, hbytes, haddress]
      rfl

theorem buildAction_eq_ok {v : Json} {e : Expr} :
    buildAction opts (some v) = .ok e ↔
      ∃ a, v = .str a ∧ e = .action a ∧ GateOnly opts ∧ isRegisteredAction a = true := by
  unfold buildAction GateOnly
  split
  · next a ha =>
    cases ha
    constructor
    · intro h
      split_ifs at h with hscope hversion haction
      · cases h
      · cases h
      · cases h
      · refine ⟨a, rfl, (pure_eq_ok.mp h).symm, ⟨not_not.mp hscope, ?_⟩, by simpa using haction⟩
        cases hopts : opts.version with
        | v1_1 => exact (hversion hopts).elim
        | v1_2 => rfl
    · rintro ⟨_, hstr, rfl, ⟨hscope, hversion⟩, haction⟩
      cases hstr
      rw [if_neg (not_not.mpr hscope), hversion, haction]
      rfl
  · next hne =>
    constructor
    · intro h
      cases h
    · rintro ⟨a, rfl, -⟩
      exact (hne a rfl).elim

theorem checkRoot_eq_ok {root : Str} {path : List Str} {u : Unit} :
    checkRoot opts (root :: path) = .ok u ↔ RootAllowed opts (root :: path) := by
  unfold checkRoot RootAllowed
  simp only [List.headD_cons, List.head?_cons, Option.some.injEq]
  by_cases hparams : root = js "params"
  · simp [hparams]
  by_cases hstate : root = js "state"
  · subst hstate
    cases hversion : opts.version <;> cases hscope : opts.scope <;>
      cases hbracketed : isBracketed (js "state" :: path) <;>
      simp [parseError, validationError]
  by_cases hgate : root = js "capability" ∨ root = js "signatures"
  · by_cases hscope : opts.scope = .gate <;> simp [hparams, hstate, hgate, hscope, parseError]
  · simp [hparams, hstate, hgate, parseError]

theorem splitOn_ne_nil (c : UInt16) (s : Str) : splitOn c s ≠ [] := by
  cases s with
  | nil => nofun
  | cons u s =>
    rw [splitOn]
    split_ifs
    · nofun
    · split <;> nofun

theorem spends_buildVar (raw : Str) :
    Spends LIMITS (buildVar opts raw)
      (fun e d => ∃ path, e = .var raw path ∧ IsPath opts raw path ∧ d = ⟨0, 2 * path.length⟩) := by
  unfold buildVar
  dsimp only
  obtain ⟨root, path, hpath⟩ := List.exists_cons_of_ne_nil (splitOn_ne_nil 0x2E raw)
  rw [hpath]
  by_cases hany : (root :: path).any (fun p => p.isEmpty) = true
  · rw [if_pos hany]
    refine spends_throw_bind.congr fun e d => ⟨False.elim, ?_⟩
    rintro ⟨p, -, his, -⟩
    obtain ⟨q, hq, hempty⟩ := List.any_eq_true.mp hany
    exact his.nonempty q (by rwa [his.segments, hpath]) (List.isEmpty_iff.mp hempty)
  rw [if_neg hany]
  by_cases hlen : (root :: path).length >
      if isBracketed (root :: path) then MAX_PATH_SEGMENTS_BRACKETED else MAX_PATH_SEGMENTS
  · rw [if_pos hlen]
    refine spends_throw_bind.congr fun e d => ⟨False.elim, ?_⟩
    rintro ⟨p, -, his, -⟩
    have hle := his.length
    rw [his.segments, hpath] at hle
    exact absurd hle (Nat.not_le.mpr hlen)
  rw [if_neg hlen]
  refine (Spends.lift_bind fun _ => (spends_addCost _).bind fun _ => Spends.pure _).congr fun e d => ?_
  simp only [checkRoot_eq_ok]
  constructor
  · rintro ⟨_, hroot, _, _, _, rfl, ⟨rfl, rfl⟩, rfl⟩
    refine ⟨root :: path, rfl, ⟨hpath.symm, ?_, Nat.not_lt.mp hlen, hroot⟩, add_zero _⟩
    intro p hp hnil
    exact hany (List.any_eq_true.mpr ⟨p, hp, by rw [hnil]; rfl⟩)
  · rintro ⟨p, rfl, his, rfl⟩
    have hp : p = root :: path := his.segments.trans hpath
    subst hp
    exact ⟨(), his.root, (), _, _, rfl, ⟨rfl, rfl⟩, (add_zero _).symm⟩

/-! ## Nodes -/

theorem read_eq_none_of_keys {k : String} (hk : js k ∉ inheritedNames) {allowed : List String}
    (hkeys : ∀ e ∈ j.members, e.1 ∈ allowed.map js) (hnot : k ∉ allowed) : j.read (js k) = none := by
  cases j with
  | obj m =>
    rw [Json.read_of_not_inherited hk, OrderedMap.get_eq_none_iff]
    intro e he hek
    obtain ⟨k', hk', heq⟩ := List.mem_map.mp (hkeys e he)
    rw [hek, js_inj] at heq
    exact hnot (heq ▸ hk')
  | builtin l =>
    rw [Json.read, if_neg, inherited_eq_none hk]
    intro hproto
    exact hk (by simp [hproto, inheritedNames])
  | _ => rfl

/-- The node has an operator, and nothing that makes it a leaf. -/
theorem IsNode.reads {o : Operator} {fields : List (String × Json)} (h : IsNode j o fields)
    (hfields : ∀ k ∈ ["const", "var", "action"], k ∉ fields.map Prod.fst) :
    j.read (js "const") = none ∧ j.read (js "var") = none ∧ j.read (js "action") = none := by
  have hnone : ∀ k ∈ ["const", "var", "action"], j.read (js k) = none := by
    intro k hk
    refine read_eq_none_of_keys ?_ h.keys ?_
    · simp only [List.mem_cons, List.not_mem_nil, or_false] at hk
      rcases hk with rfl | rfl | rfl <;> decide
    · rw [List.mem_cons, not_or]
      refine ⟨?_, hfields k hk⟩
      rintro rfl
      simp at hk
  exact ⟨hnone _ (by simp), hnone _ (by simp), hnone _ (by simp)⟩

/-- A form is an object with a value under exactly one of the names that tell the nodes apart. -/
theorem HasForm.single {e : Expr} (h : HasForm opts e j) :
    j.isPlainObject = true ∧ ([(j.read (js "const")).isSome, (j.read (js "var")).isSome,
      (j.read (js "action")).isSome, (j.read (js "op")).isSome].filter id).length = 1 := by
  have hnode : ∀ {o fields}, IsNode j o fields →
      (∀ k ∈ ["const", "var", "action"], k ∉ fields.map Prod.fst) →
      j.isPlainObject = true ∧ ([(j.read (js "const")).isSome, (j.read (js "var")).isSome,
        (j.read (js "action")).isSome, (j.read (js "op")).isSome].filter id).length = 1 := by
    intro o fields hnode hfields
    obtain ⟨hconst, hvar, haction⟩ := hnode.reads hfields
    rw [hconst, hvar, haction, hnode.op]
    exact ⟨hnode.object, rfl⟩
  cases e with
  | const c =>
    obtain ⟨v, rfl, -⟩ := h
    exact ⟨rfl, rfl⟩
  | var raw path =>
    obtain ⟨rfl, -⟩ := h
    exact ⟨rfl, rfl⟩
  | action a =>
    obtain ⟨rfl, -⟩ := h
    exact ⟨rfl, rfl⟩
  | eq op l r =>
    obtain ⟨x, y, h, -⟩ := h
    exact hnode h (by simp)
  | cmp op l r =>
    obtain ⟨x, y, h, -⟩ := h
    exact hnode h (by simp)
  | arith op l r =>
    obtain ⟨x, y, h, -⟩ := h
    exact hnode h (by simp)
  | bool op args =>
    obtain ⟨xs, h, -⟩ := h
    exact hnode h (by simp)
  | not arg =>
    obtain ⟨x, h, -⟩ := h
    exact hnode h (by simp)
  | contains_key map key =>
    obtain ⟨x, y, h, -⟩ := h
    exact hnode h (by simp)
  | size arg =>
    obtain ⟨x, h, -⟩ := h
    exact hnode h (by simp)
  | requires_scope action scope =>
    obtain ⟨x, y, h, -⟩ := h
    exact hnode h (by simp)
  | is_owner_required action =>
    obtain ⟨x, h, -⟩ := h
    exact hnode h (by simp)

/-- An object of one member. -/
theorem eq_obj_singleton {k : String} {v : Json} (hk : js k ∉ inheritedNames)
    (hlen : j.members.length = 1) (hread : j.read (js k) = some v) : j = .obj [(js k, v)] := by
  cases j with
  | obj m =>
    obtain ⟨⟨k', v'⟩, rfl⟩ := List.length_eq_one_iff.mp hlen
    rw [Json.read_of_not_inherited hk] at hread
    by_cases heq : k' = js k
    · rw [OrderedMap.get, if_pos heq] at hread
      rw [heq, Option.some.inj hread]
    · rw [OrderedMap.get, if_neg heq] at hread
      cases hread
  | _ => cases hlen

section Leaves

variable {e : Expr}

theorem hasForm_const_iff {v : Json} :
    HasForm opts e (.obj [(js "const", v)]) ↔ ∃ c, e = .const c ∧ IsLiteral v c := by
  constructor
  · intro h
    have hop := h.operator
    cases e with
    | const c =>
      obtain ⟨w, hobj, hc⟩ := h
      cases hobj
      exact ⟨c, rfl, hc⟩
    | var raw path => simp [HasForm] at h
    | action a => simp [HasForm] at h
    | _ => cases hop
  · rintro ⟨c, rfl, hc⟩
    exact ⟨v, rfl, hc⟩

theorem hasForm_var_iff {v : Json} :
    HasForm opts e (.obj [(js "var", v)]) ↔
      ∃ raw path, v = .str raw ∧ e = .var raw path ∧ IsPath opts raw path := by
  constructor
  · intro h
    have hop := h.operator
    cases e with
    | var raw path =>
      obtain ⟨hobj, hpath⟩ := h
      cases hobj
      exact ⟨raw, path, rfl, rfl, hpath⟩
    | const c => simp [HasForm] at h
    | action a => simp [HasForm] at h
    | _ => cases hop
  · rintro ⟨raw, path, rfl, rfl, hpath⟩
    exact ⟨rfl, hpath⟩

theorem hasForm_action_iff {v : Json} :
    HasForm opts e (.obj [(js "action", v)]) ↔
      ∃ a, v = .str a ∧ e = .action a ∧ GateOnly opts ∧ isRegisteredAction a = true := by
  constructor
  · intro h
    have hop := h.operator
    cases e with
    | action a =>
      obtain ⟨hobj, hgate⟩ := h
      cases hobj
      exact ⟨a, rfl, rfl, hgate⟩
    | const c => simp [HasForm] at h
    | var raw path => simp [HasForm] at h
    | _ => cases hop
  · rintro ⟨a, rfl, rfl, hgate⟩
    exact ⟨rfl, hgate⟩

end Leaves

/-- The node is counted, and what is built for it is below. -/
theorem spends_node {n : ℕ} {x : Build Expr} {R : Expr → Counts → Prop} (hx : Spends LIMITS x R)
    (h : ∀ e d, R e d ↔ ParsedNode opts n j e d) :
    Spends LIMITS (bumpNode >>= fun _ => x) (ParsedWithin opts (n + 1) j) := by
  refine (spends_bumpNode.bind fun _ => hx).congr fun e d => ?_
  constructor
  · rintro ⟨_, _, d', rfl, hR, rfl⟩
    obtain ⟨hform, hdepth, hcounts⟩ := (h e d').mp hR
    exact ⟨hform, hdepth, hcounts.symm⟩
  · rintro ⟨hform, hdepth, rfl⟩
    obtain ⟨rest, hrest⟩ : ∃ rest, e.nodes = e :: rest := by
      cases e <;> exact ⟨_, by rw [Expr.nodes]⟩
    have hcounts : e.counts = ⟨1, 0⟩ + ⟨rest.length, e.cost⟩ := by
      ext
      · rw [Expr.counts, hrest, List.length_cons, Counts.add_nodes, Nat.add_comm]
      · rw [Expr.counts, Counts.add_cost, Nat.zero_add]
    exact ⟨(), _, _, rfl, (h e _).mpr ⟨hform, hdepth, hcounts⟩, hcounts⟩

/-- A value that is the form of no expression, and is refused. -/
theorem spends_refused {n : ℕ} {x : Build Expr} (hx : Spends LIMITS x fun _ _ => False)
    (h : ∀ e, ¬HasForm opts e j) : Spends LIMITS (bumpNode >>= fun _ => x) (ParsedWithin opts (n + 1) j) :=
  spends_node hx fun e _ => ⟨False.elim, fun hparsed => h e hparsed.1⟩

/-- What is known of a value that has exactly one of the names. -/
theorem discriminant_cases (h : ([(j.read (js "const")).isSome, (j.read (js "var")).isSome,
    (j.read (js "action")).isSome, (j.read (js "op")).isSome].filter id).length = 1) :
    (∃ v, j.read (js "op") = some v) ∨ j.read (js "op") = none ∧
      ((∃ v, j.read (js "const") = some v) ∨ j.read (js "const") = none ∧
        ((∃ v, j.read (js "var") = some v) ∨ j.read (js "var") = none ∧ ∃ v, j.read (js "action") = some v)) := by
  cases hop : j.read (js "op") <;> cases hconst : j.read (js "const") <;>
    cases hvar : j.read (js "var") <;> cases haction : j.read (js "action") <;> simp_all

theorem spends_op {n : ℕ} {f : Json → Build Expr} (hf : ∀ x, Spends LIMITS (f x) (ParsedWithin opts n x)) {v : Json}
    (hobj : j.isPlainObject = true) (hop : j.read (js "op") = some v) :
    Spends LIMITS (bumpNode >>= fun _ => buildOp opts f j) (ParsedWithin opts (n + 1) j) := by
  by_cases hstr : ∃ op, v = .str op
  · obtain ⟨op, rfl⟩ := hstr
    rw [buildOp_eq hop]
    cases ho : Operator.ofStr? op with
    | some o =>
      rw [Operator.name_of_ofStr? ho] at hop
      exact spends_node (spends_buildOperator hf hobj hop) fun _ _ => Iff.rfl
    | none =>
      refine spends_refused spends_throw fun e h => ?_
      rw [h.operator, Option.map_eq_some_iff] at hop
      obtain ⟨o, -, hname⟩ := hop
      rw [← Json.str.inj hname, Operator.ofStr?_name] at ho
      cases ho
  · have hthrow : buildOp opts f j = parseError "MALFORMED_NODE" := by
      unfold buildOp
      rw [hop]
      cases v with
      | str op => exact (hstr ⟨op, rfl⟩).elim
      | _ => rfl
    rw [hthrow]
    refine spends_refused spends_throw fun e h => ?_
    rw [h.operator, Option.map_eq_some_iff] at hop
    obtain ⟨o, -, hname⟩ := hop
    exact hstr ⟨_, hname.symm⟩

theorem HasForm.leaf {e : Expr} (h : HasForm opts e j) (hop : j.read (js "op") = none) :
    j.members.length = 1 := by
  have hoperator := h.operator
  rw [hop] at hoperator
  cases e with
  | const c =>
    obtain ⟨v, rfl, -⟩ := h
    rfl
  | var raw path =>
    obtain ⟨rfl, -⟩ := h
    rfl
  | action a =>
    obtain ⟨rfl, -⟩ := h
    rfl
  | _ => cases hoperator

theorem spends_const {n : ℕ} (v : Json) :
    Spends LIMITS (bumpNode >>= fun _ => liftM (buildConst (some v)))
      (ParsedWithin opts (n + 1) (.obj [(js "const", v)])) := by
  refine spends_node (Spends.lift _) fun e d => ?_
  unfold ParsedNode
  rw [buildConst_eq_ok, hasForm_const_iff]
  constructor
  · rintro ⟨⟨c, rfl, hc⟩, rfl⟩
    exact ⟨⟨c, rfl, hc⟩, by rw [Expr.depth]; omega, rfl⟩
  · rintro ⟨⟨c, rfl, hc⟩, -, hd⟩
    exact ⟨⟨c, rfl, hc⟩, (one_add_injective ((add_zero _).trans hd)).symm⟩

theorem spends_var {n : ℕ} (v : Json) :
    Spends LIMITS (bumpNode >>= fun _ => match (Json.obj [(js "var", v)]).read (js "var") with
        | some (.str raw) => buildVar opts raw
        | _ => parseError "MALFORMED_NODE")
      (ParsedWithin opts (n + 1) (.obj [(js "var", v)])) := by
  rw [show (Json.obj [(js "var", v)]).read (js "var") = some v from rfl]
  by_cases hstr : ∃ raw, v = .str raw
  · obtain ⟨raw, rfl⟩ := hstr
    refine spends_node (spends_buildVar raw) fun e d => ?_
    unfold ParsedNode
    rw [hasForm_var_iff]
    have hcounts : ∀ path, (Expr.var raw path).counts = ⟨1, 0⟩ + ⟨0, 2 * path.length⟩ := fun path =>
      Counts.ext rfl (Nat.zero_add _).symm
    constructor
    · rintro ⟨path, rfl, hpath, rfl⟩
      exact ⟨⟨raw, path, rfl, rfl, hpath⟩, by rw [Expr.depth]; omega, hcounts path⟩
    · rintro ⟨⟨raw', path, hraw, rfl, hpath⟩, -, hd⟩
      cases hraw
      exact ⟨path, rfl, hpath, (one_add_injective ((hcounts path).symm.trans hd)).symm⟩
  · split
    · next raw hraw => exact (hstr ⟨raw, Option.some.inj hraw⟩).elim
    · refine spends_refused spends_throw fun e h => ?_
      obtain ⟨raw, -, hraw, -⟩ := hasForm_var_iff.mp h
      exact hstr ⟨raw, hraw⟩

theorem spends_action {n : ℕ} (v : Json) :
    Spends LIMITS (bumpNode >>= fun _ => liftM (buildAction opts (some v)))
      (ParsedWithin opts (n + 1) (.obj [(js "action", v)])) := by
  refine spends_node (Spends.lift _) fun e d => ?_
  unfold ParsedNode
  rw [buildAction_eq_ok, hasForm_action_iff]
  constructor
  · rintro ⟨⟨a, hv, rfl, ha⟩, rfl⟩
    exact ⟨⟨a, hv, rfl, ha⟩, by rw [Expr.depth]; omega, rfl⟩
  · rintro ⟨⟨a, hv, rfl, ha⟩, -, hd⟩
    exact ⟨⟨a, hv, rfl, ha⟩, (one_add_injective ((add_zero _).trans hd)).symm⟩

/-- What the parser builds from a value, with some levels left: by induction on the levels. -/
theorem spends_build (n : ℕ) (j : Json) : Spends LIMITS (build opts n j) (ParsedWithin opts n j) := by
  induction n generalizing j with
  | zero =>
    refine spends_throw.congr fun e d => ⟨False.elim, ?_⟩
    rintro ⟨-, hdepth, -⟩
    cases e <;> simp [Expr.depth] at hdepth
  | succ n ih =>
    unfold build
    dsimp only
    by_cases hobj : j.isPlainObject = true
    swap
    · rw [if_pos (by simpa using hobj)]
      exact spends_refused spends_throw_bind fun e h => hobj h.single.1
    rw [if_neg (by simpa using hobj)]
    by_cases hsingle : ([(j.read (js "const")).isSome, (j.read (js "var")).isSome,
      (j.read (js "action")).isSome, (j.read (js "op")).isSome].filter id).length = 1
    swap
    · rw [if_pos hsingle]
      exact spends_refused spends_throw_bind fun e h => hsingle h.single.2
    rw [if_neg (not_not.mpr hsingle)]
    obtain ⟨v, hop⟩ | ⟨hop, hleaf⟩ := discriminant_cases hsingle
    · rw [if_pos (by rw [hop]; rfl)]
      exact spends_op ih hobj hop
    rw [if_neg (by rw [hop]; exact Bool.false_ne_true)]
    by_cases hlen : j.members.length = 1
    swap
    · rw [if_pos hlen]
      exact spends_refused spends_throw_bind fun e h => hlen (h.leaf hop)
    rw [if_neg (not_not.mpr hlen)]
    obtain ⟨v, hconst⟩ | ⟨hconst, ⟨v, hvar⟩ | ⟨hvar, v, haction⟩⟩ := hleaf
    · rw [if_pos (by rw [hconst]; rfl), hconst]
      cases eq_obj_singleton (by decide) hlen hconst
      exact spends_const v
    · rw [if_neg (by rw [hconst]; exact Bool.false_ne_true), if_pos (by rw [hvar]; rfl)]
      cases eq_obj_singleton (by decide) hlen hvar
      exact spends_var v
    · rw [if_neg (by rw [hconst]; exact Bool.false_ne_true), if_neg (by rw [hvar]; exact Bool.false_ne_true), haction]
      cases eq_obj_singleton (by decide) hlen haction
      exact spends_action v

/-! ## Whole expressions -/

/-- A root that is allowed stands in its scope. -/
theorem RootAllowed.allowed {raw : Str} {path : List Str} (h : RootAllowed opts path) :
    (Expr.var raw path).AllowedIn opts.scope := by
  have hstate : isBracketed path = true → path.head? = some (js "state") := by
    intro hbracketed
    match path with
    | root :: seg :: _ =>
      simp only [isBracketed, Bool.and_eq_true, decide_eq_true_eq] at hbracketed
      rw [List.head?_cons, hbracketed.1]
  rcases h with hparams | ⟨hroot, hscope⟩ | ⟨hroot, hscope⟩
  · constructor
    · rw [hparams]
      simp
    · intro hbracketed
      simp [hparams] at hstate
      simp [hstate] at hbracketed
  · constructor
    · rw [hroot]
      simp
    · intro hbracketed
      exact (hscope hbracketed).1
  · refine ⟨fun _ => hscope, fun hbracketed => ?_⟩
    rw [hstate hbracketed] at hroot
    simp at hroot

theorem buildExpression_eq_ok {input : Json} {e : Expr} {c : Counts} :
    buildExpression input opts = .ok (e, c) ↔
      ∃ j, parsedInput input = .ok j ∧ HasForm opts e j ∧ e.depth ≤ MAX_DEPTH ∧
        e.nodes.length ≤ MAX_NODES ∧ e.cost ≤ MAX_EXPRESSION_COST ∧ c = e.counts := by
  unfold buildExpression
  rw [bind_eq_ok]
  refine exists_congr fun j => and_congr_right fun _ => ?_
  have hbuild := @spends_build opts MAX_DEPTH j 0 e c ⟨Nat.zero_le _, Nat.zero_le _⟩
  refine hbuild.trans ?_
  constructor
  · rintro ⟨d, ⟨hform, hdepth, rfl⟩, rfl, hlimit⟩
    rw [zero_add] at hlimit
    exact ⟨hform, hdepth, hlimit.1, hlimit.2, zero_add _⟩
  · rintro ⟨hform, hdepth, hnodes, hcost, rfl⟩
    exact ⟨e.counts, ⟨hform, hdepth, rfl⟩, (zero_add _).symm, hnodes, hcost⟩

/-- The expressions that are accepted: those whose form the value is, within the limits. -/
theorem parseExpression_iff {input : Json} {e : Expr} :
    parseExpression input opts = .ok e ↔
      ∃ j, parsedInput input = .ok j ∧ HasForm opts e j ∧ e.depth ≤ MAX_DEPTH ∧
        e.nodes.length ≤ MAX_NODES ∧ e.cost ≤ MAX_EXPRESSION_COST := by
  unfold parseExpression
  rw [map_eq_ok]
  constructor
  · rintro ⟨⟨_, c⟩, h, rfl⟩
    obtain ⟨j, hj, hform, hdepth, hnodes, hcost, -⟩ := buildExpression_eq_ok.mp h
    exact ⟨j, hj, hform, hdepth, hnodes, hcost⟩
  · rintro ⟨j, hj, hform, hdepth, hnodes, hcost⟩
    exact ⟨(e, e.counts), buildExpression_eq_ok.mpr ⟨j, hj, hform, hdepth, hnodes, hcost, rfl⟩, rfl⟩

/-- The cost that is counted is the sum over the nodes of the expression. -/
theorem expressionCost_eq {input : Json} {e : Expr} (h : parseExpression input opts = .ok e) :
    expressionCost input opts = .ok e.cost := by
  obtain ⟨j, hj, hform, hdepth, hnodes, hcost⟩ := parseExpression_iff.mp h
  unfold expressionCost
  rw [map_eq_ok]
  exact ⟨(e, e.counts), buildExpression_eq_ok.mpr ⟨j, hj, hform, hdepth, hnodes, hcost, rfl⟩, rfl⟩

mutual

/-- Every node of an expression that has a form may stand in the scope. -/
theorem HasForm.allowed (e : Expr) {j : Json} (h : HasForm opts e j) : ∀ m ∈ e.nodes, m.AllowedIn opts.scope := by
  cases e with
  | const c =>
    rw [Expr.nodes, List.forall_mem_singleton]
    trivial
  | var raw path =>
    obtain ⟨-, hpath⟩ := h
    rw [Expr.nodes, List.forall_mem_singleton]
    exact hpath.root.allowed
  | action a =>
    obtain ⟨-, hgate, -⟩ := h
    rw [Expr.nodes, List.forall_mem_singleton]
    exact hgate.1
  | eq op l r =>
    obtain ⟨x, y, -, hl, hr⟩ := h
    rw [Expr.nodes, List.forall_mem_cons, List.forall_mem_append]
    exact ⟨trivial, hl.allowed l, hr.allowed r⟩
  | cmp op l r =>
    obtain ⟨x, y, -, hl, hr⟩ := h
    rw [Expr.nodes, List.forall_mem_cons, List.forall_mem_append]
    exact ⟨trivial, hl.allowed l, hr.allowed r⟩
  | arith op l r =>
    obtain ⟨x, y, -, hl, hr⟩ := h
    rw [Expr.nodes, List.forall_mem_cons, List.forall_mem_append]
    exact ⟨trivial, hl.allowed l, hr.allowed r⟩
  | bool op args =>
    obtain ⟨xs, -, -, hargs⟩ := h
    rw [Expr.nodes, List.forall_mem_cons]
    exact ⟨trivial, haveForms_allowed args hargs⟩
  | not arg =>
    obtain ⟨x, -, harg⟩ := h
    rw [Expr.nodes, List.forall_mem_cons]
    exact ⟨trivial, harg.allowed arg⟩
  | contains_key map key =>
    obtain ⟨x, y, -, hmap, hkey⟩ := h
    rw [Expr.nodes, List.forall_mem_cons, List.forall_mem_append]
    exact ⟨trivial, hmap.allowed map, hkey.allowed key⟩
  | size arg =>
    obtain ⟨x, -, harg⟩ := h
    rw [Expr.nodes, List.forall_mem_cons]
    exact ⟨trivial, harg.allowed arg⟩
  | requires_scope action scope =>
    obtain ⟨x, y, -, hgate, haction, hscope⟩ := h
    rw [Expr.nodes, List.forall_mem_cons, List.forall_mem_append]
    exact ⟨hgate.1, haction.allowed action, hscope.allowed scope⟩
  | is_owner_required action =>
    obtain ⟨x, -, hgate, haction⟩ := h
    rw [Expr.nodes, List.forall_mem_cons]
    exact ⟨hgate.1, haction.allowed action⟩

theorem haveForms_allowed (es : List Expr) {xs : List Json} (h : HaveForms opts es xs) :
    ∀ m ∈ nodesAll es, m.AllowedIn opts.scope := by
  cases es with
  | nil => nofun
  | cons e es =>
    obtain ⟨y, ys, -, he, hes⟩ := h
    rw [nodesAll, List.forall_mem_append]
    exact ⟨he.allowed e, haveForms_allowed es hes⟩

end

/-- The limits of a parsed expression, and that they and the form decide what is accepted. -/
theorem parsed_within_limits (input : Json) (opts : ParseOptions) :
    (∀ e, parseExpression input opts = .ok e →
      e.depth ≤ 10 ∧ e.nodes.length ≤ 100 ∧ (e.nodes.map Expr.ownCost).sum ≤ 1000 ∧
      expressionCost input opts = .ok (e.nodes.map Expr.ownCost).sum ∧
      (∀ m ∈ e.nodes, m.AllowedIn opts.scope) ∧
      ∀ H b, evalNode H b opts.scope e ≠ .error (.dsl .ERROR "INTERNAL")) ∧
    ∀ e, parseExpression input opts = .ok e ↔
      ∃ j, parsedInput input = .ok j ∧ HasForm opts e j ∧ e.depth ≤ 10 ∧ e.nodes.length ≤ 100 ∧
        (e.nodes.map Expr.ownCost).sum ≤ 1000 := by
  refine ⟨fun e h => ?_, fun e => parseExpression_iff⟩
  have hcost := expressionCost_eq h
  obtain ⟨j, -, hform, hdepth, hnodes, hle⟩ := parseExpression_iff.mp h
  refine ⟨hdepth, hnodes, hle, hcost, hform.allowed e, fun H b hthrow => ?_⟩
  exact known_evalNode e _ hthrow rfl

end ParadigmTerra
