import Mathlib.Data.List.Forall2
import Mathlib.Data.List.Induction
import StackCompiler.Assembly.Value
import StackCompiler.Form.OfExpr
import StackCompiler.Proofs.Emission
import StackCompiler.Source.Build

/-!
Chains of one operator. In the source a chain is nested to the left, and its form is one operation
on all operands. `ofExpr_chain` shows which operands these are, and `emitValue_nest` that for
numbers nothing of this can be seen in the code: the operation and the nest of operations on two
operands are built from the same steps.
-/

namespace StackCompiler

open Source

/-! ### Chains of forms -/

namespace Form

/-- Operands combined two at a time, from the left. -/
def nest (kind : OpKind) (family : Family) (first : Form) (rest : List Form) : Form :=
  rest.foldl (fun left right => .op kind family [left, right]) first

/-- The operands that a form brings into a chain when it stands on the left. -/
def spread (kind : OpKind) (family : Family) : Form → List Form
  | .op kind' family' args =>
    if kind.isVariadic && kind' = kind && family' = family then args else [.op kind' family' args]
  | f => [f]

variable {kind : OpKind} {family : Family} {first : Form}

@[simp] theorem nest_append (rest : List Form) (last : Form) :
    nest kind family first (rest ++ [last]) =
      .op kind family [nest kind family first rest, last] := by
  simp [nest]

/-- The last operation of a nest is one on two operands. -/
theorem exists_nest {rest : List Form} (hrest : rest ≠ []) :
    ∃ left right, nest kind family first rest = .op kind family [left, right] := by
  induction rest using List.reverseRecOn with
  | nil => exact absurd rfl hrest
  | append_singleton rest last _ => exact ⟨_, last, nest_append rest last⟩

/-- Only the left operand is ever spread out; the right one is one more operand. -/
theorem applyOp_eq (left right : Form) :
    applyOp kind family left right = .op kind family (left.spread kind family ++ [right]) := by
  cases left with
  | op kind' family' args =>
      simp only [applyOp, spread]
      split
      · rfl
      · rfl
  | _ => rfl

theorem spread_of_ne (h : ∀ args, first ≠ .op kind family args) :
    first.spread kind family = [first] := by
  cases first with
  | op kind' family' args =>
      have hne : ¬(kind' = kind ∧ family' = family) := by
        rintro ⟨rfl, rfl⟩
        exact h args rfl
      simp only [spread, Bool.and_eq_true, decide_eq_true_eq, and_assoc, hne, and_false, if_false]
  | _ => rfl

theorem spread_op (hkind : kind.isVariadic = true) (args : List Form) :
    (op kind family args).spread kind family = args := by
  simp [spread, hkind]

/-- Operators that do not repeat have two operands. -/
theorem applyOp_pair (hkind : kind.isVariadic = false) (left right : Form) :
    applyOp kind family left right = .op kind family [left, right] := by
  rw [applyOp_eq]
  cases left with
  | op kind' family' args => simp [spread, hkind]
  | _ => rfl

/-- One operator along a chain. -/
theorem foldl_applyOp (hkind : kind.isVariadic = true) {rest : List Form} (hrest : rest ≠ []) :
    rest.foldl (applyOp kind family) first =
      .op kind family (first.spread kind family ++ rest) := by
  induction rest using List.reverseRecOn with
  | nil => exact absurd rfl hrest
  | append_singleton rest last ih =>
      rw [List.foldl_append, List.foldl_cons, List.foldl_nil, applyOp_eq]
      cases rest with
      | nil => rfl
      | cons second rest =>
          rw [ih (List.cons_ne_nil _ _), spread_op hkind, List.append_assoc]

theorem ofBinary_eq {sign : BinaryOp} (hsign : sign.opKind? = some kind) (left right : Form)
    (span : Span) :
    ofBinary sign (some family) left right span = .ok (applyOp kind family left right) := by
  cases sign <;> cases hsign <;> rfl

/-- The form of each step of a chain is that of the steps before it with one operand more. -/
theorem foldlM_ofBinary {sign : BinaryOp} (hsign : sign.opKind? = some kind)
    (rest : List (Form × Span)) :
    rest.foldlM (fun left right => ofBinary sign (some family) left right.1 right.2) first =
      .ok ((rest.map Prod.fst).foldl (applyOp kind family) first) := by
  induction rest generalizing first with
  | nil => rfl
  | cons right rest ih =>
      rw [List.foldlM_cons, ofBinary_eq hsign]
      exact ih

end Form

/-! ### Chains in the source -/

/-- One more operand of a chain, with the kind and the place of the chain that ends with it. -/
structure Source.Link where
  operand : Expr
  kind : Kind
  span : Span

namespace Source.Expr

def chain (sign : BinaryOp) (first : Expr) (links : List Link) : Expr :=
  links.foldl (fun left link => .binary sign left link.operand link.kind link.span) first

/-- Whether every operation of a chain is one on operands of the family. -/
def isChainOf (sign : BinaryOp) (family : Family) : Expr → List Link → Bool
  | _, [] => true
  | left, link :: rest =>
    (left.kind.family? <|> link.operand.kind.family?) = some family &&
      isChainOf sign family (.binary sign left link.operand link.kind link.span) rest

end Source.Expr

/-- The form of a chain in the source. -/
theorem ofExpr_chain {env : Environment} {sign : BinaryOp} {kind : OpKind} {family : Family}
    (hsign : sign.opKind? = some kind) {first : Expr} {links : List Link}
    (hchain : first.isChainOf sign family links = true) {f : Form} {fs : List Form}
    (hf : Form.ofExpr env first = .ok f)
    (hfs : List.Forall₂ (fun link g => Form.ofExpr env link.operand = .ok g) links fs) :
    Form.ofExpr env (first.chain sign links) = .ok (fs.foldl (Form.applyOp kind family) f) := by
  induction hfs generalizing first f with
  | nil => exact hf
  | @cons link g links fs hg _ ih =>
      simp only [Expr.isChainOf, Bool.and_eq_true, decide_eq_true_eq] at hchain
      refine ih hchain.2 ?_
      rw [Form.ofExpr, hf, hg, hchain.1]
      exact Form.ofBinary_eq hsign f g link.span

/-! ### Code of chains -/

section

variable {functions : SignatureTable} {kind : OpKind} {family : Family} {i : BinaryInstr}
  {f : Form} {args : List Form} {s s' : Assembly}

theorem checkOperands_eq_ok {u : Unit} : checkOperands kind family args s = .ok u s' ↔
    kind.admits args.length = true ∧ (∀ f ∈ args, f.clashesWith family = false) ∧ s = s' := by
  unfold checkOperands
  split
  · rename_i hadmits
    cases hclash : args.find? (·.clashesWith family) with
    | none =>
        have hnone := List.find?_eq_none.1 hclash
        simp only [pure_eq_ok, hadmits, true_and]
        exact ⟨fun h => ⟨fun f hf => by simpa using hnone f hf, h⟩, And.right⟩
    | some g =>
        have hg : g.clashesWith family = true := by simpa using List.find?_some hclash
        refine ⟨fun h => absurd h throw_ne_ok, fun h => ?_⟩
        have hne := h.2.1 g (List.mem_of_find?_eq_some hclash)
        rw [hg] at hne
        cases hne
  · rename_i hadmits
    exact ⟨fun h => absurd h throw_ne_ok, fun h => absurd h.1 hadmits⟩

def emitOperand (functions : SignatureTable) (i : BinaryInstr) (f : Form) : Emit Unit := do
  emitValue functions f
  Emit.instr (.binary i)

theorem emitFoldRest_append (args : List Form) (f : Form) :
    emitFoldRest functions i (args ++ [f]) = (do
      emitFoldRest functions i args
      emitOperand functions i f) := by
  induction args with
  | nil => simp [emitFoldRest, emitOperand]
  | cons g args ih => simp [emitFoldRest, ih]

/-- An operation that is folded is checked first, and then its operands are combined in turn. -/
theorem emitValue_fold (hplan : kind.plan? family = some (.fold i)) :
    emitValue functions (.op kind family args) s = .ok () s' ↔
      kind.admits args.length = true ∧ (∀ f ∈ args, f.clashesWith family = false) ∧
        emitFold functions i args s = .ok () s' := by
  have hemit : emitValue functions (.op kind family args) = (do
      checkOperands kind family args
      emitFold functions i args) := by
    rw [emitValue, hplan]
  rw [hemit, bind_eq_ok]
  constructor
  · rintro ⟨_, t, hcheck, hfold⟩
    obtain ⟨hadmits, hclash, rfl⟩ := checkOperands_eq_ok.1 hcheck
    exact ⟨hadmits, hclash, hfold⟩
  · rintro ⟨hadmits, hclash, hfold⟩
    exact ⟨(), s, checkOperands_eq_ok.2 ⟨hadmits, hclash, rfl⟩, hfold⟩

theorem OpKind.admits_of_isVariadic (hkind : kind.isVariadic = true) {n : Nat} :
    kind.admits n = true ↔ 2 ≤ n := by
  simp [admits, hkind]

/-- A last operand is combined with the result of the operation on the others. -/
theorem emitValue_fold_append (hkind : kind.isVariadic = true)
    (hplan : kind.plan? family = some (.fold i)) (hargs : 2 ≤ args.length) :
    emitValue functions (.op kind family (args ++ [f])) s = .ok () s' ↔
      f.clashesWith family = false ∧ (do
        emitValue functions (.op kind family args)
        emitOperand functions i f) s = .ok () s' := by
  have hfold : emitFold functions i (args ++ [f]) = (do
      emitFold functions i args
      emitOperand functions i f) := by
    cases args with
    | nil => cases hargs
    | cons g args => simp [emitFold, emitFoldRest_append]
  rw [emitValue_fold hplan, hfold, List.forall_mem_append, List.forall_mem_singleton,
    OpKind.admits_of_isVariadic hkind, bind_eq_ok, bind_eq_ok]
  constructor
  · rintro ⟨-, ⟨hclash, hf⟩, _, t, ht, hlast⟩
    have hadmits := (OpKind.admits_of_isVariadic hkind).2 hargs
    exact ⟨hf, (), t, (emitValue_fold hplan).2 ⟨hadmits, hclash, ht⟩, hlast⟩
  · rintro ⟨hf, _, t, ht, hlast⟩
    obtain ⟨-, hclash, ht⟩ := (emitValue_fold hplan).1 ht
    exact ⟨by simp; omega, ⟨hclash, hf⟩, (), t, ht, hlast⟩

/-- An operation on two operands. -/
theorem emitValue_fold_pair (hkind : kind.isVariadic = true)
    (hplan : kind.plan? family = some (.fold i)) {left : Form}
    (hleft : left.clashesWith family = false) :
    emitValue functions (.op kind family [left, f]) s = .ok () s' ↔
      f.clashesWith family = false ∧ (do
        emitValue functions left
        emitOperand functions i f) s = .ok () s' := by
  have hfold : emitFold functions i [left, f] = (do
      emitValue functions left
      emitOperand functions i f) := by
    simp [emitFold, emitFoldRest, emitOperand]
  rw [emitValue_fold hplan, hfold, OpKind.admits_of_isVariadic hkind]
  simp [hleft]

/-- The operation on all operands of a chain and the nest of operations on two have the same code,
and so they also fail together. -/
theorem emitValue_nest (hkind : kind.isVariadic = true)
    (hplan : kind.plan? family = some (.fold i)) (first : Form) {rest : List Form}
    (hrest : rest ≠ []) (s s' : Assembly) :
    emitValue functions (.op kind family (first :: rest)) s = .ok () s' ↔
      emitValue functions (.nest kind family first rest) s = .ok () s' := by
  -- by induction on the last operand, as both sides combine it with what is there before it
  induction rest using List.reverseRecOn generalizing s' with
  | nil => exact absurd rfl hrest
  | append_singleton rest last ih =>
      rcases eq_or_ne rest [] with rfl | hne
      · rfl
      · have hleft : (Form.nest kind family first rest).clashesWith family = false := by
          obtain ⟨left, right, hnest⟩ := Form.exists_nest hne
          rw [hnest]
          rfl
        have hlength : 2 ≤ (first :: rest).length := by
          have := List.length_pos_of_ne_nil hne
          simp only [List.length_cons]
          omega
        rw [← List.cons_append, emitValue_fold_append hkind hplan hlength, Form.nest_append,
          emitValue_fold_pair hkind hplan hleft, bind_eq_ok, bind_eq_ok]
        simp only [ih hne]

/-- The operators that repeat combine numbers from the left. -/
theorem OpKind.exists_fold (hkind : kind.isVariadic = true) (hfamily : family ≠ .string) :
    ∃ i, kind.plan? family = some (.fold i) := by
  cases family with
  | string => exact absurd rfl hfamily
  | int | float => cases kind <;> cases hkind <;> exact ⟨_, rfl⟩

end

/-- A chain of one operator on numbers is one operation on all its operands. The code is that of the
nest of operations on two operands, and what stands to the right of an operator stays one
operand. -/
theorem numeric_chains {sign : BinaryOp} {kind : OpKind} (hsign : sign.opKind? = some kind)
    (hkind : kind.isVariadic = true) {family : Family} (hfamily : family ≠ .string) (first : Form)
    (rest : List Form) (hrest : rest ≠ []) :
    (∀ (functions : SignatureTable) (s s' : Assembly),
      emitValue functions (.op kind family (first :: rest)) s = .ok () s' ↔
        emitValue functions (.nest kind family first rest) s = .ok () s') ∧
      ((∀ args, first ≠ .op kind family args) →
        (∀ steps : List (Form × Span), steps.map Prod.fst = rest →
          steps.foldlM (fun left right => Form.ofBinary sign (some family) left right.1 right.2)
            first = .ok (.op kind family (first :: rest))) ∧
        ∀ (env : Environment) (e : Expr) (links : List Link),
          e.isChainOf sign family links = true → Form.ofExpr env e = .ok first →
          List.Forall₂ (fun link f => Form.ofExpr env link.operand = .ok f) links rest →
          Form.ofExpr env (e.chain sign links) = .ok (.op kind family (first :: rest))) ∧
      ∀ (left right : Form) (span : Span), ∃ others,
        Form.ofBinary sign (some family) left right span =
            .ok (.op kind family (others ++ [right])) ∧
          (others = [left] ∨ left = .op kind family others) := by
  refine ⟨fun functions s s' => ?_, fun hfirst => ?_, fun left right span => ?_⟩
  · obtain ⟨i, hplan⟩ := OpKind.exists_fold hkind hfamily
    exact emitValue_nest hkind hplan first hrest s s'
  · have hflat : rest.foldl (Form.applyOp kind family) first = .op kind family (first :: rest) := by
      rw [Form.foldl_applyOp hkind hrest, Form.spread_of_ne hfirst, List.singleton_append]
    constructor
    · rintro steps rfl
      rw [Form.foldlM_ofBinary hsign, hflat]
    · intro env e links hchain he hlinks
      rw [ofExpr_chain hsign hchain he hlinks, hflat]
  · refine ⟨left.spread kind family, ?_, ?_⟩
    · rw [Form.ofBinary_eq hsign, Form.applyOp_eq]
    · by_cases hleft : ∃ args, left = .op kind family args
      · obtain ⟨args, rfl⟩ := hleft
        rw [Form.spread_op hkind]
        exact .inr rfl
      · exact .inl (Form.spread_of_ne fun args h => hleft ⟨args, h⟩)

/-- The operands of `x - y - (y - 1)` after the first. -/
def differenceLinks : List Link :=
  [⟨.ofName "y" .int, .int, {}⟩,
    ⟨.paren (.ofBinary .sub (.ofName "y" .int) (.ofLiteral (.int 1))) {}, .int, {}⟩]

theorem numeric_chains_difference :
    ∃ s', Form.ofExpr {} (.chain .sub (.ofName "x" .int) differenceLinks) =
        .ok (.op .sub .int [.var "x", .var "y", .op .sub .int [.var "y", .int 1]]) ∧
      emitValue .empty (.op .sub .int [.var "x", .var "y", .op .sub .int [.var "y", .int 1]])
        (.ofParams ["x", "y"]) = .ok () s' ∧
      emitValue .empty
        (.op .sub .int [.op .sub .int [.var "x", .var "y"], .op .sub .int [.var "y", .int 1]])
        (.ofParams ["x", "y"]) = .ok () s' ∧
      s'.code = #[.stackRef 1, .stackRef 1, .binary .diff, .stackRef 1, .constRef 0, .binary .diff,
        .binary .diff] := by
  have hcode : (Emit.built? (emitValue .empty
      (.op .sub .int [.var "x", .var "y", .op .sub .int [.var "y", .int 1]]))
      (.ofParams ["x", "y"])).map (·.code) =
        some #[.stackRef 1, .stackRef 1, .binary .diff, .stackRef 1, .constRef 0, .binary .diff,
          .binary .diff] := by
    decide +kernel
  obtain ⟨s', hbuilt, hcode⟩ := Option.map_eq_some_iff.1 hcode
  have hemit := Emit.built?_eq_some hbuilt
  have hchain := @numeric_chains .sub .sub rfl rfl .int (by decide) (.var "x")
    [.var "y", .op .sub .int [.var "y", .int 1]] (by simp)
  refine ⟨s', (hchain.2.1 (by simp)).2 {} (.ofName "x" .int) differenceLinks rfl rfl ?_, hemit,
    (hchain.1 _ _ _).1 hemit, hcode⟩
  exact .cons rfl (.cons rfl .nil)

end StackCompiler
