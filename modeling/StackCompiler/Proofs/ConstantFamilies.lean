import StackCompiler.Proofs.ExprMeaning
import StackCompiler.Proofs.Growth
import StackCompiler.Source.Build

/-!
Constants of numeric kinds. A literal takes the family of the kind that it is used at, but a minus
sign is folded into an integer without a look at that kind. `constant_families` shows that this is
the only way in which a constant can end up in another family than its kind has, and
`constant_families_negated` that it does.
-/

namespace StackCompiler

open Source

/-! ### Constants -/

namespace Source

def Literal.isConstantOf : Literal → Kind → Bool
  | .int _, kind => kind = .int || kind = .char || kind = .float
  | .float _, kind => kind = .float
  | .char _, kind => kind = .char || kind = .int
  | _, _ => false

namespace Expr

/-- Whether an expression is made of a literal or a named constant by parentheses and signs, all of
the same numeric kind. -/
def isConstantOf (kind : Kind) : Expr → Bool
  | .lit v kind' _ => kind' = kind && v.isConstantOf kind
  | .ident _ _ kind' (some v) _ => kind' = kind && v.isConstantOf kind
  | .unary .plus operand kind' _ => kind' = kind && operand.isConstantOf kind
  | .unary .neg operand kind' _ => kind' = kind && operand.isConstantOf kind
  | .paren inner _ => inner.isConstantOf kind
  | _ => false

def isInteger (e : Expr) : Bool :=
  match e.literal? with
  | some (.int _) => true
  | _ => false

def negatesInteger : Expr → Bool
  | .unary .neg operand _ _ => operand.isInteger || operand.negatesInteger
  | .unary .plus operand _ _ => operand.negatesInteger
  | .paren inner _ => inner.negatesInteger
  | _ => false

variable {kind : Kind} {e : Expr} {v : Literal}

/-- A minus sign stands before no part of a literal. -/
theorem literal_of_isConstantOf (h : e.isConstantOf kind = true) (hv : e.literal? = some v) :
    v.isConstantOf kind = true ∧ e.negatesInteger = false := by
  induction e using Expr.isConstantOf.induct with
  | case1 | case2 =>
      simp only [isConstantOf, Bool.and_eq_true] at h
      cases hv
      exact ⟨h.2, rfl⟩
  | case3 | case4 => cases hv
  | case5 inner _ ih => exact ih h hv
  | case6 => simp_all [isConstantOf]

end Expr

end Source

/-! ### Families -/

/-- Whether a form, if it is a literal, is one of the family of a kind. -/
def Form.FitsKind (kind : Kind) (f : Form) : Prop :=
  f.isAtom = true → f.atomFamily? = kind.family?

/-- A literal takes the family of the kind that it is used at. -/
theorem ofLiteral_family {v : Literal} {kind : Kind} (h : v.isConstantOf kind = true) :
    (Form.ofLiteral v kind).isAtom = true ∧
      (Form.ofLiteral v kind).atomFamily? = kind.family? := by
  cases v with
  | bool _ | str _ => cases h
  | int _ =>
      simp only [Literal.isConstantOf, Bool.or_eq_true, decide_eq_true_eq] at h
      obtain (rfl | rfl) | rfl := h <;> exact ⟨rfl, rfl⟩
  | float _ =>
      simp only [Literal.isConstantOf, decide_eq_true_eq] at h
      subst h
      exact ⟨rfl, rfl⟩
  | char _ =>
      simp only [Literal.isConstantOf, Bool.or_eq_true, decide_eq_true_eq] at h
      obtain rfl | rfl := h <;> exact ⟨rfl, rfl⟩

/-- A literal by itself fits a kind if it has the family of the kind. -/
theorem every_fitsKind_atom {f : Form} {kind : Kind} (hf : f.isAtom = true) :
    f.Every (Form.FitsKind kind) ↔ f.atomFamily? = kind.family? :=
  ⟨fun h => h f (mem_parts_self f) hf, fun h => .of_isAtom hf fun _ => h⟩

/-- A literal that is used at its kind fits. -/
theorem every_fitsKind_ofLiteral {v : Literal} {kind : Kind} (h : v.isConstantOf kind = true) :
    (Form.ofLiteral v kind).Every (Form.FitsKind kind) := by
  obtain ⟨hatom, hfamily⟩ := ofLiteral_family h
  exact (every_fitsKind_atom hatom).2 hfamily

/-- The form of a minus sign. Integers and floating point numbers are negated on the spot. -/
theorem ofExpr_neg {env : Environment} {kind : Kind} {operand : Expr} {span : Span} {f : Form}
    (hf : Form.ofExpr env (.unary .neg operand kind span) = .ok f) :
    (∃ v, operand.literal? = some (.int v) ∧ f = .int (-v)) ∨
      (∃ x, operand.literal? = some (.float x) ∧ f = .float (-x)) ∨
        operand.isInteger = false ∧
          ∃ family g, Form.ofExpr env operand = .ok g ∧ f = .unary .neg family g := by
  by_cases hint : operand.isInteger = true
  · unfold Expr.isInteger at hint
    split at hint
    · rename_i v hv
      simp only [Form.ofExpr, hv] at hf
      split at hf
      · cases hf
      · cases hf
        exact .inl ⟨v, hv, rfl⟩
    · cases hint
  · obtain ⟨v, -, hv, -, rfl⟩ | ⟨x, -, hx, rfl⟩ | ⟨sign, family, g, hsign, hg, rfl⟩ :=
      ExprAgrees.ofExpr_unary_cases hf (by simp) (by simp)
    · exact .inl ⟨v, hv, rfl⟩
    · exact .inr (.inl ⟨x, hx, rfl⟩)
    · have hneg : sign = .neg := by
        cases hfamily : operand.kind.family? with
        | none => simp [hfamily, unaryKind?] at hsign
        | some family' =>
            rw [hfamily] at hsign
            cases family' <;> cases hsign <;> rfl
      subst hneg
      exact .inr (.inr ⟨by simpa using hint, family, g, hg, rfl⟩)

/-- A constant has one literal, which fits its kind unless a minus sign makes it an integer where
the kind asks for a floating point number. -/
theorem every_fitsKind_ofExpr {env : Environment} {kind : Kind} (e : Expr) {f : Form}
    (he : e.isConstantOf kind = true) (hf : Form.ofExpr env e = .ok f) :
    f.Every (Form.FitsKind kind) ↔ ¬(kind = .float ∧ e.negatesInteger = true) := by
  induction e using Expr.isConstantOf.induct generalizing f with
  | case1 v kind' span | case2 name defines kind' v span =>
      simp only [Expr.isConstantOf, Bool.and_eq_true, decide_eq_true_eq] at he
      obtain ⟨rfl, hv⟩ := he
      cases hf
      simp [every_fitsKind_ofLiteral hv, Expr.negatesInteger]
  | case3 operand kind' span ih =>
      simp only [Expr.isConstantOf, Bool.and_eq_true] at he
      exact ih he.2 hf
  | case4 operand kind' span ih =>
      simp only [Expr.isConstantOf, Bool.and_eq_true] at he
      obtain ⟨v, hv, rfl⟩ | ⟨x, hx, rfl⟩ | ⟨hint, family, g, hg, rfl⟩ := ofExpr_neg hf
      · have hconstant := (Expr.literal_of_isConstantOf he.2 hv).1
        simp only [Literal.isConstantOf, Bool.or_eq_true, decide_eq_true_eq] at hconstant
        rw [every_fitsKind_atom rfl]
        obtain (rfl | rfl) | rfl := hconstant <;>
          simp [Expr.negatesInteger, Expr.isInteger, hv, Form.atomFamily?, Kind.family?,
            Scalar.family?]
      · obtain ⟨hconstant, hneg⟩ := Expr.literal_of_isConstantOf he.2 hx
        simp only [Literal.isConstantOf, decide_eq_true_eq] at hconstant
        subst hconstant
        rw [every_fitsKind_atom rfl]
        simp [Expr.negatesInteger, Expr.isInteger, hx, hneg, Form.atomFamily?, Kind.family?,
          Scalar.family?]
      · rw [Form.every_unary, ih he.2 hg]
        simp [Expr.negatesInteger, hint, Form.FitsKind, Form.isAtom]
  | case5 inner span ih => exact ih he hf
  | case6 => simp_all [Expr.isConstantOf]

/-- An operand is refused only if it clashes with the operation. -/
theorem checkOperands_refuses {kind op : OpKind} {family family' : Family} {args : List Form}
    {f : Form} {s s' : Assembly}
    (h : checkOperands kind family args s = .error (.internal (.operandFamily f op family')) s') :
    f.clashesWith family = true := by
  unfold checkOperands at h
  split at h
  · cases hfind : args.find? (·.clashesWith family) with
    | none =>
        rw [hfind] at h
        cases h
    | some g =>
        rw [hfind] at h
        cases h
        simpa using List.find?_some hfind
  · cases h

/-- A numeric constant is a literal of the family of its kind, unless a minus sign stands right
before an integer at the kind of floating point numbers. So no operation of that family refuses it,
and its literal is a floating point number where the kind says so. -/
theorem constant_families {env : Environment} {kind : Kind} {e : Expr} {f : Form}
    (he : e.isConstantOf kind = true) (hf : Form.ofExpr env e = .ok f) :
    (f.isAtom = true →
      (f.atomFamily? = kind.family? ↔ ¬(kind = .float ∧ e.negatesInteger = true))) ∧
    (¬(kind = .float ∧ e.negatesInteger = true) → ∀ family, kind.family? = some family →
      ∀ op args s s', checkOperands op family args s ≠
        .error (.internal (.operandFamily f op family)) s') ∧
    (kind = .float →
      ((∀ g ∈ f.parts, g.isAtom = true → ∃ x, g = .float x) ↔ e.negatesInteger = false)) := by
  have hfits := every_fitsKind_ofExpr e he hf
  refine ⟨fun hatom => (every_fitsKind_atom hatom).symm.trans hfits, ?_, ?_⟩
  · intro hkind family hfamily op args s s' herror
    have hclash := checkOperands_refuses herror
    simp only [Form.clashesWith, Bool.and_eq_true, bne_iff_ne, ne_eq] at hclash
    exact hclash.2 ((hfits.2 hkind f (mem_parts_self f) hclash.1).trans hfamily)
  · rintro rfl
    have hfloat : ∀ g : Form, g.isAtom = true →
        (g.atomFamily? = Kind.family? .float ↔ ∃ x, g = .float x) := by
      intro g hg
      cases g <;> cases hg <;> simp [Form.atomFamily?, Kind.family?, Scalar.family?]
    have hfits : f.Every (Form.FitsKind .float) ↔ e.negatesInteger = false := by
      simpa using hfits
    rw [← hfits]
    exact forall₂_congr fun g hg => forall_congr' fun hatom => (hfloat g hatom).symm

/-- The expression `+(one)`, where `one` names a floating point constant that was written as an
integer. -/
def signedOne : Expr :=
  .unary .plus (.paren (.ofConstant "one" .float (.int 1)) {}) .float {}

theorem constant_families_signedOne :
    signedOne.isConstantOf .float = true ∧
      Form.ofExpr {} signedOne = .ok (.float (.ofInt64 1)) ∧
      (Form.float (.ofInt64 1)).atomFamily? = some .float ∧
      ∀ args s s', checkOperands .add .float args s ≠
        .error (.internal (.operandFamily (.float (.ofInt64 1)) .add .float)) s' := by
  have hconstant := @constant_families {} .float signedOne _ rfl rfl
  refine ⟨rfl, rfl, (hconstant.1 rfl).2 (by decide), ?_⟩
  exact hconstant.2.1 (by decide) .float rfl .add

/-- A minus sign before an integer at the kind of floating point numbers makes an integer, which the
operations of its kind refuse. -/
theorem constant_families_negated :
    let e := Expr.unary .neg (.lit (.int 1) .float {}) .float {}
    e.isConstantOf .float = true ∧ Form.ofExpr {} e = .ok (.int (-1)) ∧
      (Form.int (-1)).isAtom = true ∧ (Form.int (-1)).atomFamily? ≠ Kind.family? .float ∧
      checkOperands .add .float [.var "x", .int (-1)] {} =
        .error (.internal (.operandFamily (.int (-1)) .add .float)) {} :=
  ⟨rfl, rfl, rfl, by decide, rfl⟩

end StackCompiler
